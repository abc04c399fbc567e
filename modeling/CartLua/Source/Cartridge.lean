import CartLua.Source.Cursor
/-!
# Cartridges

A cartridge is a text of sections. Its first line names the format, the section `__lua__` holds the code, and the
sections behind the code hold data. A text that is no cartridge is code from its first character to its last.
-/

namespace CartLua.Cartridge

def header : List Char := "pico-8 cartridge".toList

def codeMark : List Char := "__lua__".toList

def dataMarks : List (List Char) :=
  ["__gfx__".toList, "__gff__".toList, "__label__".toList, "__map__".toList, "__sfx__".toList, "__music__".toList,
    "__meta:".toList]

def lines : List Char → List (List Char)
  | [] => []
  | c :: rest =>
    if c = '\n' then [c] :: lines rest
    else
      match lines rest with
      | [] => [[c]]
      | line :: others => (c :: line) :: others

def opensCode (line : List Char) : Bool := codeMark.isPrefixOf line

def opensData (line : List Char) : Bool := dataMarks.any (·.isPrefixOf line)

/-- The place where the code of a text starts, with nothing but the code to come. The code of a cartridge starts on a
line of its own, also when the text ends right behind the mark; without a mark it is the empty text at the end. -/
def code (text : List Char) (file : FileId) : Cursor :=
  if header.isPrefixOf text then
    let all := lines text
    let before := all.takeWhile (!opensCode ·)
    match all.drop before.length with
    | [] => { rest := [], position := { line := all.length + 1, index := text.length, file } }
    | mark :: behind =>
      { rest := (behind.takeWhile (!opensData ·)).flatten
        position := { line := before.length + 2, index := before.flatten.length + mark.length, file } }
  else { rest := text, position := { file } }

end CartLua.Cartridge
