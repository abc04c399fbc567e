import CartLua.Include.Path
import CartLua.Text.Blank
/-!
# Mentioned documents

The documents that a text may include, found without reading the text as a program. Lines that only look like include
lines, in a comment or a string, are among them.
-/

namespace CartLua

def lineTarget? (line : List Char) : Option (List Char) :=
  let word := "#include".toList
  let text := line.dropWhile isBlank
  if word.isPrefixOf text then some (trimBlanks (text.drop word.length)) else none

def mentioned (path text : String) : List String :=
  (splitOn '\n' text.toList).filterMap fun line =>
    (lineTarget? line).map fun target => Path.resolve (Path.normalize path) (String.ofList target)

end CartLua
