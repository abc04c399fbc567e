/-!
# Long brackets

A long bracket opens with `[`, some equal signs and `[`, and closes with `]`, as many equal signs and `]`. Long strings
and long comments are written in them.
-/

namespace CartLua.LongBracket

/-- The number of equal signs of the bracket that opens at the head of a text. -/
def level? : List Char → Option Nat
  | '[' :: rest =>
    let level := (rest.takeWhile (· == '=')).length
    if (rest.drop level).head? == some '[' then some level else none
  | _ => none

def closing (level : Nat) : List Char := ']' :: (List.replicate level '=' ++ [']'])

def find? (mark : List Char) : List Char → Option Nat
  | [] => none
  | c :: rest => if mark.isPrefixOf (c :: rest) then some 0 else (find? mark rest).map (· + 1)

def lineEnd : List Char → Nat
  | '\r' :: '\n' :: _ => 2
  | '\r' :: _ => 1
  | '\n' :: _ => 1
  | _ => 0

/-- The contents of a long bracket of the given level whose opening stands at the head of `text`, and its whole length.
A line end right behind the opening does not belong to the contents. -/
def read? (level : Nat) (text : List Char) : Option (List Char × Nat) :=
  let inner := text.drop (level + 2)
  let contents := inner.drop (lineEnd inner)
  (find? (closing level) contents).map fun n => (contents.take n, level + 2 + lineEnd inner + n + (level + 2))

end CartLua.LongBracket
