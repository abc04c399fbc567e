import CartLua.Text.Blank
import CartLua.Token.LongBracket
/-!
# Trivia

Blanks and comments, which stand between tokens. A comment starts with `--` and goes to the end of its long bracket or of
its line, or it starts with `//` and goes to the end of its line.
-/

namespace CartLua

inductive Trivia where
  /-- So many characters of blanks and comments. -/
  | clear (length : Nat)
  /-- A long comment that starts at the offset and never ends. -/
  | unclosed (offset : Nat)
deriving DecidableEq, Inhabited, Repr

namespace Trivia

def shift (n : Nat) : Trivia → Trivia
  | .clear length => .clear (n + length)
  | .unclosed offset => .unclosed (n + offset)

def lineLength (text : List Char) : Nat := (text.takeWhile (· != '\n')).length

/-- The comment at the head of a text: its length behind the first character, or nothing within when it never ends. -/
def comment? : List Char → Option (Option Nat)
  | '-' :: '-' :: rest =>
    match LongBracket.level? rest with
    | some level => some ((LongBracket.read? level rest).map (·.2 + 1))
    | none => some (some (lineLength rest + 1))
  | '/' :: '/' :: rest => some (some (lineLength rest + 1))
  | _ => none

def read (text : List Char) : Trivia :=
  let blanks := (text.takeWhile isBlank).length
  match h : text.drop blanks with
  | [] => .clear blanks
  | c :: rest =>
    have : (text.drop blanks).length = rest.length + 1 := by rw [h]; rfl
    match comment? (c :: rest) with
    | none => .clear blanks
    | some none => .unclosed blanks
    | some (some more) => (read (rest.drop more)).shift (blanks + 1 + more)
termination_by text.length
decreasing_by
  simp only [List.length_drop] at this ⊢
  omega

theorem read_nil : read [] = .clear 0 := by
  rw [read]; rfl

end Trivia

end CartLua
