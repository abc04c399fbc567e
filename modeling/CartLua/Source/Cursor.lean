import CartLua.Source.Position
import CartLua.Text.Blank
/-!
# Cursors

A cursor is a place in a text that is being read: what is still to come, the position reached, and whether the line up
to here is blank. A cursor moves by `skip` alone, so a position always agrees with the characters passed over.
-/

namespace CartLua

structure Cursor where
  rest : List Char
  position : Position
  /-- Whether only blanks stand before this place on its line. -/
  fresh : Bool := true
deriving DecidableEq, Inhabited, Repr

namespace Cursor

/-- Passes over `n` characters, or over all that are left. -/
def skip (c : Cursor) : Nat → Cursor
  | 0 => c
  | n + 1 =>
    match c.rest with
    | [] => c
    | ch :: rest => skip ⟨rest, c.position.after ch, ch == '\n' || (c.fresh && isBlank ch)⟩ n

@[simp] theorem skip_zero (c : Cursor) : c.skip 0 = c := rfl

@[simp] theorem rest_skip (c : Cursor) (n : Nat) : (c.skip n).rest = c.rest.drop n := by
  induction n generalizing c with
  | zero => simp
  | succ n ih =>
    unfold skip
    split
    · simp_all
    · rw [ih]; simp_all

def spanTo (c d : Cursor) : Span := ⟨c.position, d.position⟩

end Cursor

end CartLua
