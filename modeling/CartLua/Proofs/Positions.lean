import CartLua.Proofs.Framing
/-!
# Positions are exact

A cursor moves by passing over characters alone, also where a token is wrong or an unfinished string takes the rest of the
text with it. So all positions that scanning gives are those of characters of the text, however far it has got.
-/

namespace CartLua

/-- The span that a step of scanning shows: that of a token, of the end of the text or of a fault. -/
def Scan.span : Scan → Span
  | .done t _ | .token t _ => t.span
  | .fault d _ => d.span

/-- The place where scanning goes on. -/
def Scan.next : Scan → Cursor
  | .done _ next | .token _ next | .fault _ next => next

namespace Cursor

variable {mode : Encoding} {c d : Cursor}

/-- The places that are reached by scanning any number of times, over tokens and over faults. -/
inductive Reached (mode : Encoding) (c : Cursor) : Cursor → Prop where
  | refl : Reached mode c c
  | scan {d : Cursor} (h : Reached mode c d) : Reached mode c (d.scan mode).next

theorem exists_skip_scan (mode : Encoding) (c : Cursor) :
    (∃ m n, (c.scan mode).span = (c.skip m).spanTo (c.skip n)) ∧ ∃ n, (c.scan mode).next = c.skip n := by
  unfold scan
  split
  next offset _ => exact ⟨⟨offset, c.rest.length, rfl⟩, c.rest.length, rfl⟩
  next length _ =>
    dsimp only
    split
    · exact ⟨⟨length, length, rfl⟩, length, rfl⟩
    · unfold place
      simp only [skip_skip]
      split
      · exact ⟨⟨length, _, rfl⟩, _, rfl⟩
      · exact ⟨⟨_, _, rfl⟩, _, rfl⟩

theorem Reached.exists_skip (h : Reached mode c d) : ∃ n, d = c.skip n := by
  induction h with
  | refl => exact ⟨0, rfl⟩
  | scan _ ih =>
    obtain ⟨m, rfl⟩ := ih
    obtain ⟨n, hn⟩ := (exists_skip_scan mode (c.skip m)).2
    exact ⟨m + n, by rw [hn, skip_skip]⟩

theorem position_skip (text : List Char) (file : FileId) (n : Nat) :
    (({ rest := text, position := { file } } : Cursor).skip n).position =
      Position.inText text file (min n text.length) := by
  have halong : ({ rest := text, position := { file } } : Cursor).GoesAlong
      fun p => Position.inText text file (0 + p.index) :=
    goesAlong_inText file List.prefix_rfl rfl
  have hmoved := congrArg Cursor.position (skip_moved halong n)
  have hindex := skip_index { rest := text, position := { file } } n
  rw [Nat.zero_add] at hindex
  simp only [moved, hindex, Nat.zero_add] at hmoved
  exact hmoved

end Cursor

/-- A text with a string that goes on behind a line end, a wrong number and a string that never ends. -/
def faltering : String := "'\\z\n'0x\n\"a\nb"

end CartLua
