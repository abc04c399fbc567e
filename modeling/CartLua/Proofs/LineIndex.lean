import CartLua.Chunk
import CartLua.Proofs.Entries
/-!
# The index by lines

The index holds the usages of all entries and nothing else, each under the line it starts on. So a point is looked up
among the usages that start on its line. A full scan finds the same unless the point lies in a shorter usage, or only in
usages, that start on an earlier line.
-/

namespace CartLua.CrossReference

/-! ### The narrowest span -/

variable {pairs : List (Span × EntryId)}

theorem narrowest?_eq_none (h : narrowest? pairs = none) : pairs = [] := by
  cases pairs with
  | nil => rfl
  | cons =>
    unfold narrowest? at h
    split at h <;> cases h

theorem narrowest?_spec {pair : Span × EntryId} (h : narrowest? pairs = some pair) :
    pair ∈ pairs ∧ ∀ other ∈ pairs, pair.1.length ≤ other.1.length := by
  induction pairs generalizing pair with
  | nil => cases h
  | cons first rest ih =>
    unfold narrowest? at h
    split at h
    next hnone =>
      cases h
      rw [narrowest?_eq_none hnone]
      simp
    next other hsome =>
      obtain ⟨hmem, hleast⟩ := ih hsome
      by_cases hlt : other.1.length < first.1.length
      · rw [if_pos hlt] at h
        cases h
        exact ⟨List.mem_cons_of_mem _ hmem, List.forall_mem_cons.mpr ⟨hlt.le, hleast⟩⟩
      · rw [if_neg hlt] at h
        cases h
        refine ⟨List.mem_cons_self, List.forall_mem_cons.mpr ⟨le_rfl, fun pair hpair => ?_⟩⟩
        exact (Nat.not_lt.mp hlt).trans (hleast pair hpair)

/-- The answer is the owner of a span that no other candidate is shorter than; there is none without candidates. -/
def IsNarrowest (candidate : EntryId → Span → Prop) : Option EntryId → Prop
  | none => ∀ i span, ¬candidate i span
  | some i => ∃ span, candidate i span ∧ ∀ j other, candidate j other → span.length ≤ other.length

def UsedAt (x : CrossReference) (file : FileId) (line column : Nat) (i : EntryId) (span : Span) : Prop :=
  x.Uses i span ∧ span.contains file line column = true

theorem file_of_contains {span : Span} {file : FileId} {line column : Nat} (h : span.contains file line column = true) :
    span.file = file := by
  simp only [Span.contains, Bool.and_eq_true, beq_iff_eq] at h
  exact h.1.1.1

variable {x : CrossReference}

theorem Indexed.isNarrowest (h : x.Indexed) (file : FileId) (line column : Nat) :
    IsNarrowest (fun i span => x.UsedAt file line column i span ∧ span.start.line = line) (x.lookup? file line column) := by
  have hmem : ∀ i span, (span, i) ∈ (x.lines.getD (file, line) []).filter (·.1.contains file line column) ↔
      x.UsedAt file line column i span ∧ span.start.line = line := by
    intro i span
    rw [List.mem_filter, h, UsedAt]
    constructor
    · rintro ⟨⟨huses, -, hline⟩, hcontains⟩
      exact ⟨⟨huses, hcontains⟩, hline⟩
    · rintro ⟨⟨huses, hcontains⟩, hline⟩
      exact ⟨⟨huses, file_of_contains hcontains, hline⟩, hcontains⟩
  unfold lookup?
  cases hfound : narrowest? ((x.lines.getD (file, line) []).filter (·.1.contains file line column)) with
  | none =>
    intro i span hspan
    have hin := (hmem i span).mpr hspan
    rw [narrowest?_eq_none hfound] at hin
    cases hin
  | some pair =>
    obtain ⟨hpair, hleast⟩ := narrowest?_spec hfound
    exact ⟨pair.1, (hmem pair.2 pair.1).mp hpair, fun j other hother => hleast (other, j) ((hmem j other).mpr hother)⟩

variable {answer : Option EntryId} {candidate chosen : EntryId → Span → Prop}

theorem IsNarrowest.of_matched (h : IsNarrowest (fun i span => candidate i span ∧ chosen i span) answer)
    (hmatched : ∀ j other, candidate j other → ∃ i span, (candidate i span ∧ chosen i span) ∧ span.length ≤ other.length) :
    IsNarrowest candidate answer := by
  cases answer with
  | none =>
    intro j other hother
    obtain ⟨i, span, hspan, -⟩ := hmatched j other hother
    exact h i span hspan
  | some =>
    obtain ⟨span, hspan, hleast⟩ := h
    refine ⟨span, hspan.1, fun j other hother => ?_⟩
    obtain ⟨k, inner, hinner, hle⟩ := hmatched j other hother
    exact (hleast k inner hinner).trans hle

theorem IsNarrowest.exists_chosen
    (h : IsNarrowest (fun i span => candidate i span ∧ chosen i span) answer) (hall : IsNarrowest candidate answer)
    {j : EntryId} {other : Span} (hother : candidate j other) : ∃ i span, candidate i span ∧ chosen i span := by
  cases answer with
  | none => exact absurd hother (hall j other)
  | some i =>
    obtain ⟨span, hspan, -⟩ := h
    exact ⟨i, span, hspan⟩

theorem indexed_build (body : Block) : (build body).1.Indexed := by
  rw [(build_eq body).1]
  exact (Builder.sound_settled body).indexed

/-- The entry at a point is the owner of the narrowest usage around the point among those that start on its line. It is
the owner of the narrowest of all usages around the point if each of them is matched by one that starts on the line, and
only if one at all starts there. -/
theorem lookup?_narrowest (body : Block) (file : FileId) (line column : Nat) :
    let x := (build body).1
    let onLine (i : EntryId) (span : Span) : Prop := x.UsedAt file line column i span ∧ span.start.line = line
    IsNarrowest onLine (x.lookup? file line column) ∧
      ((∀ j other, x.UsedAt file line column j other → ∃ i span, onLine i span ∧ span.length ≤ other.length) →
        IsNarrowest (x.UsedAt file line column) (x.lookup? file line column)) ∧
      (IsNarrowest (x.UsedAt file line column) (x.lookup? file line column) →
        ∀ j other, x.UsedAt file line column j other → ∃ i span, onLine i span) := by
  intro x onLine
  have hline := (indexed_build body).isNarrowest file line column
  exact ⟨hline, hline.of_matched, fun hall j other hother => hline.exists_chosen hall hother⟩

/-- A member that stands on the line below its base is not found by its name: the usage of the path starts on the line of
the base. -/
theorem lookup?_below_base :
    let x := (Chunk.parse {} "x=a.\nb" "main.lua").index
    x.lookup? 0 2 1 = none ∧ ∃ i, x.UsedAt 0 2 1 i ⟨⟨1, 3, 2, 0⟩, ⟨2, 2, 6, 0⟩⟩ := by
  intro x
  have hentry : x.entries[1]? = some ⟨"a.b", #[⟨⟨1, 3, 2, 0⟩, ⟨2, 2, 6, 0⟩⟩], #[⟨⟨1, 3, 2, 0⟩, ⟨2, 2, 6, 0⟩⟩]⟩ := by
    decide +kernel
  have hlines : ∀ e ∈ x.entries.toList, ∀ span ∈ e.usages.toList, span.start.line = 1 := by decide +kernel
  refine ⟨?_, 1, ⟨_, hentry, by simp⟩, by decide⟩
  have hnarrowest := (indexed_build (Program.parse {} "x=a.\nb" "main.lua").body).isNarrowest 0 2 1
  cases hlookup : x.lookup? 0 2 1 with
  | none => rfl
  | some i =>
    rw [show (build (Program.parse {} "x=a.\nb" "main.lua").body).1.lookup? 0 2 1 = some i from hlookup] at hnarrowest
    obtain ⟨span, ⟨⟨⟨e, he, hspan⟩, -⟩, hline⟩, -⟩ := hnarrowest
    have hfirst := hlines e (Array.mem_toList_iff.mpr (Array.mem_of_getElem? he)) span hspan
    rw [hfirst] at hline
    cases hline

end CartLua.CrossReference
