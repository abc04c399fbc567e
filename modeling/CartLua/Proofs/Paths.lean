import CartLua.Parse.Session
import Mathlib.Data.List.Induction
/-!
# Normal paths

A path whose parts hold no slash is what its text says, and folding it again changes nothing. So the text of a folded path
is its own normal form. A target means what its normal form means, also behind the folder of the including document.
-/

namespace CartLua

open List

variable {separator : Char} {cs stretch : List Char}

theorem splitOn_of_not_mem (h : separator ∉ cs) : splitOn separator cs = [cs] := by
  induction cs with
  | nil => rfl
  | cons c rest ih =>
    rw [mem_cons, not_or] at h
    rw [splitOn, if_neg (Ne.symm h.1), ih h.2]

theorem splitOn_append (h : separator ∉ cs) (rest : List Char) :
    splitOn separator (cs ++ separator :: rest) = cs :: splitOn separator rest := by
  induction cs with
  | nil => rw [nil_append, splitOn, if_pos rfl]
  | cons c cs ih =>
    rw [mem_cons, not_or] at h
    rw [cons_append, splitOn, if_neg (Ne.symm h.1), ih h.2]

theorem not_mem_of_mem_splitOn (h : stretch ∈ splitOn separator cs) : separator ∉ stretch := by
  induction cs generalizing stretch with
  | nil =>
    cases mem_singleton.mp h
    exact not_mem_nil
  | cons c rest ih =>
    rw [splitOn] at h
    split at h
    · obtain rfl | h := mem_cons.mp h
      · exact not_mem_nil
      · exact ih h
    next hc =>
      split at h
      · cases mem_singleton.mp h
        simpa using Ne.symm hc
      next first others hsplit =>
        obtain rfl | h := mem_cons.mp h
        · have hfirst := ih (hsplit ▸ mem_cons_self ..)
          simpa [Ne.symm hc] using hfirst
        · exact ih (hsplit ▸ mem_cons_of_mem _ h)

namespace Path

variable {p q : Path} {part : List Char} {folded : List (List Char)} {absolute : Bool} {parts : List (List Char)}

/-- The parts of the path are such as stand between slashes and count. -/
def Clean (p : Path) : Prop := ∀ part ∈ p.parts, counts part = true ∧ '/' ∉ part

theorem clean_ofString (text : String) : (ofString text).Clean := by
  intro part hpart
  obtain ⟨hmem, hcounts⟩ := mem_filter.mp hpart
  exact ⟨hcounts, not_mem_of_mem_splitOn hmem⟩

theorem Clean.folder (h : p.Clean) : p.folder.Clean := by
  unfold Path.folder
  split
  · exact nofun
  · exact fun part hpart => h part (dropLast_subset _ hpart)

theorem Clean.append (hp : p.Clean) (hq : q.Clean) : (p.append q).Clean := by
  unfold Path.append
  split
  · exact hq
  · exact fun part hpart => (mem_append.mp hpart).elim (hp part) (hq part)

/-! ### Texts of paths -/

theorem splitOn_join (hparts : ∀ part ∈ parts, '/' ∉ part) (hne : parts ≠ []) : splitOn '/' (join parts) = parts := by
  induction parts with
  | nil => exact absurd rfl hne
  | cons part rest ih =>
    have hpart := hparts part (mem_cons_self ..)
    cases rest with
    | nil => exact splitOn_of_not_mem hpart
    | cons =>
      rw [join, splitOn_append hpart, ih (fun x hx => hparts x (mem_cons_of_mem _ hx)) (cons_ne_nil _ _)]
      exact cons_ne_nil _ _

theorem head?_join (h : p.Clean) : (join p.parts).head? ≠ some '/' := by
  obtain ⟨absolute, parts⟩ := p
  cases parts with
  | nil => nofun
  | cons part rest =>
    obtain ⟨hcounts, hslash⟩ := h part (mem_cons_self ..)
    cases part with
    | nil => cases hcounts
    | cons c part =>
      intro hhead
      have hc : (join ((c :: part) :: rest)).head? = some c := by cases rest <;> rfl
      rw [hc] at hhead
      cases hhead
      exact hslash (mem_cons_self ..)

theorem ofString_toString (h : p.Clean) : ofString p.toString = p := by
  have hsplit : (splitOn '/' (join p.parts)).filter counts = p.parts := by
    by_cases hne : p.parts = []
    · rw [hne]
      rfl
    · rw [splitOn_join (fun part hpart => (h part hpart).2) hne, filter_eq_self]
      exact fun part hpart => (h part hpart).1
  have hhead := head?_join h
  obtain ⟨absolute, parts⟩ := p
  unfold ofString toString
  rw [String.toList_ofList]
  cases absolute with
  | true =>
    have hslash : (splitOn '/' ('/' :: join parts)).filter counts = (splitOn '/' (join parts)).filter counts := rfl
    rw [if_pos rfl, hslash, hsplit]
    rfl
  | false =>
    rw [if_neg Bool.false_ne_true, hsplit]
    exact congrArg (Path.mk · parts) (beq_eq_false_iff_ne.mpr hhead)

/-! ### Folding -/

theorem mem_of_mem_foldl (h : part ∈ parts.foldl (fold absolute) folded) : part ∈ parts ∨ part ∈ folded := by
  induction parts generalizing folded with
  | nil => exact .inr h
  | cons next rest ih =>
    obtain h | h := ih h
    · exact .inl (mem_cons_of_mem _ h)
    · have hfold : part = next ∨ part ∈ folded := by
        unfold fold at h
        split at h
        · split at h
          · split at h
            · simpa using h
            · exact .inr (mem_cons_of_mem _ h)
          · split at h
            · cases h
            · exact .inl (mem_singleton.mp h)
        · exact mem_cons.mp h
      exact hfold.elim (fun h => .inl (h ▸ mem_cons_self ..)) .inr

theorem Clean.normal (h : p.Clean) : p.normal.Clean := by
  intro part hpart
  exact h part ((mem_of_mem_foldl (mem_reverse.mp hpart)).resolve_right not_mem_nil)

/-- Folded parts, last one first: names, and below them the steps up that nothing is left to fold with. -/
def IsFolded (absolute : Bool) (folded : List (List Char)) : Prop :=
  ∃ names ups, folded = names ++ replicate ups parent ∧ (∀ name ∈ names, name ≠ parent) ∧ (absolute = true → ups = 0)

theorem IsFolded.fold (h : IsFolded absolute folded) (part : List Char) : IsFolded absolute (fold absolute folded part) := by
  obtain ⟨names, ups, rfl, hnames, hups⟩ := h
  unfold Path.fold
  by_cases hpart : part = parent
  · rw [if_pos hpart]
    cases names with
    | cons name names =>
      rw [cons_append]
      dsimp only
      rw [if_neg (hnames name (mem_cons_self ..))]
      exact ⟨names, ups, rfl, fun x hx => hnames x (mem_cons_of_mem _ hx), hups⟩
    | nil =>
      rw [nil_append, hpart]
      cases ups with
      | zero =>
        dsimp only [replicate]
        split
        next habsolute => exact ⟨[], 0, rfl, nofun, fun _ => rfl⟩
        next habsolute => exact ⟨[], 1, rfl, nofun, fun h => absurd h habsolute⟩
      | succ ups =>
        refine ⟨[], ups + 2, ?_, nofun, fun h => nomatch hups h⟩
        rw [replicate_succ]
        dsimp only
        rw [if_pos rfl]
        rfl
  · rw [if_neg hpart]
    refine ⟨part :: names, ups, rfl, fun x hx => ?_, hups⟩
    obtain rfl | hx := mem_cons.mp hx
    · exact hpart
    · exact hnames x hx

theorem isFolded_foldl (h : IsFolded absolute folded) (parts : List (List Char)) :
    IsFolded absolute (parts.foldl (fold absolute) folded) := by
  induction parts generalizing folded with
  | nil => exact h
  | cons part rest ih => exact ih (h.fold part)

theorem foldl_replicate (ups below : Nat) :
    (replicate ups parent).foldl (fold false) (replicate below parent) = replicate (ups + below) parent := by
  induction ups generalizing below with
  | zero => rw [Nat.zero_add, replicate_zero, foldl_nil]
  | succ ups ih =>
    have hstep : fold false (replicate below parent) parent = replicate (below + 1) parent := by
      cases below <;> rfl
    rw [replicate_succ, foldl_cons, hstep, ih, Nat.add_right_comm, Nat.add_assoc]

theorem foldl_names {names : List (List Char)} (hnames : ∀ name ∈ names, name ≠ parent) (folded : List (List Char)) :
    names.foldl (fold absolute) folded = names.reverse ++ folded := by
  induction names generalizing folded with
  | nil => rfl
  | cons name rest ih =>
    have hstep : fold absolute folded name = name :: folded := if_neg (hnames name (mem_cons_self ..))
    rw [foldl_cons, hstep, ih fun x hx => hnames x (mem_cons_of_mem _ hx), reverse_cons,
      append_assoc, singleton_append]

theorem foldl_reverse (h : IsFolded absolute folded) : folded.reverse.foldl (fold absolute) [] = folded := by
  obtain ⟨names, ups, rfl, hnames, hups⟩ := h
  have hbelow : (replicate ups parent).foldl (fold absolute) [] = replicate ups parent := by
    cases absolute with
    | true =>
      rw [hups rfl]
      rfl
    | false => exact foldl_replicate ups 0
  rw [reverse_append, reverse_replicate, foldl_append, hbelow,
    foldl_names fun name hname => hnames name (mem_reverse.mp hname), reverse_reverse]

theorem isFolded_parts (p : Path) : IsFolded p.absolute (p.parts.foldl (fold p.absolute) []) :=
  isFolded_foldl ⟨[], 0, rfl, nofun, fun _ => rfl⟩ p.parts

theorem normal_normal (p : Path) : p.normal.normal = p.normal := by
  unfold normal
  rw [foldl_reverse p.isFolded_parts]

theorem foldl_normal (parts folded : List (List Char)) :
    (parts.foldl (fold false) []).reverse.foldl (fold absolute) folded = parts.foldl (fold absolute) folded := by
  induction parts using reverseRecOn with
  | nil => rfl
  | append_singleton parts part ih =>
    simp only [foldl_append, foldl_cons, foldl_nil, ← ih]
    generalize parts.foldl (fold false) [] = alone
    by_cases hkept : fold false alone part = part :: alone
    · rw [hkept, reverse_cons, foldl_append, foldl_cons, foldl_nil]
    · -- A name and the step up behind it leave nothing, whatever they are folded behind.
      unfold fold at hkept
      split at hkept
      next hpart =>
        cases alone with
        | nil => exact absurd rfl hkept
        | cons last rest =>
          have hlast : last ≠ parent := fun h => hkept (if_pos h)
          have hdrop : fold false (last :: rest) parent = rest := by simp [fold, hlast]
          have hundo (below : List (List Char)) : fold absolute (fold absolute below last) parent = below := by
            simp [fold, hlast]
          rw [hpart, hdrop, reverse_cons, foldl_append, foldl_cons, foldl_nil, hundo]
      next => exact absurd rfl hkept

theorem normalize_toString (h : p.Clean) : normalize p.normal.toString = p.normal.toString := by
  rw [normalize, ofString_toString h.normal, normal_normal]

theorem normalize_resolve (including target : String) :
    normalize (resolve including target) = resolve including target :=
  normalize_toString ((clean_ofString including).folder.append (clean_ofString target))

theorem normal_append (p q : Path) : (p.append q.normal).normal = (p.append q).normal := by
  obtain ⟨absolute, parts⟩ := q
  cases absolute with
  | true => exact normal_normal _
  | false =>
    have hfold : (p.parts ++ (parts.foldl (fold false) []).reverse).foldl (fold p.absolute) [] =
        (p.parts ++ parts).foldl (fold p.absolute) [] := by
      rw [foldl_append, foldl_append, foldl_normal]
    exact congrArg (fun folded : List (List Char) => Path.mk p.absolute folded.reverse) hfold

theorem ofString_normalize (text : String) : ofString (normalize text) = (ofString text).normal :=
  ofString_toString (clean_ofString text).normal

theorem resolve_normalize (including target : String) :
    resolve including (normalize target) = resolve including target := by
  rw [resolve, ofString_normalize, normal_append, resolve]

theorem resolve_congr (including : String) {t t' : String} (h : normalize t = normalize t') :
    resolve including t = resolve including t' := by
  rw [← resolve_normalize, h, resolve_normalize]

/-- **A path has one normal form, and it decides what a target means.** Normal forms and the meanings of targets are normal,
the steps up in a normal form stand in front, behind a root there are none, and a target means what its normal form means.
So two spellings of a target open the same documents, under whatever spelling those are stored, and both are refused where
the document is open already. -/
theorem resolve_canonical (including target : String) :
    normalize (normalize target) = normalize target ∧
    (∃ ups names, (ofString (normalize target)).parts = replicate ups parent ++ names ∧ parent ∉ names ∧
      ((ofString (normalize target)).absolute = true → ups = 0)) ∧
    normalize (resolve including target) = resolve including target ∧
    resolve including (normalize target) = resolve including target ∧
    ∀ other, normalize other = normalize target →
      (∀ store : Store, (store.openInclude (resolve including other) other).toOption =
        (store.openInclude (resolve including target) target).toOption) ∧
      (∀ (store : Store) (contents : String), store.insert other contents = store.insert target contents) ∧
      ∀ (c : Settings) (s : Session) (span : Span), resolve s.currentFile target ∈ s.openFiles →
        Session.openInclude c s other span = s.report [s.includeDiagnostic .circularInclude span] := by
  refine ⟨normalize_toString (clean_ofString target), ?_, normalize_resolve .., resolve_normalize .., fun other h => ⟨?_, ?_, ?_⟩⟩
  · rw [ofString_normalize]
    obtain ⟨names, ups, hparts, hnames, hups⟩ := (ofString target).isFolded_parts
    refine ⟨ups, names.reverse, ?_, fun hmem => hnames _ (mem_reverse.mp hmem) rfl, hups⟩
    rw [normal, hparts, reverse_append, reverse_replicate]
  · intro store
    rw [resolve_congr including h]
    unfold Store.openInclude
    split
    · rfl
    · split <;> rfl
  · intro store contents
    rw [Store.insert, Store.insert, h]
  · intro c s span hopen
    rw [← resolve_congr _ h] at hopen
    rw [Session.openInclude, if_pos (contains_iff_mem.mpr hopen)]

theorem resolve_canonical_spellings : normalize "x//../lib/./a.lua/" = normalize "lib/a.lua" ∧
    ∀ store : Store, (store.openInclude (resolve "../carts/game.p8" "x//../lib/./a.lua/") "x//../lib/./a.lua/").toOption =
      (store.openInclude (resolve "../carts/game.p8" "lib/a.lua") "lib/a.lua").toOption := by
  have hsame : normalize "x//../lib/./a.lua/" = normalize "lib/a.lua" := by decide +kernel
  exact ⟨hsame, ((resolve_canonical "../carts/game.p8" "lib/a.lua").2.2.2.2 _ hsame).1⟩

end Path

end CartLua
