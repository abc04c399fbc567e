import CartLua.Proofs.Flaws
import Mathlib.Algebra.Order.Group.Multiset
import Mathlib.Tactic.Abel
/-!
# What control flow will find

Control flow is kept while the tree is read: gotos wait for their labels and are kept with a block until a statement
follows. What will be found wrong with them is settled by what stands behind the place. Together with what has been
found it is conserved: every step adds to the sum what is wrong with the part of the tree it passes, and nothing else.
-/

namespace CartLua

open List Bool

open Flaws (labelIn? landing?)

/-! ### Labels among statements -/

variable {s : Stmt}

namespace Flaws

variable {name : String} {rest : List Stmt}

theorem labelIn?_append (name : String) (xs ys : List Stmt) :
    labelIn? name (xs ++ ys) = (labelIn? name xs).or (labelIn? name ys) := by
  simp [labelIn?, find?_append]

theorem labelIn?_of_not_label (h : s.label? = none) : labelIn? name [s] = none := by
  simp [labelIn?, h]

theorem labelIn?_label (name : String) (id : Identifier) (span : Span) :
    labelIn? name [.label id span] = if id.name == name then some id else none := by
  simp [labelIn?, Stmt.label?, find?_singleton]

theorem landing?_cons_of_none (h : labelIn? name [s] = none) :
    landing? name (s :: rest) = (landing? name rest).map (Prod.map (s :: ·) id) := by
  rw [landing?, if_neg (by simp [h])]

theorem landing?_cons_of_some (h : (labelIn? name [s]).isSome = true) :
    landing? name (s :: rest) = some ([], rest) := by
  rw [landing?, if_pos h]

theorem locals_cons (s : Stmt) (rest : List Stmt) : locals (s :: rest) = s.locals ++ locals rest := by
  simp [locals]

end Flaws

/-! ### Levels -/

/-- An open block, as control flow knows it and as it stands in the tree. -/
structure Level where
  scope : FlowScope
  frame : Frame

/-- What will be found wrong with a waiting goto. -/
def PendingGoto.fate (g : PendingGoto) : List Level → List Diagnostic
  | [] => [{ fault := .labelNotVisible g.target, span := g.span }]
  | level :: outer =>
    if g.reach < outer.length + 1 then g.fate outer
    else
      match landing? g.target level.frame.after with
      | none => g.fate outer
      | some (skipped, behind) =>
        Flaws.jump g.target g.span (level.scope.locals.drop (g.seen (outer.length + 1)) ++ Flaws.locals skipped) behind

/-- What will be found wrong with a goto that is kept with the block at `depth`. -/
def Level.verdict (level : Level) (depth : Nat) (g : PendingGoto) : List Diagnostic :=
  Flaws.jump g.target g.span (level.scope.locals.drop (g.seen depth)) level.frame.after

/-- What will be found wrong with the gotos that are kept with blocks. -/
def verdicts : List Level → List Diagnostic
  | [] => []
  | level :: outer => level.scope.deferred.flatMap (level.verdict (outer.length + 1)) ++ verdicts outer

/-- The gotos see a block at `depth` as it is. -/
structure Level.Fits (level : Level) (depth : Nat) (pending : List PendingGoto) : Prop where
  labels : ∀ name, level.scope.labels.lookup name =
    (labelIn? name level.frame.before).map (·.span.start.line)
  isLoop : level.scope.isLoop = level.frame.isLoop
  deferred : ∀ g ∈ level.scope.deferred, g.seen depth < level.scope.locals.length
  /-- A goto that waits and sees the block has found no label in it. -/
  waiting : ∀ g ∈ pending, depth ≤ g.reach →
    labelIn? g.target level.frame.before = none ∧ g.seen depth ≤ level.scope.locals.length

def AllFit (pending : List PendingGoto) : List Level → Prop
  | [] => True
  | level :: outer => level.Fits (outer.length + 1) pending ∧ AllFit pending outer

namespace Flow

/-- Control flow stands inside these blocks. -/
structure Stands (f : Flow) (levels : List Level) : Prop where
  scopes : f.scopes = levels.map Level.scope
  reach : ∀ g ∈ f.pending, 0 < g.reach ∧ g.reach ≤ levels.length
  fit : AllFit f.pending levels

/-- The goto that starts to wait when it is read here. -/
def waiting (f : Flow) (id : Identifier) : PendingGoto :=
  { target := id.name, span := id.span, reach := f.depth, localCounts := f.scopes.reverse.map (·.locals.length) }

def debt (f : Flow) (levels : List Level) : Multiset Diagnostic :=
  ↑(f.pending.flatMap (·.fate levels)) + ↑(verdicts levels)

variable {levels : List Level}

theorem Stands.depth_eq {f : Flow} (h : f.Stands levels) : f.depth = levels.length := by
  rw [depth, h.scopes, length_map]

end Flow

namespace Track

/-- From `t` to `t'` the blocks go from `levels` to `levels'`, and what is found or will be found grows by `found`. -/
structure Conserves (t t' : Track) (levels levels' : List Level) (found : List Diagnostic) : Prop where
  outer : t'.outer = t.outer
  allowVararg : t'.flow.allowVararg = t.flow.allowVararg
  stands : t'.flow.Stands levels'
  sum : (t'.errors : Multiset Diagnostic) + t'.flow.debt levels' = t.errors + t.flow.debt levels + found

namespace Conserves

variable {t t' t'' : Track} {levels levels' levels'' : List Level} {found found' : List Diagnostic}

theorem refl (h : t.flow.Stands levels) : Conserves t t levels levels [] :=
  ⟨rfl, rfl, h, by simp⟩

theorem trans (h : Conserves t t' levels levels' found) (h' : Conserves t' t'' levels' levels'' found') :
    Conserves t t'' levels levels'' (found ++ found') := by
  refine ⟨h'.outer.trans h.outer, h'.allowVararg.trans h.allowVararg, h'.stands, ?_⟩
  rw [h'.sum, h.sum, ← Multiset.coe_add]
  abel

theorem as (h : Conserves t t' levels levels' found) (heq : found = found') :
    Conserves t t' levels levels' found' := heq ▸ h

end Conserves

end Track

/-! ### Steps -/

variable {pending : List PendingGoto}

theorem AllFit.mono {pending' : List PendingGoto} (h : AllFit pending levels)
    (hmono : ∀ g ∈ pending', ∃ g₀ ∈ pending, g.target = g₀.target ∧ g.localCounts = g₀.localCounts ∧ g.reach ≤ g₀.reach) :
    AllFit pending' levels := by
  induction levels with
  | nil => exact trivial
  | cons level outer ih =>
    refine ⟨⟨h.1.labels, h.1.isLoop, h.1.deferred, fun g hg hreach => ?_⟩, ih h.2⟩
    obtain ⟨g₀, hg₀, htarget, hcounts, hle⟩ := hmono g hg
    obtain ⟨hnone, hseen⟩ := h.1.waiting g₀ hg₀ (hreach.trans hle)
    rw [htarget, PendingGoto.seen, hcounts]
    exact ⟨hnone, hseen⟩

theorem AllFit.any_eq {p : FlowScope → Bool} {q : Frame → Bool} (h : AllFit pending levels)
    (heq : ∀ (level : Level) (depth : Nat), level.Fits depth pending → p level.scope = q level.frame) :
    (levels.map Level.scope).any p = (levels.map Level.frame).any q := by
  induction levels with
  | nil => rfl
  | cons level outer ih =>
    simp only [map_cons, any_cons]
    rw [heq level _ h.1, ih h.2]

theorem PendingGoto.fate_cons_of_lt {g : PendingGoto} {level : Level} {outer : List Level} (h : g.reach ≤ outer.length) :
    g.fate (level :: outer) = g.fate outer := by
  rw [fate, if_pos (by omega)]

namespace Track

variable {t : Track} {levels : List Level}

theorem conserves_openBlock (h : t.flow.Stands levels) (isLoop : Bool) (body : List Stmt) :
    Conserves t (t.follow (.openBlock isLoop)) levels (⟨{ isLoop }, ⟨[], body, isLoop⟩⟩ :: levels) [] := by
  have hfate : ∀ g ∈ t.flow.pending, g.fate (⟨{ isLoop }, ⟨[], body, isLoop⟩⟩ :: levels) = g.fate levels :=
    fun g hg => PendingGoto.fate_cons_of_lt (h.reach g hg).2
  refine ⟨rfl, rfl, ⟨?_, ?_, ?_, h.fit⟩, ?_⟩
  · simp [Track.follow, Flow.pushScope, h.scopes]
  · intro g hg
    obtain ⟨hpos, hle⟩ := h.reach g hg
    exact ⟨hpos, hle.trans (Nat.le_succ _)⟩
  · refine ⟨fun name => by simp [labelIn?], rfl, fun g hg => absurd hg not_mem_nil, fun g hg hle => ?_⟩
    have := (h.reach g hg).2
    omega
  · simp only [Track.follow, Flow.debt, Flow.pushScope, verdicts, flatMap_congr hfate]
    simp

/-! ### The end of a block -/

end Track

namespace PendingGoto

variable {g g' : PendingGoto} {level : Level} {levels outer : List Level}

/-- Only how the reach compares with the depths of the blocks matters. -/
theorem fate_congr (htarget : g.target = g'.target) (hspan : g.span = g'.span)
    (hcounts : g.localCounts = g'.localCounts) (hreach : ∀ depth ≤ levels.length, g.reach < depth ↔ g'.reach < depth) :
    g.fate levels = g'.fate levels := by
  induction levels with
  | nil => rw [fate, fate, htarget, hspan]
  | cons level outer ih =>
    have houter := ih fun depth hdepth => hreach depth (hdepth.trans (Nat.le_succ _))
    have hhere := hreach (outer.length + 1) (by simp)
    simp only [fate, houter, hhere, htarget, hspan, seen, hcounts]

theorem fate_closed (hafter : level.frame.after = []) (hpos : 0 < g.reach) (hle : g.reach ≤ outer.length + 1) :
    g.fate (level :: outer) =
      if Flow.isLost (outer.length + 1) g then [{ fault := .labelNotVisible g.target, span := g.span }]
      else (Flow.leave (outer.length + 1) g).fate outer := by
  rw [fate, hafter, landing?]
  by_cases hreach : g.reach < outer.length + 1
  · rw [if_pos hreach, if_neg (by simp [Flow.isLost]; omega), Flow.leave, if_pos hreach]
  · rw [if_neg hreach, Flow.leave, if_neg hreach]
    cases outer with
    | nil =>
      have hlost : Flow.isLost 1 g = true := by
        simp only [Flow.isLost, and_eq_true, decide_eq_true_eq, beq_iff_eq]
        simp only [length_nil] at hle
        omega
      exact (if_pos hlost).symm
    | cons next outer =>
      simp only [length_cons] at hle hreach ⊢
      have hkept : ¬Flow.isLost (outer.length + 1 + 1) g = true := by
        simp only [Flow.isLost, and_eq_true, decide_eq_true_eq, beq_iff_eq]
        omega
      rw [if_neg hkept]
      refine fate_congr rfl rfl rfl fun depth hdepth => ?_
      simp only [length_cons] at hdepth
      simp only
      omega

end PendingGoto

namespace Track

variable {t : Track} {level : Level} {levels outer : List Level} {rest : List Stmt}

theorem fates_closed (hafter : level.frame.after = [])
    (hreach : ∀ g ∈ pending, 0 < g.reach ∧ g.reach ≤ outer.length + 1) :
    (((pending.filter (Flow.isLost (outer.length + 1))).map fun g =>
        { fault := .labelNotVisible g.target, span := g.span } : List Diagnostic) : Multiset Diagnostic) +
      ↑(((pending.filter (!Flow.isLost (outer.length + 1) ·)).map (Flow.leave (outer.length + 1))).flatMap
        (·.fate outer)) =
      ↑(pending.flatMap (·.fate (level :: outer))) := by
  induction pending with
  | nil => rfl
  | cons g rest ih =>
    obtain ⟨hpos, hle⟩ := hreach g (mem_cons_self ..)
    have ih := ih fun g hg => hreach g (mem_cons_of_mem _ hg)
    rw [flatMap_cons, PendingGoto.fate_closed hafter hpos hle, ← Multiset.coe_add, ← ih]
    cases hlost : Flow.isLost (outer.length + 1) g with
    | true =>
      simp only [hlost, filter_cons, Bool.not_true, Bool.false_eq_true, if_true, if_false, map_cons,
        ← Multiset.cons_coe, ← Multiset.singleton_add]
      abel
    | false =>
      simp only [hlost, filter_cons, Bool.not_false, Bool.false_eq_true, if_true, if_false, map_cons,
        flatMap_cons, ← Multiset.coe_add]
      abel

theorem conserves_closeBlock (h : t.flow.Stands (level :: outer)) (hafter : level.frame.after = []) :
    Conserves t (t.follow .closeBlock) (level :: outer) outer [] := by
  have hdepth : t.flow.depth = outer.length + 1 := h.depth_eq
  refine ⟨rfl, rfl, ⟨?_, ?_, ?_⟩, ?_⟩
  · simp [Track.follow, Flow.popScope, h.scopes]
  · intro g hg
    simp only [Track.follow, Flow.popScope, hdepth, mem_map, mem_filter] at hg
    obtain ⟨g, ⟨hg, hkept⟩, rfl⟩ := hg
    obtain ⟨hpos, hle⟩ := h.reach g hg
    simp only [length_cons] at hle
    simp only [Flow.isLost, not_eq_true', and_eq_false_iff, decide_eq_false_iff_not, beq_eq_false_iff_ne] at hkept
    unfold Flow.leave
    split
    · omega
    · show 0 < g.reach - 1 ∧ g.reach - 1 ≤ outer.length
      omega
  · refine h.fit.2.mono fun g hg => ?_
    simp only [Track.follow, Flow.popScope, hdepth, mem_map, mem_filter] at hg
    obtain ⟨g, ⟨hg, -⟩, rfl⟩ := hg
    refine ⟨g, hg, ?_⟩
    unfold Flow.leave
    split <;> simp
  · have hverdicts : level.scope.deferred.flatMap (level.verdict (outer.length + 1)) = [] := by
      refine flatMap_eq_nil_iff.mpr fun g _ => ?_
      unfold Level.verdict Flaws.jump
      rw [hafter]
      split <;> rfl
    simp only [Track.follow, Flow.debt, Flow.popScope, hdepth, verdicts, hverdicts, nil_append,
      ← fates_closed hafter h.reach, ← Multiset.coe_add, Multiset.coe_nil]
    abel

/-! ### Statements -/

theorem conserves_proper (h : t.flow.Stands (level :: outer)) (hs : s.isProper = true)
    (hafter : level.frame.after = s :: rest) :
    Conserves t (t.follow (.proper s)) (level :: outer)
      ({ level with scope := { level.scope with deferred := [] } } :: outer) [] := by
  have hdepth : t.flow.depth = outer.length + 1 := h.depth_eq
  have hscopes : t.flow.scopes = level.scope :: outer.map Level.scope := h.scopes
  have hverdicts : level.scope.deferred.flatMap (level.verdict (outer.length + 1)) = level.scope.deferred.map fun g =>
      { fault := .jumpIntoLocal g.target ((level.scope.locals[g.seen (outer.length + 1)]?).getD "?"), span := g.span } := by
    rw [map_eq_flatMap]
    refine flatMap_congr fun g hg => ?_
    have hseen := h.fit.1.deferred g hg
    rw [Level.verdict, hafter, drop_eq_getElem_cons hseen, getElem?_eq_getElem hseen]
    simp [Flaws.jump, hs]
  have hfate : ∀ g : PendingGoto,
      g.fate ({ level with scope := { level.scope with deferred := [] } } :: outer) = g.fate (level :: outer) :=
    fun _ => rfl
  simp only [Track.follow, Flow.raiseDeferred, hscopes, hdepth]
  refine ⟨rfl, rfl, ⟨rfl, h.reach, ?_, h.fit.2⟩, ?_⟩
  · exact ⟨h.fit.1.labels, h.fit.1.isLoop, fun g hg => absurd hg not_mem_nil, h.fit.1.waiting⟩
  · simp only [Flow.debt, verdicts, hverdicts, hfate, flatMap_nil, nil_append, ← Multiset.coe_add,
      Multiset.coe_nil]
    abel

theorem along_addLocals {scope : FlowScope} {rest : List FlowScope} (h : t.flow.scopes = scope :: rest)
    (names : List String) : t.along (names.map .addLocal) =
      { t with flow := { t.flow with scopes := { scope with locals := scope.locals ++ names } :: rest } } := by
  induction names generalizing t scope with
  | nil => simp [← h]
  | cons name names ih =>
    have hstep : (t.follow (.addLocal name)).flow.scopes = { scope with locals := scope.locals ++ [name] } :: rest := by
      simp [Track.follow, Flow.addLocal, h]
    rw [map_cons, Track.along_cons, ih hstep]
    simp [Track.follow, Flow.addLocal, h]

theorem conserves_addLocals (h : t.flow.Stands (level :: outer)) (hdeferred : level.scope.deferred = [])
    (hreach : ∀ g ∈ t.flow.pending, g.reach ≤ outer.length) (names : List String) :
    Conserves t (t.along (names.map .addLocal)) (level :: outer)
      ({ level with scope := { level.scope with locals := level.scope.locals ++ names } } :: outer) [] := by
  have hscopes : t.flow.scopes = level.scope :: outer.map Level.scope := h.scopes
  rw [along_addLocals hscopes]
  refine ⟨rfl, rfl, ⟨rfl, h.reach, ?_, h.fit.2⟩, ?_⟩
  · refine ⟨h.fit.1.labels, h.fit.1.isLoop, fun g hg => ?_, fun g hg hle => ?_⟩
    · exact absurd (hdeferred ▸ hg) not_mem_nil
    · have := hreach g hg
      omega
  · have hfate : ∀ g ∈ t.flow.pending, ∀ level, g.fate (level :: outer) = g.fate outer :=
      fun g hg _ => PendingGoto.fate_cons_of_lt (hreach g hg)
    simp only [Flow.debt, verdicts, hdeferred, flatMap_congr fun g hg => hfate g hg _]
    simp

theorem conserves_pass (h : t.flow.Stands (level :: outer)) (hafter : level.frame.after = s :: rest)
    (hlabel : s.label? = none) (hdeferred : s.isProper = true → level.scope.deferred = []) :
    Conserves t (t.along (s.locals.map .addLocal)) (level :: outer)
      (⟨{ level.scope with locals := level.scope.locals ++ s.locals }, { level.frame with after := rest }⟩ :: outer) [] := by
  have hscopes : t.flow.scopes = level.scope :: outer.map Level.scope := h.scopes
  rw [along_addLocals hscopes]
  refine ⟨rfl, rfl, ⟨rfl, h.reach, ?_, h.fit.2⟩, ?_⟩
  · refine ⟨h.fit.1.labels, h.fit.1.isLoop, fun g hg => ?_, fun g hg hle => ?_⟩
    · have := h.fit.1.deferred g hg
      simp only [length_append]
      omega
    · obtain ⟨hnone, hseen⟩ := h.fit.1.waiting g hg hle
      simp only [length_append]
      exact ⟨hnone, by omega⟩
  · have hfate : ∀ g ∈ t.flow.pending, g.fate (⟨{ level.scope with locals := level.scope.locals ++ s.locals },
        { level.frame with after := rest }⟩ :: outer) = g.fate (level :: outer) := by
      intro g hg
      rw [PendingGoto.fate, PendingGoto.fate, hafter]
      split
      · rfl
      next hreach =>
        obtain ⟨-, hseen⟩ := h.fit.1.waiting g hg (by omega)
        rw [Flaws.landing?_cons_of_none (Flaws.labelIn?_of_not_label hlabel)]
        cases landing? g.target rest with
        | none => rfl
        | some =>
          simp [Flaws.locals_cons, drop_append_of_le_length hseen]
    have hverdicts : ∀ g ∈ level.scope.deferred, Level.verdict ⟨{ level.scope with locals := level.scope.locals ++ s.locals },
        { level.frame with after := rest }⟩ (outer.length + 1) g = level.verdict (outer.length + 1) g := by
      intro g hg
      cases hs : s.isProper with
      | true => exact absurd (hdeferred hs ▸ hg) not_mem_nil
      | false => simp [Level.verdict, Stmt.locals_of_isProper hs, hafter, Flaws.jump, hs]
    simp only [Flow.debt, verdicts, flatMap_congr hfate, flatMap_congr hverdicts]
    simp

theorem conserves_leave (h : t.flow.Stands (level :: outer)) (hlabel : s.label? = none) :
    Conserves t t (level :: outer)
      ({ level with frame := { level.frame with before := level.frame.before ++ [s] } } :: outer) [] := by
  have hbefore : ∀ name, labelIn? name (level.frame.before ++ [s]) = labelIn? name level.frame.before := by
    intro name
    rw [Flaws.labelIn?_append, Flaws.labelIn?_of_not_label hlabel, Option.or_none]
  refine ⟨rfl, rfl, ⟨h.scopes, h.reach, ?_, h.fit.2⟩, ?_⟩
  · refine ⟨fun name => ?_, h.fit.1.isLoop, h.fit.1.deferred, fun g hg hle => ?_⟩
    · rw [hbefore]
      exact h.fit.1.labels name
    · rw [hbefore]
      exact h.fit.1.waiting g hg hle
  · exact (add_zero _).symm

theorem conserves_report (h : t.flow.Stands levels) (ds : List Diagnostic) :
    Conserves t { t with errors := t.errors ++ ds } levels levels ds := by
  refine ⟨rfl, rfl, h, ?_⟩
  rw [← Multiset.coe_add]
  abel

theorem conserves_breakLoop (h : t.flow.Stands levels) (ts : List Token) (newlines : Bool) (span : Span) :
    Conserves t (t.follow (.breakLoop (nearText ts newlines span.stop) span)) levels levels
      (Flaws.breakLoop ts newlines (levels.map Level.frame) span) := by
  have hloop : t.flow.inLoop = (levels.map Level.frame).any (·.isLoop) := by
    rw [Flow.inLoop, h.scopes]
    exact h.fit.any_eq fun _ _ hlevel => hlevel.isLoop
  rw [Track.follow, Flaws.breakLoop, hloop]
  split
  · exact .refl h
  · exact conserves_report h _

/-! ### Gotos -/

theorem isSome_lookup (labels : List (String × Nat)) (name : String) :
    (labels.lookup name).isSome = labels.any (·.1 == name) := by
  induction labels with
  | nil => rfl
  | cons pair rest ih =>
    rw [lookup_cons, any_cons, ← ih, beq_comm]
    cases pair.1 == name <;> rfl

end Track

namespace PendingGoto

variable {g : PendingGoto} {levels : List Level}

/-- The goto has just been read: it has seen all locals so far. -/
def Fresh (g : PendingGoto) : List Level → Prop
  | [] => True
  | level :: outer => g.seen (outer.length + 1) = level.scope.locals.length ∧ g.Fresh outer

theorem fresh_of_localCounts {more : List Nat}
    (h : g.localCounts = (levels.map Level.scope).reverse.map (·.locals.length) ++ more) : g.Fresh levels := by
  induction levels generalizing more with
  | nil => exact trivial
  | cons level outer ih =>
    simp only [map_cons, reverse_cons, map_append, append_assoc] at h
    refine ⟨?_, ih h⟩
    rw [seen, h, Nat.add_sub_cancel, getElem?_append_right (by simp)]
    simp

theorem Fresh.fate_eq (h : g.Fresh levels) (hreach : levels.length ≤ g.reach) :
    g.fate levels = Flaws.forward (levels.map Level.frame) g.target g.span := by
  induction levels with
  | nil => rfl
  | cons level outer ih =>
    simp only [length_cons] at hreach
    rw [fate, if_neg (by omega), ih h.2 (by omega)]
    unfold Flaws.forward
    rw [map_cons, findSome?_cons]
    cases landing? g.target level.frame.after with
    | none => rfl
    | some => simp [h.1]

theorem Fresh.allFit (h : g.Fresh levels) (hfit : AllFit pending levels)
    (hnone : ∀ level ∈ levels, labelIn? g.target level.frame.before = none) :
    AllFit (pending ++ [g]) levels := by
  induction levels with
  | nil => exact trivial
  | cons level outer ih =>
    refine ⟨⟨hfit.1.labels, hfit.1.isLoop, hfit.1.deferred, fun g' hg' hle => ?_⟩,
      ih h.2 hfit.2 fun level hlevel => hnone level (mem_cons_of_mem _ hlevel)⟩
    rcases mem_append.mp hg' with hg' | hg'
    · exact hfit.1.waiting g' hg' hle
    · rw [mem_singleton.mp hg']
      exact ⟨hnone level (mem_cons_self ..), h.1.le⟩

end PendingGoto

namespace Track

variable {t : Track} {level : Level} {levels outer : List Level}

theorem conserves_goto (h : t.flow.Stands levels) (hne : levels ≠ []) (id : Identifier) :
    Conserves t (t.follow (.goto id)) levels levels (Flaws.goto (levels.map Level.frame) id) := by
  have hknown : t.flow.scopes.any (·.labels.any (·.1 == id.name)) =
      (levels.map Level.frame).any fun frame => (labelIn? id.name frame.before).isSome := by
    rw [h.scopes]
    refine h.fit.any_eq fun level _ hlevel => ?_
    rw [← isSome_lookup, hlevel.labels, Option.isSome_map]
  rw [Track.follow, Flow.addGoto, Flaws.goto, hknown]
  split
  · exact .refl h
  next hnone =>
    have hfresh : (t.flow.waiting id).Fresh levels := by
      refine PendingGoto.fresh_of_localCounts ((append_nil _).trans ?_).symm
      rw [Flow.waiting, h.scopes]
    have hbefore : ∀ level ∈ levels, labelIn? id.name level.frame.before = none := by
      intro level hlevel
      simpa using fun hsome => hnone (any_eq_true.mpr ⟨level.frame, mem_map_of_mem hlevel, hsome⟩)
    refine ⟨rfl, rfl, ⟨h.scopes, fun g hg => ?_, hfresh.allFit h.fit hbefore⟩, ?_⟩
    · rcases mem_append.mp hg with hg | hg
      · exact h.reach g hg
      · rw [mem_singleton.mp hg]
        exact ⟨h.depth_eq ▸ length_pos_of_ne_nil hne, h.depth_eq.le⟩
    · have hfate := hfresh.fate_eq h.depth_eq.ge
      show (t.errors : Multiset Diagnostic) +
        (↑((t.flow.pending ++ [t.flow.waiting id]).flatMap (·.fate levels)) + ↑(verdicts levels)) = _
      rw [flatMap_append, flatMap_singleton, hfate, ← Multiset.coe_add, Flow.debt]
      simp only [Flow.waiting]
      abel

end Track

/-! ### Labels -/

/-- Behind a label of a block. -/
structure Level.PassesLabel (level level' : Level) (id : Identifier) : Prop where
  after : ∃ span, level.frame.after = .label id span :: level'.frame.after
  locals : level'.scope.locals = level.scope.locals

namespace Level.PassesLabel

variable {level level' : Level} {outer : List Level} {id : Identifier} {g : PendingGoto}

theorem fate_eq (h : level.PassesLabel level' id) (hother : outer.length + 1 ≤ g.reach → g.target ≠ id.name) :
    g.fate (level' :: outer) = g.fate (level :: outer) := by
  obtain ⟨span, hafter⟩ := h.after
  rw [PendingGoto.fate, PendingGoto.fate, h.locals, hafter]
  split
  · rfl
  next hreach =>
    have hname : labelIn? g.target [.label id span] = none := by
      rw [Flaws.labelIn?_label, if_neg]
      simpa using (hother (by omega)).symm
    rw [Flaws.landing?_cons_of_none hname]
    cases landing? g.target level'.frame.after with
    | none => rfl
    | some => simp [Flaws.locals_cons, Stmt.locals]

theorem fate_eq_verdict (h : level.PassesLabel level' id) (hreach : outer.length + 1 ≤ g.reach)
    (hname : g.target = id.name) : g.fate (level :: outer) = level'.verdict (outer.length + 1) g := by
  obtain ⟨span, hafter⟩ := h.after
  have hfound : (labelIn? g.target [.label id span]).isSome = true := by
    rw [Flaws.labelIn?_label, if_pos (by simp [hname])]
    rfl
  rw [PendingGoto.fate, if_neg (by omega), hafter, Flaws.landing?_cons_of_some hfound, Level.verdict, h.locals]
  simp [Flaws.locals]

theorem verdict_eq (h : level.PassesLabel level' id) (depth : Nat) (g : PendingGoto) :
    level'.verdict depth g = level.verdict depth g := by
  obtain ⟨span, hafter⟩ := h.after
  simp [Level.verdict, h.locals, hafter, Flaws.jump, Stmt.isProper]

theorem fates_eq (h : level.PassesLabel level' id) (pending : List PendingGoto) :
    ((((pending.filter fun g => outer.length + 1 ≤ g.reach && g.target == id.name).filter fun g =>
        g.seen (outer.length + 1) < level.scope.locals.length).flatMap
          (level'.verdict (outer.length + 1)) : List Diagnostic) : Multiset Diagnostic) +
      ↑((pending.filter fun g => !(outer.length + 1 ≤ g.reach && g.target == id.name)).flatMap
        (·.fate (level' :: outer))) =
      ↑(pending.flatMap (·.fate (level :: outer))) := by
  induction pending with
  | nil => rfl
  | cons g more ih =>
    rw [flatMap_cons, ← Multiset.coe_add, ← ih]
    cases hwaits : decide (outer.length + 1 ≤ g.reach) && g.target == id.name with
    | false =>
      have hfate : g.fate (level' :: outer) = g.fate (level :: outer) := h.fate_eq (by simpa using hwaits)
      simp only [hwaits, filter_cons, Bool.not_false, Bool.false_eq_true, if_true, if_false, flatMap_cons,
        hfate, ← Multiset.coe_add]
      abel
    | true =>
      obtain ⟨hreach, hname⟩ : outer.length + 1 ≤ g.reach ∧ g.target = id.name := by simpa using hwaits
      have hfate := h.fate_eq_verdict hreach hname
      simp only [hwaits, filter_cons, Bool.not_true, Bool.false_eq_true, if_true, if_false, hfate]
      split
      next =>
        simp only [flatMap_cons, ← Multiset.coe_add]
        abel
      next hskips =>
        have hnothing : level'.verdict (outer.length + 1) g = [] := by
          rw [Level.verdict, h.locals, drop_eq_nil_of_le (by simpa using hskips)]
          rfl
        rw [hnothing, Multiset.coe_nil, zero_add]

end Level.PassesLabel

/-- A block at `depth` once a new label of it has been read. -/
def FlowScope.withLabel (scope : FlowScope) (id : Identifier) (depth : Nat) (pending : List PendingGoto) : FlowScope :=
  { scope with
    labels := (id.name, id.span.start.line) :: scope.labels
    deferred := scope.deferred ++
      (pending.filter fun g => depth ≤ g.reach && g.target == id.name).filter fun g => g.seen depth < scope.locals.length }

theorem Flaws.labelIn?_snoc (before : List Stmt) (id : Identifier) (span : Span) (name : String) :
    labelIn? name (before ++ [.label id span]) =
      (labelIn? name before).or (if id.name == name then some id else none) := by
  rw [Flaws.labelIn?_append, Flaws.labelIn?_label]

namespace Track

section

variable {t : Track} {outer : List Level} {scope : FlowScope} {before rest : List Stmt} {isLoop : Bool} {id : Identifier}
  {span : Span} (h : t.flow.Stands (⟨scope, ⟨before, .label id span :: rest, isLoop⟩⟩ :: outer))

include h

theorem conserves_label_again {first : Identifier} (hfirst : labelIn? id.name before = some first) :
    Conserves t (t.follow (.label id)) (⟨scope, ⟨before, .label id span :: rest, isLoop⟩⟩ :: outer)
      (⟨scope, ⟨before ++ [.label id span], rest, isLoop⟩⟩ :: outer)
      [{ fault := .labelDefined id.name first.span.start.line, span := id.span }] := by
  have hscopes : t.flow.scopes = scope :: outer.map Level.scope := h.scopes
  have hlookup : scope.labels.lookup id.name = some first.span.start.line := by
    rw [h.fit.1.labels id.name, hfirst]
    rfl
  have hfollow : t.follow (.label id) = { t with
      errors := t.errors ++ [{ fault := .labelDefined id.name first.span.start.line, span := id.span }] } := by
    simp [Track.follow, Flow.addLabel, hscopes, hlookup]
  have hother : ∀ g ∈ t.flow.pending, outer.length + 1 ≤ g.reach → g.target ≠ id.name := by
    intro g hg hle htarget
    have hnone := (h.fit.1.waiting g hg hle).1
    rw [htarget, hfirst] at hnone
    cases hnone
  have hpasses : Level.PassesLabel ⟨scope, ⟨before, .label id span :: rest, isLoop⟩⟩
      ⟨scope, ⟨before ++ [.label id span], rest, isLoop⟩⟩ id := ⟨⟨span, rfl⟩, rfl⟩
  rw [hfollow]
  refine ⟨rfl, rfl, ⟨h.scopes, h.reach, ?_, h.fit.2⟩, ?_⟩
  · refine ⟨fun name => ?_, h.fit.1.isLoop, h.fit.1.deferred, fun g hg hle => ?_⟩
    · rw [h.fit.1.labels name, Flaws.labelIn?_snoc]
      by_cases hname : id.name = name
      · rw [← hname, hfirst]
        rfl
      · rw [if_neg (by simpa using hname), Option.or_none]
    · obtain ⟨hnone, hseen⟩ := h.fit.1.waiting g hg hle
      rw [Flaws.labelIn?_snoc, hnone, if_neg (by simpa using (hother g hg hle).symm)]
      exact ⟨rfl, hseen⟩
  · simp only [Flow.debt, verdicts, flatMap_congr fun g hg => hpasses.fate_eq (hother g hg),
      flatMap_congr fun g _ => hpasses.verdict_eq (outer.length + 1) g, ← Multiset.coe_add]
    abel

theorem conserves_label_new (hnone : labelIn? id.name before = none) :
    Conserves t (t.follow (.label id)) (⟨scope, ⟨before, .label id span :: rest, isLoop⟩⟩ :: outer)
      (⟨scope.withLabel id (outer.length + 1) t.flow.pending, ⟨before ++ [.label id span], rest, isLoop⟩⟩ :: outer)
      [] := by
  have hdepth : t.flow.depth = outer.length + 1 := h.depth_eq
  have hscopes : t.flow.scopes = scope :: outer.map Level.scope := h.scopes
  have hlookup : scope.labels.lookup id.name = none := by
    rw [h.fit.1.labels id.name, hnone]
    rfl
  have hpasses : Level.PassesLabel ⟨scope, ⟨before, .label id span :: rest, isLoop⟩⟩
      ⟨scope.withLabel id (outer.length + 1) t.flow.pending, ⟨before ++ [.label id span], rest, isLoop⟩⟩ id :=
    ⟨⟨span, rfl⟩, rfl⟩
  simp only [Track.follow, Flow.addLabel, hscopes, hlookup, hdepth]
  refine ⟨rfl, rfl, ⟨rfl, ?_, ?_, ?_⟩, ?_⟩
  · exact fun g hg => h.reach g (mem_filter.mp hg).1
  · refine ⟨fun name => ?_, h.fit.1.isLoop, fun g hg => ?_, fun g hg hle => ?_⟩
    · rw [Flaws.labelIn?_snoc, FlowScope.withLabel, lookup_cons, h.fit.1.labels name]
      by_cases hname : id.name = name
      · rw [← hname, hnone, beq_self_eq_true, if_pos rfl]
        rfl
      · rw [if_neg (by simpa using hname), Option.or_none, beq_false_of_ne (Ne.symm hname)]
    · rcases mem_append.mp hg with hg | hg
      · exact h.fit.1.deferred g hg
      · exact of_decide_eq_true (mem_filter.mp hg).2
    · obtain ⟨hg, hother⟩ := mem_filter.mp hg
      obtain ⟨hbefore, hseen⟩ := h.fit.1.waiting g hg hle
      rw [Flaws.labelIn?_snoc, hbefore, if_neg]
      · exact ⟨rfl, hseen⟩
      · intro hname
        rw [beq_comm] at hname
        simp [hle, hname] at hother
  · exact h.fit.2.mono fun g hg => ⟨g, (mem_filter.mp hg).1, rfl, rfl, le_rfl⟩
  · have hverdicts : (scope.withLabel id (outer.length + 1) t.flow.pending).deferred = scope.deferred ++ _ := rfl
    simp only [Flow.debt, verdicts, hverdicts, flatMap_append, ← hpasses.fates_eq t.flow.pending,
      flatMap_congr fun g (_ : g ∈ scope.deferred) => hpasses.verdict_eq (outer.length + 1) g, ← Multiset.coe_add]
    abel

theorem conserves_label : ∃ scope',
    Conserves t (t.follow (.label id)) (⟨scope, ⟨before, .label id span :: rest, isLoop⟩⟩ :: outer)
      (⟨scope', ⟨before ++ [.label id span], rest, isLoop⟩⟩ :: outer)
      (Flaws.label (⟨before, rest, isLoop⟩ :: outer.map Level.frame) id) := by
  cases hfirst : labelIn? id.name before with
  | none => exact ⟨_, (conserves_label_new h hfirst).as (by simp [Flaws.label, hfirst])⟩
  | some => exact ⟨_, (conserves_label_again h hfirst).as (by simp [Flaws.label, hfirst])⟩

end

end Track

end CartLua
