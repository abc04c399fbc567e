import CartLua.Proofs.Stream
/-!
# Control flow in range

A goto that waits for its label can see a block at least, and no more blocks than are open. For each block it can see it
has saved a number of locals, which the block has still. Blocks close, are given up and opened anew meanwhile, at the same
depths: that is why a goto sees less and less, and never a block opened behind it.
-/

namespace CartLua

open List

namespace Flow

/-- The saved numbers of locals agree with the open blocks. A block stands at the depth `below.length + 1` when `below` are
the blocks around it. -/
structure InRange (f : Flow) : Prop where
  reach_pos : ∀ g ∈ f.pending, 1 ≤ g.reach
  reach_le : ∀ g ∈ f.pending, g.reach ≤ f.depth
  counted : ∀ g ∈ f.pending, g.reach ≤ g.localCounts.length
  seen_le : ∀ scope below, scope :: below <:+ f.scopes → ∀ g ∈ f.pending, below.length < g.reach →
    g.seen (below.length + 1) ≤ scope.locals.length
  deferred : ∀ scope below, scope :: below <:+ f.scopes → ∀ g ∈ scope.deferred,
    below.length < g.localCounts.length ∧ g.seen (below.length + 1) < scope.locals.length

namespace InRange

variable {f f' : Flow} {scope scope' : FlowScope} {rest : List FlowScope}

/-- Blocks are closed, and the gotos that still wait see no more than before. -/
theorem shrink (h : f.InRange) (hscopes : f'.scopes <:+ f.scopes)
    (hpending : ∀ g' ∈ f'.pending, 1 ≤ g'.reach ∧ g'.reach ≤ f'.depth ∧
      ∃ g ∈ f.pending, g'.localCounts = g.localCounts ∧ g'.reach ≤ g.reach) : f'.InRange where
  reach_pos g' hg' := (hpending g' hg').1
  reach_le g' hg' := (hpending g' hg').2.1
  counted g' hg' := by
    obtain ⟨-, -, g, hg, hcounts, hle⟩ := hpending g' hg'
    rw [hcounts]
    exact hle.trans (h.counted g hg)
  seen_le scope below hsuffix g' hg' hlt := by
    obtain ⟨-, -, g, hg, hcounts, hle⟩ := hpending g' hg'
    unfold PendingGoto.seen
    rw [hcounts]
    exact h.seen_le scope below (hsuffix.trans hscopes) g hg (hlt.trans_le hle)
  deferred scope below hsuffix := h.deferred scope below (hsuffix.trans hscopes)

/-- The innermost block changes: it has more locals, and gotos settled in it may be deferred. -/
theorem change (h : f.InRange) (hscopes : f.scopes = scope :: rest) (hscopes' : f'.scopes = scope' :: rest)
    (hpending : f'.pending ⊆ f.pending) (hlocals : scope.locals.length ≤ scope'.locals.length)
    (hdeferred : ∀ g ∈ scope'.deferred, g ∈ scope.deferred ∨
      rest.length < g.localCounts.length ∧ g.seen (rest.length + 1) < scope'.locals.length) : f'.InRange := by
  have hdepth : f'.depth = f.depth := by simp [depth, hscopes, hscopes']
  have htop : scope :: rest <:+ f.scopes := hscopes ▸ suffix_rfl
  have hrest : rest <:+ f.scopes := hscopes ▸ suffix_cons scope rest
  refine ⟨fun g hg => h.reach_pos g (hpending hg), fun g hg => hdepth ▸ h.reach_le g (hpending hg),
    fun g hg => h.counted g (hpending hg), fun inner below hsuffix g hg hlt => ?_, fun inner below hsuffix g hg => ?_⟩
  · obtain heq | hbelow := suffix_cons_iff.mp (hscopes' ▸ hsuffix)
    · obtain ⟨rfl, rfl⟩ := cons.inj heq
      exact (h.seen_le scope below htop g (hpending hg) hlt).trans hlocals
    · exact h.seen_le inner below (hbelow.trans hrest) g (hpending hg) hlt
  · obtain heq | hbelow := suffix_cons_iff.mp (hscopes' ▸ hsuffix)
    · obtain ⟨rfl, rfl⟩ := cons.inj heq
      obtain hold | hnew := hdeferred g hg
      · have hseen := h.deferred scope below htop g hold
        exact ⟨hseen.1, hseen.2.trans_le hlocals⟩
      · exact hnew
    · exact h.deferred inner below (hbelow.trans hrest) g hg

theorem empty (allowVararg : Bool) : InRange { allowVararg } :=
  ⟨forall_mem_nil _, forall_mem_nil _, forall_mem_nil _, fun _ _ _ => forall_mem_nil _,
    fun _ _ hsuffix => absurd (suffix_nil.mp hsuffix) (cons_ne_nil _ _)⟩

theorem pushScope (h : f.InRange) (isLoop : Bool) : (f.pushScope isLoop).InRange where
  reach_pos := h.reach_pos
  reach_le g hg := (h.reach_le g hg).trans (Nat.le_succ _)
  counted := h.counted
  seen_le scope below hsuffix g hg hlt := by
    obtain heq | hbelow := suffix_cons_iff.mp hsuffix
    · obtain ⟨-, rfl⟩ := cons.inj heq
      exact absurd hlt (Nat.not_lt.mpr (h.reach_le g hg))
    · exact h.seen_le scope below hbelow g hg hlt
  deferred scope below hsuffix g hg := by
    obtain heq | hbelow := suffix_cons_iff.mp hsuffix
    · obtain ⟨rfl, -⟩ := cons.inj heq
      exact absurd hg not_mem_nil
    · exact h.deferred scope below hbelow g hg

theorem popScope (h : f.InRange) : f.popScope.2.InRange := by
  refine h.shrink (tail_suffix _) fun g' hg' => ?_
  obtain ⟨g, hmem, rfl⟩ := mem_map.mp hg'
  obtain ⟨hg, hkept⟩ := mem_filter.mp hmem
  have hpos := h.reach_pos g hg
  have hle := h.reach_le g hg
  have hdepth : f.popScope.2.depth = f.depth - 1 := length_tail
  have hkept : g.reach < f.depth ∨ g.reach - 1 ≠ 0 := by simpa [isLost] using hkept
  rw [hdepth]
  unfold leave
  split
  next hlt => exact ⟨hpos, by omega, g, hg, rfl, le_rfl⟩
  next hlt => exact ⟨by show 1 ≤ g.reach - 1; omega, by show g.reach - 1 ≤ f.depth - 1; omega, g, hg, rfl, Nat.sub_le _ _⟩

theorem truncate (h : f.InRange) {depth : Nat} (hpos : 0 < depth) : (f.truncate depth).InRange := by
  refine h.shrink (drop_suffix _ _) fun g' hg' => ?_
  obtain ⟨g, hg, rfl⟩ := mem_map.mp hg'
  have hle := h.reach_le g hg
  have hdepth : (f.truncate depth).depth = f.depth - (f.depth - depth) := length_drop
  rw [hdepth]
  exact ⟨le_min (h.reach_pos g hg) hpos, by show min g.reach depth ≤ _; omega, g, hg, rfl, min_le_left _ _⟩

theorem addLocal (h : f.InRange) (name : String) : (f.addLocal name).InRange := by
  unfold Flow.addLocal
  split
  · exact h
  next hscopes => exact h.change hscopes rfl (Subset.refl _) (by simp) fun _ => .inl

theorem addLabel (h : f.InRange) (name : String) (span : Span) : (f.addLabel name span).2.InRange := by
  unfold Flow.addLabel
  split
  · exact h
  next scope rest hscopes =>
    split
    · exact h
    · refine h.change hscopes rfl (filter_subset_self _) le_rfl fun g hg => ?_
      obtain hold | hjump := mem_append.mp hg
      · exact .inl hold
      · obtain ⟨hfound, hlt⟩ := mem_filter.mp hjump
        obtain ⟨hg, hsees⟩ := mem_filter.mp hfound
        have hdepth : f.depth = rest.length + 1 := congrArg length hscopes
        have hreach : f.depth ≤ g.reach := of_decide_eq_true (Bool.and_eq_true_iff.mp hsees).1
        have hcounted := h.counted g hg
        rw [hdepth] at hlt hreach
        exact .inr ⟨by omega, of_decide_eq_true hlt⟩

theorem raiseDeferred (h : f.InRange) : f.raiseDeferred.2.InRange := by
  unfold Flow.raiseDeferred
  split
  · exact h
  next hscopes => exact h.change hscopes rfl (Subset.refl _) le_rfl (forall_mem_nil _)

theorem getElem?_localCounts {below : List FlowScope} (h : scope :: below <:+ f.scopes) :
    (f.scopes.reverse.map (·.locals.length))[below.length]? = some scope.locals.length := by
  obtain ⟨inner, hinner⟩ := h
  rw [← hinner, reverse_append, reverse_cons, append_assoc, getElem?_map]
  simp

theorem addGoto (h : f.InRange) (hopen : 0 < f.depth) (target : String) (span : Span) :
    (f.addGoto target span).InRange := by
  unfold Flow.addGoto
  split
  · exact h
  · have hadd {P : PendingGoto → Prop} {goto : PendingGoto} (hold : ∀ g ∈ f.pending, P g) (hnew : P goto) :
        ∀ g ∈ f.pending ++ [goto], P g := forall_mem_append.mpr ⟨hold, forall_mem_singleton.mpr hnew⟩
    refine ⟨hadd h.reach_pos hopen, hadd h.reach_le le_rfl, hadd h.counted (by simp [depth]),
      fun scope below hsuffix => hadd (h.seen_le scope below hsuffix) fun _ => ?_, h.deferred⟩
    unfold PendingGoto.seen
    rw [Nat.add_sub_cancel, getElem?_localCounts hsuffix]
    exact le_rfl

theorem leave_reach (h : f.InRange) {g : PendingGoto} (hg : g ∈ f.pending) (hreach : f.depth ≤ g.reach) :
    (leave f.depth g).reach + 1 = g.reach := by
  unfold leave
  rw [if_neg (Nat.not_lt.mpr hreach)]
  exact Nat.sub_add_cancel (h.reach_pos g hg)

theorem lt_localCounts (h : f.InRange) (hscopes : f.scopes = scope :: rest) {g : PendingGoto} (hg : g ∈ f.pending)
    (hreach : f.depth ≤ g.reach) : f.depth - 1 < g.localCounts.length := by
  have hdepth : f.depth = rest.length + 1 := congrArg length hscopes
  have hcounted := h.counted g hg
  omega

theorem deferred_lt (h : f.InRange) (hscopes : f.scopes = scope :: rest) {g : PendingGoto} (hg : g ∈ scope.deferred) :
    f.depth - 1 < g.localCounts.length ∧ g.seen f.depth < scope.locals.length := by
  have hdepth : f.depth = rest.length + 1 := congrArg length hscopes
  rw [hdepth]
  exact h.deferred scope rest (hscopes ▸ suffix_rfl) g hg

theorem local_of_raiseDeferred (h : f.InRange) (hscopes : f.scopes = scope :: rest) :
    ∀ d ∈ f.raiseDeferred.1, ∃ target, ∃ name ∈ scope.locals, d.fault = .jumpIntoLocal target name := by
  intro d hd
  unfold Flow.raiseDeferred at hd
  rw [hscopes] at hd
  obtain ⟨g, hg, rfl⟩ := mem_map.mp hd
  have hseen := (h.deferred_lt hscopes hg).2
  refine ⟨g.target, _, getElem_mem hseen, ?_⟩
  rw [getElem?_eq_getElem hseen]
  rfl

end InRange

end Flow

namespace Session

variable {c : Settings} {s t u : Session}

/-- The control flow of every function that is being read is in range. -/
def InRange (s : Session) : Prop := ∀ f ∈ s.flow :: s.outerFlows, f.InRange

theorem InRange.withFlow (h : s.InRange) {f : Flow} (hf : f.InRange) : InRange { s with flow := f } :=
  forall_mem_cons.mpr ⟨hf, fun _ hmem => h _ (mem_cons_of_mem _ hmem)⟩

theorem InRange.flow (h : s.InRange) : s.flow.InRange := h _ mem_cons_self

theorem InRange.enterFunction (h : s.InRange) : s.enterFunction.InRange := forall_mem_cons.mpr ⟨.empty false, h⟩

theorem InRange.leaveFunction (h : s.InRange) : s.leaveFunction.InRange := by
  unfold Session.leaveFunction
  split
  · exact h
  next houter => exact fun f hf => h f (mem_cons_of_mem _ (houter ▸ hf))

theorem flowsAt_suffix (height : Nat) (flow : Flow) (outers : List Flow) :
    (flowsAt height flow outers).1 :: (flowsAt height flow outers).2 <:+ flow :: outers := by
  induction outers generalizing flow with
  | nil => exact suffix_rfl
  | cons outer rest ih =>
    unfold flowsAt
    split
    · exact (ih outer).trans (suffix_cons _ _)
    · exact suffix_rfl

theorem InRange.restoreStacks (h : s.InRange) {cp : Checkpoint} (hopen : 0 < cp.flowDepth) :
    (s.restoreStacks cp).InRange := by
  have hflows := (flowsAt_suffix cp.outerFlows s.flow s.outerFlows).subset
  refine forall_mem_cons.mpr ⟨(h _ (hflows mem_cons_self)).truncate hopen, fun f hf => ?_⟩
  exact h f (hflows (mem_cons_of_mem _ hf))

/-- The session `t` is reached from `s` by acts, by way of sessions in range only. -/
inductive ReachesInRange (c : Settings) (s : Session) : Session → Prop where
  | refl (h : s.InRange) : ReachesInRange c s s
  | act {t u : Session} (before : ReachesInRange c s t) (last : Act c t u) (h : u.InRange) : ReachesInRange c s u

namespace ReachesInRange

theorem inRange (h : ReachesInRange c s t) : t.InRange := by
  cases h with
  | refl hs => exact hs
  | act _ _ ht => exact ht

theorem single (hs : s.InRange) (h : Act c s t) (ht : t.InRange) : ReachesInRange c s t := (refl hs).act h ht

theorem trans (hst : ReachesInRange c s t) (htu : ReachesInRange c t u) : ReachesInRange c s u := by
  induction htu with
  | refl => exact hst
  | act _ last h ih => exact ih.act last h

end ReachesInRange

end Session

end CartLua
