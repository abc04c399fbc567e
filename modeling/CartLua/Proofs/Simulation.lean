import CartLua.Proofs.Comparison
/-!
# Parsers that keep pace

Two runs keep pace when they take related sessions to related ones and give values that look the same, or fail alike.
This is one judgement with a rule for `bind`, a rule for loops and a lemma for each primitive parser. Beside that a run
may end openly: the first program is over, and the second run has gone on or will.
-/

namespace CartLua

open List Option

variable {t : Token}

/-- Whether the token can be passed in a run that counts. -/
def Token.isPassable (t : Token) : Bool := !t.isEof && !t.isNewline && !t.isDirective

theorem Token.isPassable_of {γ : Type} (f : TokenKind → γ) (nothing : γ) (h : f t.kind ≠ nothing)
    (heof : f .eof = nothing) (hnewline : f .newline = nothing) (hdirective : f .directive = nothing) :
    t.isPassable = true := by
  unfold isPassable isEof isNewline isDirective
  generalize t.kind = kind at h
  cases kind <;> simp_all

theorem Token.isPassable_of_is (terminal : Terminal) (h : t.is terminal = true) : t.isPassable = true := by
  have hkind : (⟨t.kind, "", default⟩ : Token).is terminal = true := by cases terminal <;> exact h
  refine isPassable_of (fun kind => (⟨kind, "", default⟩ : Token).is terminal) false (by simp [hkind]) ?_ ?_ ?_ <;>
    cases terminal <;> rfl

theorem Token.isPassable_of_isIdentifier (h : t.isIdentifier = true) : t.isPassable = true := by
  have hkind : (⟨t.kind, "", default⟩ : Token).isIdentifier = true := h
  exact isPassable_of (fun kind => (⟨kind, "", default⟩ : Token).isIdentifier) false (by simp [hkind]) rfl rfl rfl

theorem Token.isEof_of_isPassable (h : t.isPassable = true) : t.isEof = false := by
  simp only [isPassable, Bool.and_eq_true, Bool.not_eq_true'] at h
  exact h.1.1

namespace Comparison

open Session Parse

variable {α β γ δ ε : Type} {k : Comparison} {s s' t : Session} {P : Window → Prop} {V : α → β → Prop}
  {O : α → Session → Outcome β → Prop} {V' : γ → δ → Prop} {O' : γ → Session → Outcome δ → Prop} {isOpen : Prop} {terminal : Terminal}

/-- The second run gives nothing: it has no rounds left, or it has met a fault behind the end of the first program. -/
def Fails (k : Comparison) (t : Session) : Outcome β → Prop
  | .ok .. => False
  | .fault .. => k.broken ∧ k.Over t
  | .exhausted => True

/-- The outcomes of two runs agree. The values are related by `V` and the sessions are at the same point, or the first
run has ended in a way that `O` allows. -/
def Matches (k : Comparison) (V : α → β → Prop) (O : α → Session → Outcome β → Prop) : Outcome α → Outcome β → Prop
  | .ok a t, o => k.Lost t ∨ k.Fails t o ∨ (∃ b u, o = .ok b u ∧ V a b ∧ k.Related t u) ∨ O a t o
  | .fault d t, o => k.lenient ∨ o = .exhausted ∨ ∃ e u, o = .fault e u ∧ k.Blames d e ∧ k.Related t u
  | .exhausted, _ => True

/-- The end of the first program, where it may be an open end. -/
def ends (k : Comparison) (isOpen : Prop) : α → Session → Outcome β → Prop := fun _ t _ => isOpen ∧ k.Over t

/-- The two parsers keep pace from related sessions where the window of the first one is as `P` says. -/
def Sim (k : Comparison) (P : Window → Prop) (V : α → β → Prop) (O : α → Session → Outcome β → Prop) (p : Parse α)
    (q : Parse β) : Prop :=
  ∀ s s', k.Related s s' → P s.window → k.Matches V O (p.run k.first s) (q.run k.second s')

/-- The two parsers keep pace from all related sessions and never end openly. -/
abbrev Agree (k : Comparison) (V : α → β → Prop) (p : Parse α) (q : Parse β) : Prop :=
  k.Sim (fun _ => True) V (k.ends False) p q

/-- The two values look the same through `f`. -/
abbrev Same (f : α → γ) (a b : α) : Prop := f a = f b

/-- The parser keeps pace with itself, and what the two runs give looks the same through `f`. -/
abbrev Preserves (k : Comparison) (f : α → γ) (p : Parse α) : Prop := k.Agree (Same f) p p

/-- The two parsers change nothing but stacks. -/
def Idle (k : Comparison) (V : α → β → Prop) (p : Parse α) (q : Parse β) : Prop :=
  ∀ s s', k.Related s s' → ∃ a t b u, p.run k.first s = .ok a t ∧ q.run k.second s' = .ok b u ∧ V a b ∧
    s.Still t ∧ s'.Still u ∧ (k.tracked → Alike k.mask (¬k.lenient) t u)

/-- The parser gives no value at the end of the first program. -/
def Dead (k : Comparison) (p : Parse α) : Prop := ∀ s, s.Ended → ∀ a t, p.run k.first s ≠ .ok a t

/-! ### Outcomes -/

variable {p : Parse α} {q : Parse β} {f : α → Parse γ} {g : β → Parse δ} {id id' : Identifier}
  {O₂ : α → Session → Outcome β → Prop} {step step' : Parse (List α × Bool)} {q' : Option ε → Parse δ}
  {p' : Option ε → Parse γ} {a : α} {span span' : Span} {V₂ : α → β → Prop} {d e : Diagnostic}

theorem Matches.ok {b : β} (h : V a b) (hs : k.Related s s') : k.Matches V O (.ok a s) (.ok b s') :=
  .inr (.inr (.inl ⟨b, s', rfl, h, hs⟩))

theorem Matches.opens {o : Outcome β} (h : O a s o) : k.Matches V O (.ok a s) o :=
  .inr (.inr (.inr h))

theorem Lost.of_reaches {c : Settings} (h : k.Lost s) (hreach : Reaches c s t) : k.Lost t := by
  refine ⟨h.1, fun hnil => h.2 ?_⟩
  have hprefix := hreach.errors_prefix
  rw [hnil] at hprefix
  exact prefix_nil.mp hprefix

theorem Over.of_reaches {c : Settings} (h : k.Over s) (hreach : Reaches c s t) : k.Over t :=
  ⟨h.1, h.2.of_reaches hreach⟩

theorem matches_of_lost (h : k.Lost s) (p : Parse α) (o : Outcome β) : k.Matches V O (p.run k.first s) o := by
  cases hrun : p.run k.first s with
  | ok => exact .inl (h.of_reaches (reaches hrun))
  | fault => exact .inl h.1
  | exhausted => trivial

theorem matches_of_over (hopen : isOpen) (h : k.Over s) (p : Parse α) (o : Outcome β) :
    k.Matches V (k.ends isOpen) (p.run k.first s) o := by
  cases hrun : p.run k.first s with
  | ok => exact .inr (.inr (.inr ⟨hopen, h.of_reaches (reaches hrun)⟩))
  | fault => exact .inl h.1
  | exhausted => trivial

theorem matches_of_dead (hp : k.Dead p) (h : k.Over s) (o : Outcome β) :
    k.Matches V O (p.run k.first s) o := by
  cases hrun : p.run k.first s with
  | ok a t => exact absurd hrun (hp s h.2 a t)
  | fault => exact .inl h.1
  | exhausted => trivial

theorem Fails.andThen {o : Outcome β} (h : k.Fails s o) (hover : k.Over s → k.Over t) (f : β → Session → Outcome δ) :
    k.Fails t (o.andThen f) := by
  cases o with
  | ok => exact h.elim
  | fault => exact ⟨h.1, hover h.2⟩
  | exhausted => trivial

theorem matches_exhausted (o : Outcome α) : k.Matches V O o (.exhausted : Outcome β) := by
  cases o with
  | ok => exact .inr (.inl trivial)
  | fault => exact .inr (.inl rfl)
  | exhausted => trivial

theorem Matches.mono {o : Outcome α} {o' : Outcome β}
    (h : k.Matches V O o o') (hV : ∀ a b, V a b → V₂ a b) (hO : ∀ a t o, O a t o → O₂ a t o) :
    k.Matches V₂ O₂ o o' := by
  cases o with
  | ok a t =>
    obtain h | h | ⟨b, u, ho, hab, hrelated⟩ | h := h
    · exact .inl h
    · exact .inr (.inl h)
    · exact .inr (.inr (.inl ⟨b, u, ho, hV a b hab, hrelated⟩))
    · exact .inr (.inr (.inr (hO a t o' h)))
  | fault => exact h
  | exhausted => trivial

theorem Related.still {t' : Session} [k.Lawful] (h : k.Related s s') (ht : s.Still t) (hreach : Reaches k.first s t)
    (ht' : s'.Still t') (hreach' : Reaches k.second s' t') (halike : k.tracked → Alike k.mask (¬k.lenient) t t') : k.Related t t' :=
  ⟨Lawful.still h.abreast ht hreach ht' hreach', halike⟩

theorem Related.report [k.Lawful] (h : k.Related s s') {ds es : List Diagnostic}
    (hds : ∀ d ∈ ds, d.fault.isInclude = false) (hes : ∀ d ∈ es, d.fault.isInclude = false)
    (halike : ¬k.lenient → ds.map k.mask.diagnostic = es.map k.mask.diagnostic) : k.Related (s.report ds) (s'.report es) :=
  h.still (.report s hds) (.single (.report s ds)) (.report s' hes) (.single (.report s' es)) fun htracked =>
    (h.alike htracked).report halike

theorem Blames.report [k.Lawful] (hblames : k.Blames d e) (h : k.Related s s') :
    k.Related (s.report [d]) (s'.report [e]) := by
  refine h.report ?_ ?_ ?_
  · simpa using hblames.first
  · simpa using hblames.second
  · simpa using fun _ => hblames.alike

/-! ### Composition -/

theorem Matches.bind
    (h : k.Matches V O (p.run k.first s) (q.run k.second s'))
    (hopen : ∀ a t o, O a t o → k.Matches V' O' ((f a).run k.first t) (o.andThen fun b u => (g b).run k.second u))
    (hnext : ∀ a b t u, V a b → k.Related t u → p.run k.first s = .ok a t → q.run k.second s' = .ok b u →
      k.Matches V' O' ((f a).run k.first t) ((g b).run k.second u)) :
    k.Matches V' O' ((p >>= f).run k.first s) ((q >>= g).run k.second s') := by
  rw [run_bind, run_bind]
  cases hrun : p.run k.first s with
  | exhausted => trivial
  | fault =>
    rw [hrun] at h
    obtain h | h | ⟨e, u, h, hblames, hrelated⟩ := h
    · exact .inl h
    · exact .inr (.inl (by rw [h]; rfl))
    · exact .inr (.inr ⟨e, u, by rw [h]; rfl, hblames, hrelated⟩)
  | ok a t =>
    rw [hrun] at h
    obtain h | h | ⟨b, u, h, hab, hrelated⟩ | h := h
    · exact matches_of_lost h (f a) _
    · rw [Outcome.andThen_ok]
      cases hnext : (f a).run k.first t with
      | ok => exact .inr (.inl (h.andThen (fun hover => hover.of_reaches (reaches hnext)) _))
      | fault =>
        revert h
        generalize q.run k.second s' = o
        rintro h
        cases o with
        | ok => exact h.elim
        | fault => exact .inl h.2.1
        | exhausted => exact .inr (.inl rfl)
      | exhausted => trivial
    · rw [h]
      exact hnext a b t u hab hrelated hrun h
    · exact hopen a t _ h

theorem Sim.bind {Q : α → Window → Prop}
    (hp : k.Sim P V O p q)
    (hpost : ∀ {s s' a t}, k.Related s s' → P s.window → p.run k.first s = .ok a t → Q a t.window)
    (hopen : ∀ a t o, O a t o → k.Matches V' O' ((f a).run k.first t) (o.andThen fun b u => (g b).run k.second u))
    (hnext : ∀ a b, V a b → k.Sim (Q a) V' O' (f a) (g b)) : k.Sim P V' O' (p >>= f) (q >>= g) :=
  fun s s' hs hP => (hp s s' hs hP).bind hopen fun a b t u hab htu hrun _ => hnext a b hab t u htu (hpost hs hP hrun)

theorem Sim.andThen (hp : k.Sim P V (k.ends False) p q)
    (hnext : ∀ a b, V a b → k.Sim (fun _ => True) V' O' (f a) (g b)) : k.Sim P V' O' (p >>= f) (q >>= g) :=
  .bind hp (fun _ _ _ => trivial) (fun _ _ _ h => h.1.elim) hnext

theorem Sim.before {p' : Parse γ} {q' : Parse δ} (hp : k.Sim P V (k.ends False) p q)
    (hnext : k.Sim (fun _ => True) V' O' p' q') : k.Sim P V' O' (p >>= fun _ => p') (q >>= fun _ => q') :=
  hp.andThen fun _ _ _ => hnext

theorem Sim.andThen_open
    (hp : k.Sim P V (k.ends isOpen) p q) (hnext : ∀ a b, V a b → k.Sim (fun _ => True) V' (k.ends isOpen) (f a) (g b)) :
    k.Sim P V' (k.ends isOpen) (p >>= f) (q >>= g) :=
  .bind hp (fun _ _ _ => trivial) (fun a _ _ h => matches_of_over h.1 h.2 (f a) _) hnext

theorem Sim.andThen_dead
    (hp : k.Sim P V (k.ends isOpen) p q) (hdead : ∀ a, k.Dead (f a))
    (hnext : ∀ a b, V a b → k.Sim (fun _ => True) V' O' (f a) (g b)) : k.Sim P V' O' (p >>= f) (q >>= g) :=
  .bind hp (fun _ _ _ => trivial) (fun a _ _ h => matches_of_dead (hdead a) h.2 _) hnext

theorem Sim.weaken {P' : Window → Prop} (h : k.Sim P V O p q) (hP : ∀ w, P' w → P w) :
    k.Sim P' V O p q :=
  fun s s' hs hw => h s s' hs (hP _ hw)

theorem Sim.mono
    (h : k.Sim P V O p q) (hV : ∀ a b, V a b → V₂ a b) (hO : ∀ a t o, O a t o → O₂ a t o) : k.Sim P V₂ O₂ p q :=
  fun s s' hs hw => (h s s' hs hw).mono hV hO

theorem Sim.closed (h : k.Sim P V (k.ends False) p q) : k.Sim P V O p q :=
  h.mono (fun _ _ => id) fun _ _ _ h => h.1.elim

theorem Sim.pure {b : β} (h : V a b) : k.Sim P V O (pure a) (pure b) :=
  fun _ _ hs _ => .ok h hs

theorem Sim.same {f : α → γ} {a b : α} {O : α → Session → Outcome α → Prop} (h : f a = f b) :
    k.Sim P (Same f) O (Pure.pure a) (Pure.pure b) :=
  .pure h

theorem Sim.ite {c d : Prop} [Decidable c] [Decidable d] {p p' : Parse α} {q q' : Parse β} (hcd : c ↔ d)
    (hthen : c → k.Sim P V O p q) (helse : ¬c → k.Sim P V O p' q') :
    k.Sim P V O (if c then p else p') (if d then q else q') := by
  by_cases hc : c
  · rw [if_pos hc, if_pos (hcd.mp hc)]
    exact hthen hc
  · rw [if_neg hc, if_neg fun hd => hc (hcd.mpr hd)]
    exact helse hc

theorem Sim.option {f : γ → δ} {r r' : Option γ} {p : Option γ → Parse α} {q : Option γ → Parse β}
    (hr : r.map f = r'.map f) (hnone : k.Sim P V O (p none) (q none))
    (hsome : ∀ a b, f a = f b → k.Sim P V O (p (some a)) (q (some b))) : k.Sim P V O (p r) (q r') := by
  cases r with
  | none =>
    rw [map_none, eq_comm, map_eq_none_iff] at hr
    rw [hr]
    exact hnone
  | some a =>
    obtain ⟨b, rfl, hb⟩ := map_eq_some_iff.mp hr.symm
    exact hsome a b hb.symm

theorem Sim.andThen_option {f : ε → α} {p q : Parse (Option ε)}
    (h : k.Sim P (Same (Option.map f)) (k.ends False) p q) (hnone : k.Sim (fun _ => True) V' O' (p' none) (q' none))
    (hsome : ∀ a b, f a = f b → k.Sim (fun _ => True) V' O' (p' (some a)) (q' (some b))) :
    k.Sim P V' O' (p >>= p') (q >>= q') :=
  h.andThen fun _ _ hr => .option (p := p') (q := q') hr hnone hsome

theorem Sim.andThen_option_open {f : ε → α} {p q : Parse (Option ε)}
    (h : k.Sim P (Same (Option.map f)) (k.ends isOpen) p q)
    (hnone : k.Sim (fun _ => True) V' (k.ends isOpen) (p' none) (q' none))
    (hsome : ∀ a b, f a = f b → k.Sim (fun _ => True) V' (k.ends isOpen) (p' (some a)) (q' (some b))) :
    k.Sim P V' (k.ends isOpen) (p >>= p') (q >>= q') :=
  h.andThen_open fun _ _ hr => .option (p := p') (q := q') hr hnone hsome

theorem Idle.bind [k.Lawful] (hp : k.Idle V p q)
    (hnext : ∀ a b, V a b → k.Sim P V' O' (f a) (g b)) : k.Sim P V' O' (p >>= f) (q >>= g) := by
  intro s s' hs hP
  obtain ⟨a, t, b, u, hrun, hrun', hab, hst, hsu, halike⟩ := hp s s' hs
  rw [run_bind, run_bind, hrun, hrun']
  refine hnext a b hab t u (hs.still hst (reaches hrun) hsu (reaches hrun') halike) ?_
  rw [hst.window]
  exact hP

theorem Idle.before [k.Lawful] {p' : Parse γ} {q' : Parse δ} (hp : k.Idle V p q)
    (hnext : k.Sim P V' O' p' q') : k.Sim P V' O' (p >>= fun _ => p') (q >>= fun _ => q') :=
  hp.bind fun _ _ _ => hnext

theorem Idle.andThen [k.Lawful] (hp : k.Idle V p q)
    (hnext : ∀ a b, V a b → k.Idle V' (f a) (g b)) : k.Idle V' (p >>= f) (q >>= g) := by
  intro s s' hs
  obtain ⟨a, t, b, u, hrun, hrun', hab, hst, hsu, halike⟩ := hp s s' hs
  obtain ⟨x, v, y, w, hnextRun, hnextRun', hxy, htv, huw, halike'⟩ := hnext a b hab t u (hs.still hst (reaches hrun) hsu (reaches hrun') halike)
  refine ⟨x, v, y, w, ?_, ?_, hxy, hst.trans htv, hsu.trans huw, halike'⟩
  · rw [run_bind, hrun]
    exact hnextRun
  · rw [run_bind, hrun']
    exact hnextRun'

theorem Idle.pure {b : β} (h : V a b) : k.Idle V (pure a) (pure b) :=
  fun s s' hs => ⟨a, s, b, s', rfl, rfl, h, .refl s, .refl s', hs.alike⟩

theorem Dead.bind (hp : k.Dead p) (f : α → Parse β) : k.Dead (p >>= f) := by
  intro s hs b u hrun
  obtain ⟨a, t, ha, -⟩ := run_bind_eq_ok.mp hrun
  exact hp s hs a t ha

theorem Dead.behind (p : Parse α) {f : α → Parse β} (hf : ∀ a, k.Dead (f a)) : k.Dead (p >>= f) := by
  intro s hs b u hrun
  obtain ⟨a, t, ha, hnext⟩ := run_bind_eq_ok.mp hrun
  exact hf a t (hs.of_reaches (reaches ha)) b u hnext

/-! ### Loops -/

theorem sim_collectRounds {f : α → γ}
    (hstep : k.Sim (fun _ => True) (fun a b => a.1.map f = b.1.map f ∧ a.2 = b.2) (k.ends isOpen) step step')
    (rounds rounds' : Nat) : k.Sim (fun _ => True) (Same (map f)) (k.ends isOpen)
      (collectRounds step rounds) (collectRounds step' rounds') := by
  induction rounds generalizing rounds' with
  | zero => exact fun _ _ _ _ => trivial
  | succ rounds ih =>
    cases rounds' with
    | zero =>
      intro s s' _ _
      exact matches_exhausted _
    | succ rounds' =>
      unfold collectRounds
      refine hstep.andThen_open ?_
      rintro ⟨found, more⟩ ⟨found', more'⟩ ⟨hfound, rfl⟩
      refine .ite Iff.rfl (fun _ => ?_) fun _ => .pure hfound
      refine (ih rounds').andThen_open fun rest rest' hrest => .same ?_
      rw [map_append, map_append, hfound, hrest]

theorem sim_collect {f : α → γ}
    (hstep : k.Sim (fun _ => True) (fun a b => a.1.map f = b.1.map f ∧ a.2 = b.2) (k.ends isOpen) step step') :
    k.Sim (fun _ => True) (Same (map f)) (k.ends isOpen) (collect step) (collect step') :=
  fun s s' hs hP => sim_collectRounds hstep k.first.rounds k.second.rounds s s' hs hP

theorem sim_many {f : α → γ} {step step' : Parse (Option α)}
    (hstep : k.Sim (fun _ => True) (Same (Option.map f)) (k.ends isOpen) step step') :
    k.Sim (fun _ => True) (Same (map f)) (k.ends isOpen) (many step) (many step') := by
  refine sim_collect (hstep.andThen_option_open ?_ fun a b hab => ?_)
  · exact .pure ⟨rfl, rfl⟩
  · exact .pure ⟨by rw [map_singleton, map_singleton, hab], rfl⟩

/-! ### Looking at tokens -/

theorem meets_token [k.Lawful] (h : k.Related s s') : k.Meets s.window.token s'.window.token := by
  obtain h | ⟨hover, hstop⟩ := Lawful.token h.abreast
  · exact .inl h
  · exact .inr ⟨hover.1, hover.2.token, hstop⟩

theorem Sim.token [k.Lawful] {f : Token → Parse α} {g : Token → Parse β}
    (hnext : ∀ t t', k.Meets t t' → k.Sim (fun w => w.token = t ∧ P w) V O (f t) (g t')) :
    k.Sim P V O (Parse.token >>= f) (Parse.token >>= g) :=
  fun s s' hs hP => hnext _ _ (meets_token hs) s s' hs ⟨rfl, hP⟩

theorem Sim.previous [k.Lawful] {f : Token → Parse α} {g : Token → Parse β}
    (hnext : ∀ t t' : Token, t.isSymbol .rightParen = t'.isSymbol .rightParen → k.Sim P V O (f t) (g t')) :
    k.Sim P V O (Parse.previous >>= f) (Parse.previous >>= g) :=
  fun s s' hs hP => hnext _ _ (Lawful.previous hs.abreast).1 s s' hs hP

theorem Sim.of_dead (hdead : k.Dead p)
    (h : ∀ s s', k.Related s s' → P s.window → ¬k.Over s → k.Matches V O (p.run k.first s) (q.run k.second s')) :
    k.Sim P V O p q := by
  intro s s' hs hP
  by_cases hover : k.Over s
  · exact matches_of_dead hdead hover _
  · exact h s s' hs hP hover

/-! ### Failing -/

theorem matches_fault (hs : k.Related s s') (h : ¬k.lenient → k.Blames d e) :
    k.Matches V O (.fault d s) (.fault e s') := by
  by_cases hlenient : k.lenient
  · exact .inl hlenient
  · exact .inr (.inr ⟨e, s', rfl, h hlenient, hs⟩)

theorem akin_token [k.Lawful] (hs : k.Related s s') (h : ¬k.lenient) :
    k.mask.token s.window.token = k.mask.token s'.window.token :=
  (Lawful.token hs.abreast).resolve_right fun hover => h hover.1.1

theorem blames_failAt [k.Lawful] {f : Token → Fault} (hs : k.Related s s') (h : ¬k.lenient)
    (hfault : ∀ t t' : Token, t.text = t'.text → k.mask.fault (f t) = k.mask.fault (f t'))
    (hinclude : ∀ t, (f t).isInclude = false) :
    k.Blames { fault := f s.window.token, span := s.window.token.span }
      { fault := f s'.window.token, span := s'.window.token.span } := by
  obtain ⟨-, htext, hspan⟩ := Mask.token_inj (akin_token hs h)
  refine ⟨?_, hinclude _, hinclude _⟩
  simp only [Mask.diagnostic, hspan]
  rw [hfault _ _ htext]

theorem sim_missingWord [k.Lawful] (word : String) : k.Sim P V O (missingWord word) (missingWord word) := by
  intro s s' hs _
  exact matches_fault hs fun h => blames_failAt (f := fun t => .wordExpected word t.text) hs h
    (fun t t' ht => by rw [ht]) fun _ => rfl

theorem sim_missing [k.Lawful] (part : String) : k.Sim P V O (missing part) (missing part) := by
  intro s s' hs _
  exact matches_fault hs fun h => blames_failAt (f := fun t => .partExpected part t.text) hs h
    (fun t t' ht => by rw [ht]) fun _ => rfl

theorem sim_tooManyLevels [k.Lawful] : k.Sim P V O tooManyLevels tooManyLevels := by
  intro s s' hs _
  exact matches_fault hs fun h => blames_failAt (f := fun _ => .tooManyLevels) hs h (fun _ _ _ => rfl) fun _ => rfl

theorem blames_unexpectedToken [k.Lawful] (hs : k.Related s s') (h : ¬k.lenient) :
    k.Blames s.unexpectedToken s'.unexpectedToken := by
  obtain ⟨hkind, htext, hspan⟩ := Mask.token_inj (akin_token hs h)
  have heof : s.window.token.isEof = s'.window.token.isEof := by
    have hmask : ∀ kind, (⟨k.mask.kind kind, "", default⟩ : Token).isEof = (⟨kind, "", default⟩ : Token).isEof := by
      intro kind
      cases kind <;> rfl
    exact (hmask s.window.token.kind).symm.trans ((congrArg (fun x => (⟨x, "", default⟩ : Token).isEof) hkind).trans
      (hmask s'.window.token.kind))
  have hdescribe : s.window.token.kind.describe = s'.window.token.kind.describe := by
    have hmask : ∀ kind, (k.mask.kind kind).describe = kind.describe := by
      intro kind
      cases kind <;> rfl
    rw [← hmask, ← hmask s'.window.token.kind, hkind]
  have hfault : s.unexpectedToken.fault = s'.unexpectedToken.fault := by
    simp only [unexpectedToken, heof, hdescribe, htext, Lawful.near h hs.abreast]
  refine ⟨?_, ?_, ?_⟩
  · simp only [Mask.diagnostic, hfault]
    simp only [unexpectedToken, hspan]
  all_goals
    unfold unexpectedToken
    dsimp only
    split <;> rfl

theorem sim_unexpected [k.Lawful] : k.Sim P V O unexpected unexpected :=
  fun _ _ hs _ => matches_fault hs (blames_unexpectedToken hs)

/-! ### Moving over tokens -/

theorem rel_lexical {r : Option Diagnostic} (h : ∀ d, r = some d → d.fault.isLexical = true) :
    Option.Rel k.Blames r r := by
  cases r with
  | none => exact .none
  | some d =>
    have hfault := Fault.isInclude_of_isLexical (h d rfl)
    exact .some ⟨rfl, hfault, hfault⟩

theorem alike_resume {m : Mask} {counted : Prop} (h : Alike m counted s s') (w w' : Window) :
    Alike m counted (s.resume w) (s'.resume w') :=
  ⟨h.markers, h.flow, h.outerFlows, h.scopes, h.globals, h.reported⟩

theorem matches_advance (hs : k.Related s s')
    (h : k.Moves s.window.next.1 s'.window.next.1 (s.resume s.window.next.2) (s'.resume s'.window.next.2))
    {O : Unit → Session → Outcome Unit → Prop} :
    k.Matches (fun _ _ => True) O (advance.run k.first s) (advance.run k.second s') := by
  have halike : k.tracked → Alike k.mask (¬k.lenient) (s.resume s.window.next.2) (s'.resume s'.window.next.2) :=
    fun h => alike_resume (hs.alike h) _ _
  rw [run_advance, run_advance]
  obtain ⟨hlenient, hfault⟩ | ⟨hrel, habreast⟩ := h
  · cases hnext : s.window.next.1 with
    | none => exact absurd hnext hfault
    | some => exact .inl hlenient
  · revert hrel
    generalize s.window.next.1 = r, s'.window.next.1 = r'
    rintro (hblames | _)
    · exact .inr (.inr ⟨_, _, rfl, hblames, habreast, halike⟩)
    · exact .inr (.inr (.inl ⟨(), _, rfl, trivial, habreast, halike⟩))

theorem matches_advance_broken (hbroken : k.broken) (hover : k.Over (s.resume s.window.next.2))
    (hfault : s'.window.next.1 ≠ none) {O : Unit → Session → Outcome Unit → Prop} :
    k.Matches (fun _ _ => True) O (advance.run k.first s) (advance.run k.second s') := by
  obtain ⟨d, hd⟩ := ne_none_iff_exists'.mp hfault
  rw [run_advance, run_advance, hd]
  cases s.window.next.1 with
  | none => exact .inr (.inl ⟨hbroken, hover⟩)
  | some => exact .inl hover.1

theorem sim_advance [k.Lawful] : k.Sim (fun w => w.token.isPassable = true) (fun _ _ => True) (k.ends False) advance advance := by
  intro s s' hs hpass
  simp only [Token.isPassable, Bool.and_eq_true, Bool.not_eq_true'] at hpass
  obtain hmoves | ⟨hnewline, -⟩ | ⟨hbroken, hover, hfault⟩ := Lawful.advance hs.abreast hpass.1.1 fun _ => hpass.2
  · exact matches_advance hs hmoves
  · rw [hpass.1.2] at hnewline
    cases hnewline
  · exact matches_advance_broken hbroken hover hfault

theorem sim_advance_of [k.Lawful] {t : Token} (hpass : t.isPassable = true) :
    k.Sim (fun w => w.token = t ∧ P w) (fun _ _ => True) (k.ends False) advance advance :=
  sim_advance.weaken fun _ hw => by rw [hw.1]; exact hpass

theorem sim_advance_newline [k.Lawful] : k.Sim (fun w => w.token.isEof = false ∧ w.token.isDirective = false)
    (fun _ _ => True) (k.ends True) advance advance := by
  intro s s' hs htoken
  obtain hmoves | ⟨-, hover⟩ | ⟨hbroken, hover, hfault⟩ := Lawful.advance hs.abreast htoken.1 fun _ => htoken.2
  · exact matches_advance hs hmoves
  · rw [run_advance]
    cases s.window.next.1 with
    | none => exact .inr (.inr (.inr ⟨trivial, hover⟩))
    | some => exact .inl hover.1
  · exact matches_advance_broken hbroken hover hfault

theorem matches_setNewlines [k.Lawful] {shown : Bool} (hs : k.Related s s')
    (hmode : ¬k.Over s ∨ (¬k.lineless ∧ (shown = true ∧ s.window.newlines = true ∨ shown = false ∧ k.followed)))
    (hnext : ∀ t u, k.Related t u → (setNewlines shown).run k.first s = .ok () t →
      (setNewlines shown).run k.second s' = .ok () u → k.Matches V O (p.run k.first t) (q.run k.second u)) :
    k.Matches V O ((setNewlines shown >>= fun _ => p).run k.first s) ((setNewlines shown >>= fun _ => q).run k.second s') := by
  rw [run_bind, run_bind, run_setNewlines, run_setNewlines]
  have hinclude : ∀ w : Window, ∀ d ∈ (w.setNewlines shown).1.toList, d.fault.isInclude = false :=
    fun w d hd => Fault.isInclude_of_isLexical (Window.isLexical_of_setNewlines (mem_toList.mp hd))
  have hresume : k.Abreast (s.resume (s.window.setNewlines shown).2) (s'.resume (s'.window.setNewlines shown).2) →
      k.Related (s.resume (s.window.setNewlines shown).2) (s'.resume (s'.window.setNewlines shown).2) :=
    fun habreast => ⟨habreast, fun h => alike_resume (hs.alike h) _ _⟩
  obtain (⟨hlenient, hfault⟩ | ⟨hrel, habreast⟩) | ⟨hlenient, -, -, habreast⟩ := Lawful.setNewlines shown hs.abreast hmode
  · refine matches_of_lost ⟨hlenient, ?_⟩ p _
    obtain ⟨d, hd⟩ := ne_none_iff_exists'.mp hfault
    simp [hd, resume, Session.report]
  · have hreport : (s.window.setNewlines shown).1.toList.map k.mask.diagnostic =
        (s'.window.setNewlines shown).1.toList.map k.mask.diagnostic := by
      revert hrel
      generalize (s.window.setNewlines shown).1 = r, (s'.window.setNewlines shown).1 = r'
      rintro (hblames | _)
      · simp [hblames.alike]
      · rfl
    exact hnext _ _ ((hresume habreast).report (hinclude _) (hinclude _) fun _ => hreport) rfl rfl
  · exact hnext _ _ ((hresume habreast).report (hinclude _) (hinclude _) fun h => absurd hlenient h) rfl rfl

theorem matches_newlines [k.Lawful] {f : Bool → Parse α} {g : Bool → Parse β} (hs : k.Related s s') (hover : ¬k.Over s)
    (hnext : k.Matches V O ((f s.window.newlines).run k.first s) ((g s.window.newlines).run k.second s')) :
    k.Matches V O ((newlines >>= f).run k.first s) ((newlines >>= g).run k.second s') := by
  rw [run_bind, run_bind, run_newlines, run_newlines, ← (Lawful.newlines hs.abreast).resolve_right fun h => hover h.1]
  exact hnext

theorem agree_consume [k.Lawful] (h : terminal ≠ .symbol .semicolon) :
    k.Agree (· = ·) (consume terminal) (consume terminal) := by
  unfold consume
  refine .token fun t t' ht => ?_
  refine .ite (by rw [ht.is h]) (fun hthis => ?_) fun _ => .pure rfl
  exact (sim_advance_of (Token.isPassable_of_is _ hthis)).andThen fun _ _ _ => .pure rfl

theorem Sim.iteConsume [k.Lawful] {p p' : Parse α} {q q' : Parse β} (h : terminal ≠ .symbol .semicolon)
    (hthen : k.Sim (fun _ => True) V O p q) (helse : k.Sim (fun _ => True) V O p' q') :
    k.Sim P V O (do if ← consume terminal then p else p') (do if ← consume terminal then q else q') := by
  refine ((agree_consume h).weaken fun _ _ => trivial).andThen ?_
  rintro found _ rfl
  exact .ite Iff.rfl (fun _ => hthen) fun _ => helse

theorem agree_expect [k.Lawful] (h : terminal ≠ .symbol .semicolon) :
    k.Agree (fun _ _ => True) (expect terminal) (expect terminal) := by
  unfold expect
  exact .iteConsume h (.pure trivial) (sim_missingWord _)

theorem Sim.expect [k.Lawful] (h : terminal ≠ .symbol .semicolon) (hnext : k.Sim (fun _ => True) V O p q) :
    k.Sim P V O (expect terminal >>= fun _ => p) (expect terminal >>= fun _ => q) :=
  ((agree_expect h).weaken fun _ _ => trivial).before hnext

theorem dead_expect (terminal : Terminal) : k.Dead (expect terminal) := by
  intro s hs a t hrun
  have hthis : s.window.token.is terminal = false := by
    have hkind : s.window.token.kind = .eof := by
      have heof := hs.token
      unfold Token.isEof at heof
      split at heof <;> simp_all
    cases terminal <;> simp [Token.is, Token.isSymbol, Token.isKeyword, hkind]
  simp [expect, consume, hthis] at hrun

theorem agree_openBracket [k.Lawful] {bracket : Symbol} (h : bracket ≠ .semicolon) :
    k.Agree (· = ·) (openBracket bracket) (openBracket bracket) := by
  unfold openBracket
  refine .of_dead (.behind _ fun _ => .behind _ fun _ => (dead_expect _).bind _) fun s s' hs _ hover => ?_
  refine matches_newlines hs hover (matches_setNewlines hs (.inl hover) fun t u htu _ _ => ?_)
  refine Sim.andThen (agree_expect ?_) (fun _ _ _ => .pure rfl) t u htu trivial
  exact fun heq => h (Terminal.symbol.inj heq)

theorem agree_closeBracket [k.Lawful] {bracket : Terminal} (h : bracket ≠ .symbol .semicolon) (outer : Bool) :
    k.Agree (fun _ _ => True) (closeBracket bracket outer) (closeBracket bracket outer) := by
  unfold closeBracket
  refine .of_dead (.behind _ fun _ => dead_expect _) fun s s' hs _ hover => ?_
  exact matches_setNewlines hs (.inl hover) fun t u htu _ _ => agree_expect h t u htu trivial

theorem dead_closeBracket (bracket : Terminal) (outer : Bool) : k.Dead (closeBracket bracket outer) :=
  .behind _ fun _ => dead_expect _

theorem agree_identifier [k.Lawful] : k.Preserves k.mask.name identifier := by
  unfold identifier
  refine .token fun t t' ht => ?_
  refine .ite (by rw [ht.isIdentifier]) (fun hthis => ?_) fun _ => sim_missing _
  have hpass := Token.isPassable_of_isIdentifier hthis
  refine (sim_advance_of hpass).andThen fun _ _ _ => .same ?_
  obtain ⟨-, htext, hspan⟩ := Mask.token_inj (ht.akin (Token.isEof_of_isPassable hpass))
  simp only [Mask.name, htext, hspan]

theorem matches_consume_semicolon [k.Lawful] (hs : k.Related s s') (hover : ¬k.Over s) :
    k.Matches (· = ·) (k.ends False) ((consume Symbol.semicolon).run k.first s)
      ((consume Symbol.semicolon).run k.second s') := by
  have htoken := (Lawful.token hs.abreast).resolve_right fun h => hover h.1
  have hthis : s.window.token.is Symbol.semicolon = s'.window.token.is Symbol.semicolon := by
    have hmask : ∀ kind, (⟨k.mask.kind kind, "", default⟩ : Token).isSymbol .semicolon =
        (⟨kind, "", default⟩ : Token).isSymbol .semicolon := by
      intro kind
      cases kind <;> rfl
    refine (hmask s.window.token.kind).symm.trans (Eq.trans ?_ (hmask s'.window.token.kind))
    rw [(Mask.token_inj htoken).1]
  unfold consume
  rw [run_bind, run_bind, run_token, run_token, Outcome.andThen_ok, Outcome.andThen_ok, ← hthis]
  split
  next hpass =>
    exact sim_advance.andThen (fun _ _ _ => .pure rfl) s s' hs (Token.isPassable_of_is _ hpass)
  · exact .ok rfl hs

theorem sim_consume_semicolon [k.Lawful] :
    k.Sim (fun _ => True) (· = ·) (k.ends True) (consume Symbol.semicolon) (consume Symbol.semicolon) := by
  intro s s' hs _
  by_cases hover : k.Over s
  · exact matches_of_over trivial hover _ _
  · exact (matches_consume_semicolon hs hover).mono (fun _ _ => id) fun _ _ _ h => h.1.elim

/-! ### Spans -/

theorem position_token [k.Lawful] (hs : k.Related s s') :
    k.mask.position s.window.token.span.start = k.mask.position s'.window.token.span.start := by
  cases hplaces : k.mask.places with
  | false => exact Mask.position_hidden hplaces _ _
  | true =>
    obtain ⟨-, -, hspan⟩ := Mask.token_inj (akin_token hs (Lawful.places hplaces))
    exact (Span.mk.inj hspan).1

theorem position_previous [k.Lawful] (hs : k.Related s s') :
    k.mask.position s.window.previous.span.stop = k.mask.position s'.window.previous.span.stop :=
  (Lawful.previous hs.abreast).2

theorem idle_mark [k.Lawful] : k.Idle (fun _ _ => True) mark mark := by
  intro s s' hs
  refine ⟨(), _, (), _, rfl, rfl, trivial, .of_eq rfl rfl rfl rfl, .of_eq rfl rfl rfl rfl, fun h => ?_⟩
  refine (hs.alike h).withMarkers ?_
  simp only [MarkerStack.mark, map_cons, position_token hs, (hs.alike h).markers]

theorem idle_markAgain : k.Idle (fun _ _ => True) markAgain markAgain := by
  intro s s' hs
  refine ⟨(), _, (), _, rfl, rfl, trivial, .of_eq rfl rfl rfl rfl, .of_eq rfl rfl rfl rfl, fun h => ?_⟩
  have hmarkers := (hs.alike h).markers
  refine (hs.alike h).withMarkers ?_
  unfold MarkerStack.reuse
  cases hstarts : s.markers.starts <;> cases hstarts' : s'.markers.starts <;> simp_all

theorem idle_unmark : k.Idle (fun _ _ => True) unmark unmark := by
  intro s s' hs
  refine ⟨(), _, (), _, rfl, rfl, trivial, .of_eq rfl rfl rfl rfl, .of_eq rfl rfl rfl rfl, fun h => ?_⟩
  refine (hs.alike h).withMarkers ?_
  simp only [MarkerStack.pop, map_tail, (hs.alike h).markers]

theorem idle_finish [k.Lawful] : k.Idle (Same k.mask.span) finish finish := by
  intro s s' hs
  have hstop := position_previous hs
  refine ⟨_, _, _, _, rfl, rfl, ?_, .of_eq rfl rfl rfl rfl, .of_eq rfl rfl rfl rfl, fun h => (hs.alike h).withMarkers ?_⟩
  · cases hplaces : k.mask.places with
    | false => exact Mask.span_hidden hplaces _ _
    | true =>
      have hmarkers := (hs.alike (Lawful.shown (.inr hplaces))).markers
      cases hstarts : s.markers.starts <;> cases hstarts' : s'.markers.starts <;>
        simp_all [Same, Mask.span, Span.point]
  · have hmarkers := (hs.alike h).markers
    cases hstarts : s.markers.starts <;> cases hstarts' : s'.markers.starts <;> simp_all

theorem Sim.finish [k.Lawful] {f : α → γ} {g g' : Span → α} {O : α → Session → Outcome α → Prop}
    (h : ∀ span span', k.mask.span span = k.mask.span span' → f (g span) = f (g' span')) :
    k.Sim P (Same f) O (Parse.finish >>= fun span => Pure.pure (g span)) (Parse.finish >>= fun span => Pure.pure (g' span)) :=
  idle_finish.bind fun span span' hspan => .same (h span span' hspan)

theorem idle_spanFrom [k.Lawful] {p q : Position} (hpq : k.mask.position p = k.mask.position q) :
    k.Idle (Same k.mask.span) (spanFrom p) (spanFrom q) := by
  intro s s' hs
  refine ⟨_, s, _, s', rfl, rfl, ?_, .refl s, .refl s', hs.alike⟩
  simp only [Same, Mask.span, hpq, position_previous hs]

/-! ### Control flow -/

theorem idle_flow {p q : Parse Unit} (f g : Flow → List Diagnostic × Flow)
    (hp : ∀ s, p.run k.first s = .ok () ({ s with flow := (f s.flow).2 }.report (f s.flow).1))
    (hq : ∀ s, q.run k.second s = .ok () ({ s with flow := (g s.flow).2 }.report (g s.flow).1))
    (hflow : ∀ x y, k.mask.flow x = k.mask.flow y → k.mask.flow (f x).2 = k.mask.flow (g y).2 ∧
      (f x).1.map k.mask.diagnostic = (g y).1.map k.mask.diagnostic)
    (hfirst : ∀ x, ∀ d ∈ (f x).1, d.fault.isInclude = false) (hsecond : ∀ x, ∀ d ∈ (g x).1, d.fault.isInclude = false) :
    k.Idle (fun _ _ => True) p q := by
  intro s s' hs
  refine ⟨(), _, (), _, hp s, hq s', trivial, ?_, ?_, fun h => ?_⟩
  · exact ⟨rfl, rfl, rfl, (f s.flow).1, by simp [Session.report], hfirst _⟩
  · exact ⟨rfl, rfl, rfl, (g s'.flow).1, by simp [Session.report], hsecond _⟩
  · obtain ⟨hsame, hreport⟩ := hflow _ _ (hs.alike h).flow
    exact ((hs.alike h).withFlow hsame).report fun _ => hreport

theorem idle_quietFlow {p q : Parse Unit} (f g : Flow → Flow)
    (hp : ∀ s, p.run k.first s = .ok () { s with flow := f s.flow })
    (hq : ∀ s, q.run k.second s = .ok () { s with flow := g s.flow })
    (hflow : ∀ x y, k.mask.flow x = k.mask.flow y → k.mask.flow (f x) = k.mask.flow (g y)) :
    k.Idle (fun _ _ => True) p q :=
  fun s s' hs => ⟨(), _, (), _, hp s, hq s', trivial, .of_eq rfl rfl rfl rfl, .of_eq rfl rfl rfl rfl,
    fun h => (hs.alike h).withFlow (hflow _ _ (hs.alike h).flow)⟩

theorem idle_openBlock (isLoop : Bool) : k.Idle (fun _ _ => True) (openBlock isLoop) (openBlock isLoop) :=
  idle_quietFlow (·.pushScope isLoop) (·.pushScope isLoop) (fun _ => rfl) (fun _ => rfl) fun x y h => by
    rw [Mask.flow_pushScope, Mask.flow_pushScope, h]

theorem idle_addLocal (name : String) : k.Idle (fun _ _ => True) (addLocal name) (addLocal name) :=
  idle_quietFlow (·.addLocal name) (·.addLocal name) (fun _ => rfl) (fun _ => rfl) fun x y h => by
    rw [Mask.flow_addLocal, Mask.flow_addLocal, h]

theorem idle_allowVararg : k.Idle (fun _ _ => True) allowVararg allowVararg :=
  idle_quietFlow ({ · with allowVararg := true }) ({ · with allowVararg := true }) (fun _ => rfl) (fun _ => rfl)
    fun _ _ h => congrArg (fun z : Flow => { z with allowVararg := true }) h

theorem idle_addGoto {target : String} (hspan : k.mask.span span = k.mask.span span') :
    k.Idle (fun _ _ => True) (addGoto target span) (addGoto target span') :=
  idle_quietFlow (·.addGoto target span) (·.addGoto target span') (fun _ => rfl) (fun _ => rfl) fun x y h => by
    rw [Mask.flow_addGoto, Mask.flow_addGoto, h, hspan]

theorem idle_closeBlock : k.Idle (fun _ _ => True) closeBlock closeBlock := by
  have hinclude : ∀ f : Flow, ∀ d ∈ f.popScope.1, d.fault.isInclude = false := by
    intro f d hd
    obtain ⟨g, -, rfl⟩ := mem_map.mp hd
    rfl
  refine idle_flow Flow.popScope Flow.popScope (fun _ => rfl) (fun _ => rfl) (fun x y h => ?_) hinclude hinclude
  rw [Mask.flow_popScope, Mask.flow_popScope, Mask.diagnostics_popScope, Mask.diagnostics_popScope, h]
  exact ⟨rfl, rfl⟩

theorem idle_addLabel {name : String} (hspan : k.mask.span span = k.mask.span span') :
    k.Idle (fun _ _ => True) (addLabel name span) (addLabel name span') := by
  have hinclude : ∀ (span : Span) (f : Flow), ∀ d ∈ (f.addLabel name span).1.toList, d.fault.isInclude = false := by
    intro span f d hd
    unfold Flow.addLabel at hd
    split at hd
    · cases hd
    · split at hd
      · rw [toList_some, mem_singleton] at hd
        rw [hd]
        rfl
      · cases hd
  refine idle_flow (fun f => ((f.addLabel name span).1.toList, (f.addLabel name span).2))
    (fun f => ((f.addLabel name span').1.toList, (f.addLabel name span').2)) (fun _ => rfl) (fun _ => rfl)
    (fun x y h => ?_) (hinclude span) (hinclude span')
  obtain ⟨hflow, hreport⟩ := k.mask.flow_addLabel x name span
  obtain ⟨hflow', hreport'⟩ := k.mask.flow_addLabel y name span'
  dsimp only
  rw [hflow, hflow', h, hspan, ← toList_map, ← toList_map, hreport, hreport', h, hspan]
  exact ⟨rfl, rfl⟩

theorem idle_raiseDeferred : k.Idle (fun _ _ => True) raiseDeferred raiseDeferred := by
  have hinclude : ∀ f : Flow, ∀ d ∈ f.raiseDeferred.1, d.fault.isInclude = false := by
    intro f d hd
    unfold Flow.raiseDeferred at hd
    split at hd
    · cases hd
    · obtain ⟨g, -, rfl⟩ := mem_map.mp hd
      rfl
  refine idle_flow Flow.raiseDeferred Flow.raiseDeferred (fun _ => rfl) (fun _ => rfl) (fun x y h => ?_) hinclude hinclude
  obtain ⟨hflow, hreport⟩ := k.mask.flow_raiseDeferred x
  obtain ⟨hflow', hreport'⟩ := k.mask.flow_raiseDeferred y
  rw [hflow, hflow', hreport, hreport', h]
  exact ⟨rfl, rfl⟩

theorem idle_enterFunction : k.Idle (fun _ _ => True) enterFunction enterFunction := by
  intro s s' hs
  refine ⟨(), _, (), _, rfl, rfl, trivial, .of_eq rfl rfl rfl rfl, .of_eq rfl rfl rfl rfl, fun h => ?_⟩
  have halike := hs.alike h
  refine ⟨halike.markers, rfl, ?_, halike.scopes, halike.globals, halike.reported⟩
  simp only [Session.enterFunction, map_cons, halike.flow, halike.outerFlows]

theorem idle_leaveFunction : k.Idle (fun _ _ => True) leaveFunction leaveFunction :=
  fun s s' hs => ⟨(), _, (), _, rfl, rfl, trivial, .leaveFunction s, .leaveFunction s', fun h => (hs.alike h).leaveFunction⟩

/-! ### Names -/

theorem idle_openScope : k.Idle (fun _ _ => True) openScope openScope := by
  intro s s' hs
  refine ⟨(), _, (), _, rfl, rfl, trivial, .of_eq rfl rfl rfl rfl, .of_eq rfl rfl rfl rfl, fun h => ?_⟩
  exact (hs.alike h).withScopes (by rw [(hs.alike h).visible, (hs.alike h).scopes])

theorem idle_closeScope : k.Idle (fun _ _ => True) closeScope closeScope := by
  intro s s' hs
  refine ⟨(), _, (), _, rfl, rfl, trivial, .of_eq rfl rfl rfl rfl, .of_eq rfl rfl rfl rfl, fun h => ?_⟩
  exact (hs.alike h).withScopes (congrArg tail (hs.alike h).scopes)

theorem idle_addName (name : String) : k.Idle (fun _ _ => True) (addName name) (addName name) :=
  fun s s' hs => ⟨(), _, (), _, rfl, rfl, trivial, .addName s name, .addName s' name, fun h => (hs.alike h).addName name⟩

theorem idle_declare [k.Lawful] (hid : k.mask.name id = k.mask.name id') :
    k.Idle (Same k.mask.name) (declare id) (declare id') := by
  obtain ⟨hname, -, hspan⟩ := Identifier.mk.inj hid
  unfold declare
  rw [hname]
  refine (idle_addName _).andThen fun _ _ _ => .pure ?_
  simp only [Same, Mask.name, hspan]

theorem idle_declareInFlow [k.Lawful] (hid : k.mask.name id = k.mask.name id') :
    k.Idle (Same k.mask.name) (declareInFlow id) (declareInFlow id') := by
  obtain ⟨hname, -, -⟩ := Identifier.mk.inj hid
  unfold declareInFlow
  rw [hname]
  exact (idle_addLocal _).andThen fun _ _ _ => idle_declare hid

theorem idle_reference [k.Lawful] (hid : k.mask.name id = k.mask.name id') :
    k.Idle (Same k.mask.name) (reference id) (reference id') := by
  obtain ⟨hname, -, hspan⟩ := Identifier.mk.inj hid
  intro s s' hs
  refine ⟨_, _, _, _, rfl, rfl, ?_, .addGlobal s _, .addGlobal s' _, fun h => by rw [hname]; exact (hs.alike h).addGlobal _⟩
  simp only [Same, Mask.name, hname, hspan, Identifier.mk.injEq, true_and, and_true]
  cases hlocals : k.mask.locals with
  | false => rfl
  | true => rw [(hs.alike (Lawful.shown (.inl hlocals))).visible]

theorem idle_mapM [k.Lawful] {f : Identifier → Parse Identifier}
    (hf : ∀ id id', k.mask.name id = k.mask.name id' → k.Idle (Same k.mask.name) (f id) (f id'))
    (ids ids' : List Identifier) (hids : ids.map k.mask.name = ids'.map k.mask.name) :
    k.Idle (Same (map k.mask.name)) (ids.mapM f) (ids'.mapM f) := by
  induction ids generalizing ids' with
  | nil =>
    rw [map_nil, eq_comm, map_eq_nil_iff] at hids
    subst hids
    exact .pure rfl
  | cons id rest ih =>
    cases ids' with
    | nil => cases hids
    | cons id' rest' =>
      obtain ⟨hid, hrest⟩ := cons.inj hids
      rw [mapM_cons, mapM_cons]
      refine (hf id id' hid).andThen fun a b hab => ?_
      refine (ih rest' hrest).andThen fun xs ys hxys => .pure ?_
      rw [Same, map_cons, map_cons, hab, hxys]

end Comparison

end CartLua
