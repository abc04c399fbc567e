import CartLua.Parse.Recovery
/-!
# Runs of parsers

What the primitive parsers do, as equations. A run that gives a value splits into the runs of its parts, so that a proof
about a parser starts by naming the sessions between them.
-/

namespace CartLua

namespace Outcome

variable {α β : Type} {u : Session}

@[simp] theorem andThen_ok (a : α) (s : Session) (next : α → Session → Outcome β) : (ok a s).andThen next = next a s := rfl

variable {next : α → Session → Outcome β} {o : Outcome α}

theorem andThen_eq_ok {b : β} : o.andThen next = ok b u ↔ ∃ a t, o = ok a t ∧ next a t = ok b u := by
  cases o <;> simp [andThen, and_assoc]

theorem andThen_eq_fault {d : Diagnostic} :
    o.andThen next = fault d u ↔ o = fault d u ∨ ∃ a t, o = ok a t ∧ next a t = fault d u := by
  cases o <;> simp [andThen, and_assoc]

theorem andThen_eq_exhausted :
    o.andThen next = exhausted ↔ o = exhausted ∨ ∃ a t, o = ok a t ∧ next a t = exhausted := by
  cases o <;> simp [andThen, and_assoc]

end Outcome

namespace Parse

variable {α β : Type} {c : Settings} {s u : Session} {a b : α} {p : Parse α}

theorem run_bind (p : Parse α) (f : α → Parse β) (c : Settings) (s : Session) :
    (p >>= f).run c s = (p.run c s).andThen fun a t => (f a).run c t := rfl

instance : LawfulMonad Parse := LawfulMonad.mk' Parse
  (fun p => by
    ext c s
    show (p.run c s).andThen (fun a t => .ok a t) = p.run c s
    cases p.run c s <;> rfl)
  (fun _ _ => rfl)
  (fun p f g => by
    ext c s
    simp only [run_bind]
    cases p.run c s <;> rfl)

/-! ### Runs that give a value -/

@[simp] theorem run_bind_eq_ok {f : α → Parse β} {b : β} :
    (p >>= f).run c s = .ok b u ↔ ∃ a t, p.run c s = .ok a t ∧ (f a).run c t = .ok b u :=
  Outcome.andThen_eq_ok

@[simp] theorem run_map_eq_ok {f : α → β} {b : β} :
    (f <$> p).run c s = .ok b u ↔ ∃ a, p.run c s = .ok a u ∧ f a = b := by
  rw [← bind_pure_comp, run_bind_eq_ok]
  constructor
  · rintro ⟨a, t, hp, hf⟩
    cases hf
    exact ⟨a, hp, rfl⟩
  · rintro ⟨a, hp, rfl⟩
    exact ⟨a, u, hp, rfl⟩

@[simp] theorem run_attempt_eq_ok {r : Except Diagnostic α} : (attempt p).run c s = .ok r u ↔
      (∃ a, r = .ok a ∧ p.run c s = .ok a u) ∨ ∃ d, r = .error d ∧ p.run c s = .fault d u := by
  unfold attempt
  dsimp only
  cases p.run c s <;> cases r <;> simp

/-! ### The primitive parsers -/

@[simp] theorem run_pure (a : α) : (pure a : Parse α).run c s = .ok a s := rfl

@[simp] theorem run_ite (P : Prop) [Decidable P] (p q : Parse α) :
    (if P then p else q).run c s = if P then p.run c s else q.run c s := by
  split <;> rfl

@[simp] theorem run_look (f : Session → α) : (look f).run c s = .ok (f s) s := rfl

@[simp] theorem run_settings : settings.run c s = .ok c s := rfl

@[simp] theorem run_token : token.run c s = .ok s.window.token s := rfl

@[simp] theorem run_lookahead : lookahead.run c s = .ok s.window.lookahead s := rfl

@[simp] theorem run_previous : previous.run c s = .ok s.window.previous s := rfl

@[simp] theorem run_newlines : newlines.run c s = .ok s.window.newlines s := rfl

@[simp] theorem run_report (ds : List Diagnostic) : (report ds).run c s = .ok () (s.report ds) := rfl

@[simp] theorem run_unexpected : (unexpected : Parse α).run c s = .fault s.unexpectedToken s := rfl

@[simp] theorem run_missingWord (word : String) : (missingWord word : Parse α).run c s =
    .fault { fault := .wordExpected word s.window.token.text, span := s.window.token.span } s := rfl

@[simp] theorem run_setNewlines (shown : Bool) : (setNewlines shown).run c s =
    .ok () ((s.report (s.window.setNewlines shown).1.toList).resume (s.window.setNewlines shown).2) := rfl

@[simp] theorem run_finish : finish.run c s =
    .ok (s.markers.finish s.window.previous.span.stop).1
      { s with markers := (s.markers.finish s.window.previous.span.stop).2 } := rfl

@[simp] theorem run_spanFrom (start : Position) :
    (spanFrom start).run c s = .ok ⟨start, s.window.previous.span.stop⟩ s := rfl

@[simp] theorem run_openBlock (isLoop : Bool) :
    (openBlock isLoop).run c s = .ok () { s with flow := s.flow.pushScope isLoop } := rfl

@[simp] theorem run_closeBlock :
    closeBlock.run c s = .ok () ({ s with flow := s.flow.popScope.2 }.report s.flow.popScope.1) := rfl

@[simp] theorem run_addLabel (name : String) (span : Span) : (addLabel name span).run c s =
    .ok () ({ s with flow := (s.flow.addLabel name span).2 }.report (s.flow.addLabel name span).1.toList) := rfl

@[simp] theorem run_raiseDeferred : raiseDeferred.run c s =
    .ok () ({ s with flow := s.flow.raiseDeferred.2 }.report s.flow.raiseDeferred.1) := rfl

@[simp] theorem run_leaveFunction : leaveFunction.run c s = .ok () s.leaveFunction := rfl

@[simp] theorem run_openScope : openScope.run c s = .ok () s.openScope := rfl

@[simp] theorem run_checkpoint : checkpoint.run c s = .ok s.checkpoint s := rfl

theorem run_advance : advance.run c s =
    match s.window.next.1 with
    | none => .ok () (s.resume s.window.next.2)
    | some d => .fault d (s.resume s.window.next.2) := by
  unfold advance
  dsimp only
  split <;> simp_all

theorem run_skipToken (s : Session) :
    skipToken.run c s = .ok () ((s.resume s.window.next.2).report s.window.next.1.toList) := by
  unfold skipToken attempt
  rw [run_bind]
  dsimp only
  rw [run_advance]
  cases s.window.next.1 <;> rfl

theorem identifier_cases {id : Identifier} (h : identifier.run c s = .ok id u) :
    s.window.token.isIdentifier = true ∧ id = { name := s.window.token.text, span := s.window.token.span } ∧
      advance.run c s = .ok () u := by
  simp only [identifier, run_bind_eq_ok, run_token, Outcome.ok.injEq, run_ite] at h
  obtain ⟨_, _, ⟨rfl, rfl⟩, h⟩ := h
  split at h
  next hid =>
    obtain ⟨_, v, hadvance, ⟨⟩⟩ := run_bind_eq_ok.mp h
    exact ⟨hid, rfl, hadvance⟩
  · cases h

theorem consume_cases {terminal : Terminal} {found : Bool} (h : (consume terminal).run c s = .ok found u) :
    s.window.token.is terminal = found ∧ (found = true → advance.run c s = .ok () u) ∧ (found = false → u = s) := by
  obtain ⟨_, _, ⟨⟩, h⟩ := run_bind_eq_ok.mp h
  split at h
  next his =>
    obtain ⟨_, _, hadvance, ⟨⟩⟩ := run_bind_eq_ok.mp h
    exact ⟨his, fun _ => hadvance, nofun⟩
  next his =>
    cases h
    exact ⟨eq_false_of_ne_true his, nofun, fun _ => rfl⟩

/-- What every round of a loop hands back from the next one, and the last one from nothing, holds before the loop. -/
theorem collect_induction {motive : Session → List α → Prop} {step : Parse (List α × Bool)} {t : Session}
    (hstep : ∀ {s u found more rest}, step.run c s = .ok (found, more) u → (more = true → motive u rest) →
      (more = false → rest = [] ∧ u = t) → motive s (found ++ rest))
    {found : List α} (h : (collect step).run c s = .ok found t) : motive s found := by
  obtain ⟨_, _, ⟨⟩, hrounds⟩ := run_bind_eq_ok.mp h
  clear h
  generalize c.rounds = rounds at hrounds
  induction rounds generalizing s found with
  | zero => cases hrounds
  | succ rounds ih =>
    obtain ⟨⟨first, more⟩, u, hfirst, hnext⟩ := run_bind_eq_ok.mp hrounds
    cases more with
    | false =>
      cases hnext
      rw [← List.append_nil found]
      exact hstep hfirst nofun fun _ => ⟨rfl, rfl⟩
    | true =>
      obtain ⟨rest, v, hrest, ⟨⟩⟩ := run_bind_eq_ok.mp hnext
      exact hstep hfirst (fun _ => ih hrest) nofun

/-! ### Views -/

variable {ν : Type} {view : Session → ν} {p : Parse α}

/-- The parser leaves a view of the session alone. -/
class Leaves (c : Settings) (view : Session → ν) (p : Parse α) : Prop where
  unchanged : ∀ {s : Session} {a : α} {t : Session}, p.run c s = .ok a t → view t = view s

namespace Leaves

instance (p : Parse α) (f : α → Parse β) [hp : Leaves c view p] [hf : ∀ a, Leaves c view (f a)] :
    Leaves c view (p >>= f) where
  unchanged h := by
    obtain ⟨a, t, hrun, hnext⟩ := run_bind_eq_ok.mp h
    exact ((hf a).unchanged hnext).trans (hp.unchanged hrun)

instance (P : Prop) [Decidable P] (p q : Parse α) [hp : Leaves c view p] [hq : Leaves c view q] :
    Leaves c view (if P then p else q) := by
  split
  · exact hp
  · exact hq

theorem of_ok (f : Session → α) (g : Session → Session) (hrun : ∀ s, p.run c s = .ok (f s) (g s))
    (hview : ∀ s, view (g s) = view s) : Leaves c view p where
  unchanged h := by
    rw [hrun] at h
    cases h
    exact hview _

instance (a : α) : Leaves c view (pure a) := .of_ok (fun _ => a) id (fun _ => rfl) fun _ => rfl

end Leaves

end Parse

end CartLua
