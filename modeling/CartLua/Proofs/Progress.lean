import CartLua.Proofs.Remaining
import CartLua.Proofs.Run
/-!
# Progress

Loops over tokens have a number of rounds. A loop goes on only when it has passed a token, so that what is left to read
gets smaller in every round, and it finishes when there are more rounds than steps left. Whether a parser fails, passes a
token or finishes depends on what it is built from; these are classes, so that it is found out from the parser's text.
-/

namespace CartLua

open Session

variable {k : Token} {terminal : Terminal}

theorem Token.kind_of_isEof (h : k.isEof = true) : k.kind = .eof := by
  unfold isEof at h
  split at h
  · assumption
  · cases h

theorem Token.kind_of_isIdentifier (h : k.isIdentifier = true) : k.kind = .identifier := by
  unfold isIdentifier at h
  split at h
  · assumption
  · cases h

theorem Token.isEof_of_is (h : k.is terminal = true) : k.isEof = false := by
  unfold Token.is Token.isSymbol Token.isKeyword at h
  unfold Token.isEof
  split
  · split at h <;> simp_all
  · rfl

theorem Token.isEof_of_isIdentifier (h : k.isIdentifier = true) : k.isEof = false := by
  simp [isEof, kind_of_isIdentifier h]

theorem Token.isEof_of_closesBlock (h : k.closesBlock = false) : k.isEof = false := by
  unfold Token.closesBlock at h
  unfold Token.isEof
  split <;> simp_all

namespace Parse

variable {α β : Type} {c : Settings} {s t : Session} {d : Diagnostic} {p : Parse α}

theorem reaches {a : α} (h : p.run c s = .ok a t) : Reaches c s t := by
  have hacts := p.byActs c s
  rwa [h] at hacts

theorem reaches_of_fault (h : p.run c s = .fault d t) : Reaches c s t := by
  have hacts := p.byActs c s
  rw [h] at hacts
  exact hacts.1

theorem isFlow_of_fault (h : p.run c s = .fault d t) : d.fault.isFlow = false := by
  have hacts := p.byActs c s
  rw [h] at hacts
  exact hacts.2

theorem remaining_le {a : α} (hs : s.Orderly c) (h : p.run c s = .ok a t) :
    t.remaining c ≤ s.remaining c :=
  (reaches h).remaining_le hs

/-! ### Parsers that never fail -/

/-- The parser gives a value or runs out of rounds. -/
class Infallible (p : Parse α) : Prop where
  ne_fault : ∀ c s d t, p.run c s ≠ .fault d t

namespace Infallible

theorem of_ok (h : ∀ c s, ∃ a t, p.run c s = .ok a t) : Infallible p where
  ne_fault c s d u hfault := by
    obtain ⟨a, t, hok⟩ := h c s
    rw [hok] at hfault
    cases hfault

variable {f : α → Parse β}

theorem bind [hp : Infallible p] (hf : ∀ a, Infallible (f a)) :
    Infallible (p >>= f) where
  ne_fault c s d u h := by
    obtain h | ⟨a, t, -, h⟩ := Outcome.andThen_eq_fault.mp h
    · exact hp.ne_fault c s d u h
    · exact (hf a).ne_fault c t d u h

instance (p : Parse α) (f : α → Parse β) [Infallible p] [hf : ∀ a, Infallible (f a)] : Infallible (p >>= f) := .bind hf

instance (P : Prop) [Decidable P] (p q : Parse α) [hp : Infallible p] [hq : Infallible q] :
    Infallible (if P then p else q) := by
  split
  · exact hp
  · exact hq

instance (a : α) : Infallible (pure a) := .of_ok fun _ _ => ⟨_, _, rfl⟩

instance (f : Session → α) : Infallible (look f) := .of_ok fun _ _ => ⟨_, _, rfl⟩

instance (f : Settings → Session → Session) (h : ∀ c s, Act c s (f c s)) : Infallible (act f h) := .of_ok fun _ _ => ⟨_, _, rfl⟩

instance : Infallible settings := .of_ok fun _ _ => ⟨_, _, rfl⟩

instance : Infallible (exhausted : Parse α) where
  ne_fault _ _ _ _ h := by cases h

instance (p : Parse α) : Infallible (attempt p) where
  ne_fault c s d t h := by
    unfold attempt at h
    dsimp only at h
    split at h <;> cases h

instance : Infallible token := inferInstanceAs (Infallible (look _))

instance : Infallible previous := inferInstanceAs (Infallible (look _))

instance : Infallible newlines := inferInstanceAs (Infallible (look _))

instance : Infallible checkpoint := inferInstanceAs (Infallible (look _))

instance (ds : List Diagnostic) : Infallible (report ds) := inferInstanceAs (Infallible (act _ _))

instance (shown : Bool) : Infallible (setNewlines shown) := .of_ok fun _ _ => ⟨_, _, rfl⟩

instance (isLoop : Bool) : Infallible (openBlock isLoop) := inferInstanceAs (Infallible (act _ _))

instance : Infallible closeBlock := .of_ok fun _ _ => ⟨_, _, rfl⟩

instance : Infallible openScope := inferInstanceAs (Infallible (act _ _))

instance : Infallible closeScope := inferInstanceAs (Infallible (act _ _))

instance : Infallible skipToken := .of_ok fun _ s => ⟨_, _, run_skipToken s⟩

instance (cp : Checkpoint) : Infallible (restore cp) := by
  unfold restore
  infer_instance

instance (file : FileId) (consumed : Bool) : Infallible (skipLineStep file consumed) := by
  unfold skipLineStep
  infer_instance

instance (file : FileId) (consumed : Bool) (rounds : Nat) : Infallible (skipLineRounds file consumed rounds) := by
  induction rounds generalizing consumed with
  | zero =>
    unfold skipLineRounds
    infer_instance
  | succ =>
    unfold skipLineRounds
    refine .bind fun r => ?_
    split <;> infer_instance

instance (file : FileId) : Infallible (skipLine file) := by
  unfold skipLine
  infer_instance

instance (cp : Checkpoint) : Infallible (recover cp) := by
  unfold recover
  infer_instance

instance (statement : Parse (Option Stmt)) : Infallible (blockStep statement) := by
  unfold blockStep
  refine .bind fun t => ?_
  split
  · infer_instance
  · refine .bind fun cp => ?_
    refine .bind fun r => ?_
    split <;> infer_instance

instance (step : Parse (List α × Bool)) (rounds : Nat) [Infallible step] : Infallible (collectRounds step rounds) := by
  induction rounds with
  | zero | succ =>
    unfold collectRounds
    infer_instance

instance (step : Parse (List α × Bool)) [Infallible step] : Infallible (collect step) := by
  unfold collect
  infer_instance

instance (statement : Parse (Option Stmt)) : Infallible (block statement) := inferInstanceAs (Infallible (collect _))

end Infallible

/-! ### Parsers that pass a token -/

/-- The parser passes a token when it gives a value, unless there is no token left. -/
class Advances (c : Settings) (p : Parse α) : Prop where
  remaining_lt : ∀ {s a t}, s.Orderly c → s.window.token.isEof = false → p.run c s = .ok a t →
    t.remaining c < s.remaining c

theorem remaining_advance_lt {a : Unit} (htoken : s.window.token.isEof = false) (h : advance.run c s = .ok a t) :
    t.remaining c < s.remaining c := by
  rw [run_advance] at h
  split at h
  · cases h
    exact remaining_resume_lt (Window.next_steps_lt htoken)
  · cases h

theorem remaining_skipToken_lt {a : Unit} (htoken : s.window.token.isEof = false) (h : skipToken.run c s = .ok a t) :
    t.remaining c < s.remaining c := by
  rw [run_skipToken] at h
  cases h
  exact remaining_resume_lt (Window.next_steps_lt htoken)

theorem remaining_consume_lt (h : (consume terminal).run c s = .ok true t) : t.remaining c < s.remaining c := by
  obtain ⟨his, hadvance, -⟩ := consume_cases h
  exact remaining_advance_lt (Token.isEof_of_is his) (hadvance rfl)

namespace Advances

instance : Advances c advance where
  remaining_lt _ htoken h := remaining_advance_lt htoken h

instance (p : Parse α) (f : α → Parse β) [hp : Advances c p] : Advances c (p >>= f) where
  remaining_lt {s a u} hs htoken h := by
    obtain ⟨a, t, hrun, hnext⟩ := run_bind_eq_ok.mp h
    have hlt := hp.remaining_lt hs htoken hrun
    exact (remaining_le ((reaches hrun).orderly hs) hnext).trans_lt hlt

/-- As long as no token is passed the current one stays the same. -/
instance instBindRight (p : Parse α) (f : α → Parse β) [hf : ∀ a, Advances c (f a)] : Advances c (p >>= f) where
  remaining_lt {s b u} hs htoken h := by
    obtain ⟨a, t, hrun, hnext⟩ := run_bind_eq_ok.mp h
    have ht := (reaches hrun).orderly hs
    obtain hlt | hsame := (reaches hrun).token_eq hs htoken
    · exact (remaining_le ht hnext).trans_lt hlt
    · have hlt := (hf a).remaining_lt ht (hsame ▸ htoken) hnext
      exact hlt.trans_le (remaining_le hs hrun)

instance (p : Parse α) (f : α → β) [Advances c p] : Advances c (f <$> p) := by
  rw [← bind_pure_comp]
  infer_instance

instance (P : Prop) [Decidable P] (p q : Parse α) [hp : Advances c p] [hq : Advances c q] :
    Advances c (if P then p else q) := by
  split
  · exact hp
  · exact hq

instance : Advances c (exhausted : Parse α) where
  remaining_lt _ _ h := by cases h

instance (part : String) : Advances c (missing part : Parse α) where
  remaining_lt _ _ h := by cases h

instance : Advances c (unexpected : Parse α) where
  remaining_lt _ _ h := by cases h

instance : Advances c (tooManyLevels : Parse α) where
  remaining_lt _ _ h := by cases h

instance : Advances c identifier := by
  unfold identifier
  infer_instance

instance (terminal : Terminal) : Advances c (expect terminal) where
  remaining_lt {s a u} hs _ h := by
    obtain ⟨passed, t, hconsume, hnext⟩ := run_bind_eq_ok.mp h
    cases passed with
    | true =>
      cases hnext
      exact remaining_consume_lt hconsume
    | false => cases hnext

instance (bracket : Symbol) : Advances c (openBracket bracket) := by
  unfold openBracket
  infer_instance

end Advances

/-! ### Parsers that finish -/

/-- The parser does not run out of rounds when fewer steps are left than there are rounds. -/
class Finishes (c : Settings) (p : Parse α) : Prop where
  ne_exhausted : ∀ {s}, s.Orderly c → s.remaining c < c.rounds → p.run c s ≠ .exhausted

namespace Finishes

theorem of_ok (h : ∀ s, ∃ a t, p.run c s = .ok a t) : Finishes c p where
  ne_exhausted {s} _ _ hexhausted := by
    obtain ⟨a, t, hok⟩ := h s
    rw [hok] at hexhausted
    cases hexhausted

theorem bind [hp : Finishes c p] (hf : ∀ a, Finishes c (f a)) :
    Finishes c (p >>= f) where
  ne_exhausted {s} hs hrounds h := by
    obtain h | ⟨a, t, hrun, h⟩ := Outcome.andThen_eq_exhausted.mp h
    · exact hp.ne_exhausted hs hrounds h
    · have hreach := reaches hrun
      exact (hf a).ne_exhausted (hreach.orderly hs) ((hreach.remaining_le hs).trans_lt hrounds) h

instance (p : Parse α) (f : α → Parse β) [Finishes c p] [hf : ∀ a, Finishes c (f a)] : Finishes c (p >>= f) := .bind hf

instance (P : Prop) [Decidable P] (p q : Parse α) [hp : Finishes c p] [hq : Finishes c q] :
    Finishes c (if P then p else q) := by
  split
  · exact hp
  · exact hq

instance (p : Parse α) [hp : Finishes c p] : Finishes c (attempt p) where
  ne_exhausted {s} hs hrounds h := by
    unfold attempt at h
    dsimp only at h
    split at h
    · cases h
    · cases h
    next hrun => exact hp.ne_exhausted hs hrounds hrun

instance (a : α) : Finishes c (pure a : Parse α) := .of_ok fun _ => ⟨_, _, rfl⟩

instance (f : Session → α) : Finishes c (look f) := .of_ok fun _ => ⟨_, _, rfl⟩

instance (f : Settings → Session → Session) (h : ∀ c s, Act c s (f c s)) : Finishes c (act f h) :=
  .of_ok fun _ => ⟨_, _, rfl⟩

instance : Finishes c advance where
  ne_exhausted _ _ h := by
    rw [run_advance] at h
    split at h <;> cases h

instance (shown : Bool) : Finishes c (setNewlines shown) := .of_ok fun _ => ⟨_, _, rfl⟩

instance : Finishes c token := inferInstanceAs (Finishes c (look _))

instance : Finishes c previous := inferInstanceAs (Finishes c (look _))

instance : Finishes c newlines := inferInstanceAs (Finishes c (look _))

instance : Finishes c checkpoint := inferInstanceAs (Finishes c (look _))

instance (ds : List Diagnostic) : Finishes c (report ds) := inferInstanceAs (Finishes c (act _ _))

instance : Finishes c skipToken := .of_ok fun s => ⟨_, _, run_skipToken s⟩

instance (cp : Checkpoint) : Finishes c (restore cp) := by
  unfold restore
  infer_instance

end Finishes

/-! ### Loops -/

/-- The parser does not run out of rounds when fewer than `n` steps are left. -/
def FinishesIn (c : Settings) (n : Nat) (p : Parse α) : Prop :=
  ∀ s, s.Orderly c → s.remaining c < c.rounds → s.remaining c < n → p.run c s ≠ .exhausted

theorem Finishes.finishesIn (h : Finishes c p) (n : Nat) : FinishesIn c n p :=
  fun _ hs hrounds _ => h.ne_exhausted hs hrounds

theorem FinishesIn.bind {n : Nat} (hp : FinishesIn c n p)
    (hf : ∀ a, FinishesIn c n (f a)) : FinishesIn c n (p >>= f) := by
  intro s hs hrounds hn h
  obtain h | ⟨a, t, hrun, h⟩ := Outcome.andThen_eq_exhausted.mp h
  · exact hp s hs hrounds hn h
  · have ht := (reaches hrun).orderly hs
    have hle := remaining_le hs hrun
    exact hf a t ht (hle.trans_lt hrounds) (hle.trans_lt hn) h

theorem FinishesIn.round {n : Nat} [hp : Finishes c p]
    (hf : ∀ a, Finishes c (f a) ∨
      (FinishesIn c n (f a) ∧ ∀ s t, s.Orderly c → p.run c s = .ok a t → t.remaining c < s.remaining c)) :
    FinishesIn c (n + 1) (p >>= f) := by
  intro s hs hrounds hn h
  obtain h | ⟨a, t, hrun, h⟩ := Outcome.andThen_eq_exhausted.mp h
  · exact hp.ne_exhausted hs hrounds h
  · have ht := (reaches hrun).orderly hs
    have hle := remaining_le hs hrun
    obtain hlast | ⟨hmore, hpasses⟩ := hf a
    · exact hlast.ne_exhausted ht (hle.trans_lt hrounds) h
    · have hlt := hpasses s t hs hrun
      exact hmore t ht (hle.trans_lt hrounds) (by omega) h

theorem FinishesIn.zero (p : Parse α) : FinishesIn c 0 p := fun _ _ _ hn => absurd hn (Nat.not_lt_zero _)

theorem FinishesIn.finishes {f : Nat → Parse α} (h : FinishesIn c c.rounds (f c.rounds)) :
    Finishes c (settings >>= fun c => f c.rounds) where
  ne_exhausted {s} hs hrounds hrun := h s hs hrounds hrounds hrun

/-- Whenever the step is to be repeated it has passed a token. -/
def Spends (c : Settings) (step : Parse (α × Bool)) : Prop :=
  ∀ s a t, s.Orderly c → step.run c s = .ok (a, true) t → t.remaining c < s.remaining c

theorem Finishes.collect {step : Parse (List α × Bool)} [Finishes c step] (hspends : Spends c step) :
    Finishes c (collect step) := by
  have hrounds : ∀ n, FinishesIn c n (collectRounds step n) := by
    intro n
    induction n with
    | zero => exact FinishesIn.zero _
    | succ n ih =>
      refine FinishesIn.round ?_
      rintro ⟨found, more⟩
      cases more with
      | false => exact .inl (inferInstanceAs (Finishes c (pure found)))
      | true =>
        refine .inr ⟨ih.bind fun rest => Finishes.finishesIn inferInstance n, ?_⟩
        exact fun s t hs hrun => hspends s found t hs hrun
  exact FinishesIn.finishes (hrounds c.rounds)

/-! ### Recovery -/

instance (file : FileId) (consumed : Bool) : Finishes c (skipLineStep file consumed) := by
  unfold skipLineStep
  infer_instance

theorem remaining_skipLineStep_lt {file : FileId} {consumed : Bool}
    (h : (skipLineStep file consumed).run c s = .ok none t) : t.remaining c < s.remaining c := by
  obtain ⟨k, u, htoken, h⟩ := run_bind_eq_ok.mp h
  cases htoken
  simp only [run_ite] at h
  split_ifs at h with hline hend
  · cases h
  · cases h
  · obtain ⟨_, v, hskip, hpure⟩ := run_bind_eq_ok.mp h
    cases hpure
    refine remaining_skipToken_lt ?_ hskip
    simp only [Bool.or_eq_true, not_or, Bool.not_eq_true] at hend
    exact hend.1

theorem finishesIn_skipLineRounds (file : FileId) (n : Nat) (consumed : Bool) :
    FinishesIn c n (skipLineRounds file consumed n) := by
  induction n generalizing consumed with
  | zero => exact FinishesIn.zero _
  | succ n ih =>
    refine FinishesIn.round ?_
    rintro (_ | goesOn)
    · exact .inr ⟨ih true, fun s t _ hrun => remaining_skipLineStep_lt hrun⟩
    · exact .inl (inferInstanceAs (Finishes c (pure goesOn)))

instance (file : FileId) : Finishes c (skipLine file) :=
  FinishesIn.finishes (finishesIn_skipLineRounds file c.rounds false)

instance (cp : Checkpoint) : Finishes c (recover cp) := by
  unfold recover
  infer_instance

theorem remaining_skipLine_lt {file : FileId} (hs : s.Orderly c) (hline : s.window.token.isNewline = false)
    (hfile : s.window.token.span.file = file) (h : (skipLine file).run c s = .ok true t) :
    t.remaining c < s.remaining c := by
  obtain ⟨c', u, hsettings, h⟩ := run_bind_eq_ok.mp h
  cases hsettings
  cases hrounds : c.rounds with
  | zero =>
    rw [hrounds] at h
    cases h
  | succ =>
    rw [hrounds] at h
    obtain ⟨r, v, hstep, hnext⟩ := run_bind_eq_ok.mp h
    cases r with
    | none => exact (remaining_le ((reaches hstep).orderly hs) hnext).trans_lt (remaining_skipLineStep_lt hstep)
    | some =>
      cases hnext
      obtain ⟨k, w, htoken, hstep⟩ := run_bind_eq_ok.mp hstep
      cases htoken
      rw [if_neg (by simp [hline, hfile]), run_ite] at hstep
      split_ifs at hstep
      · cases hstep
      · obtain ⟨_, _, _, hpure⟩ := run_bind_eq_ok.mp hstep
        cases hpure

theorem remaining_recover_lt (hs : s.Orderly c) (hcloses : s.window.token.closesBlock = false)
    (hline : s.window.token.isNewline = false) {u : Session} (hreach : Reaches c s u)
    (h : (recover s.checkpoint).run c u = .ok true t) : t.remaining c < s.remaining c := by
  have hu := hreach.orderly hs
  have heof := Token.isEof_of_closesBlock hcloses
  -- As long as no token has been passed, the statement still stands at its first one.
  obtain hlt | hsame := hreach.token_eq hs heof
  · exact (remaining_le hu h).trans_lt hlt
  · have hstart : (u.window.token.span.start != s.checkpoint.start) = false := by
      rw [hsame]
      exact bne_self_eq_false _
    obtain ⟨k, v, htoken, h⟩ := run_bind_eq_ok.mp h
    cases htoken
    obtain ⟨k, v, hprevious, h⟩ := run_bind_eq_ok.mp h
    cases hprevious
    rw [if_neg (by simp [hsame, hcloses]), if_neg (by simp [hstart])] at h
    obtain ⟨file, v, hfile, h⟩ := run_bind_eq_ok.mp h
    cases hfile
    obtain ⟨outer, v, houter, h⟩ := run_bind_eq_ok.mp h
    cases houter
    obtain ⟨_, shown, hshown, h⟩ := run_bind_eq_ok.mp h
    obtain ⟨goesOn, skipped, hskip, h⟩ := run_bind_eq_ok.mp h
    have hreachShown := hreach.trans (reaches hshown)
    have hshownOrderly := hreachShown.orderly hs
    have hskipOrderly := (reaches hskip).orderly hshownOrderly
    have hgoesOn : goesOn = true := by
      obtain ⟨file, v, hfile, h⟩ := run_bind_eq_ok.mp h
      cases hfile
      rw [run_ite] at h
      split at h
      · obtain ⟨_, _, _, hpure⟩ := run_bind_eq_ok.mp h
        cases hpure
        rfl
      · cases h
        rfl
    subst hgoesOn
    refine (remaining_le hskipOrderly h).trans_lt ?_
    obtain hlt | hkept := hreachShown.token_eq hs heof
    · exact (remaining_le hshownOrderly hskip).trans_lt hlt
    · have hfile : shown.window.token.span.file = u.window.file := by
        rw [hkept, ← hsame]
        exact hu.window.1.1
      have hlt := remaining_skipLine_lt hshownOrderly (by rw [hkept]; exact hline) hfile hskip
      exact hlt.trans_le (hreachShown.remaining_le hs)

theorem spends_blockStep (statement : Parse (Option Stmt)) [hstatement : Advances c statement] :
    Spends c (blockStep statement) := by
  intro s found t hs h
  obtain ⟨k, u, htoken, h⟩ := run_bind_eq_ok.mp h
  cases htoken
  rw [run_ite] at h
  split_ifs at h with hends
  · cases h
  · simp only [Bool.or_eq_true, not_or, Bool.not_eq_true] at hends
    obtain ⟨cp, u, hcp, h⟩ := run_bind_eq_ok.mp h
    cases hcp
    obtain ⟨r, v, hattempt, h⟩ := run_bind_eq_ok.mp h
    obtain ⟨found, rfl, hrun⟩ | ⟨d, rfl, hrun⟩ := run_attempt_eq_ok.mp hattempt
    · have hlt := hstatement.remaining_lt hs (Token.isEof_of_closesBlock hends.1) hrun
      have hle := remaining_le ((reaches hrun).orderly hs) h
      exact hle.trans_lt hlt
    · obtain ⟨_, w, hreport, h⟩ := run_bind_eq_ok.mp h
      obtain ⟨_, x, hrestore, h⟩ := run_bind_eq_ok.mp h
      obtain ⟨goesOn, y, hrecover, hpure⟩ := run_bind_eq_ok.mp h
      cases hpure
      have hreach := ((reaches_of_fault hrun).trans (reaches hreport)).trans (reaches hrestore)
      exact remaining_recover_lt hs hends.1 hends.2 hreach hrecover

instance (statement : Parse (Option Stmt)) [Finishes c statement] : Finishes c (blockStep statement) := by
  unfold blockStep
  refine .bind fun t => ?_
  split
  · infer_instance
  · refine .bind fun cp => ?_
    refine .bind fun r => ?_
    split <;> infer_instance

end Parse

end CartLua
