import CartLua.Token.Window
import Mathlib.Tactic
/-!
# Steps of scanning

What one step of scanning finds and where it ends, and the recursion that all readers of tokens share: a step at the end
of the text, a step over a token, a step over a fault.
-/

namespace CartLua

namespace Cursor

/-! ### Skipping -/

@[simp] theorem skip_file (c : Cursor) (n : Nat) : (c.skip n).position.file = c.position.file := by
  induction n generalizing c with
  | zero => rfl
  | succ n ih =>
    unfold skip
    split
    · rfl
    · rw [ih, Position.after_file]

theorem skip_of_nil {c : Cursor} (h : c.rest = []) (n : Nat) : c.skip n = c := by
  cases n with
  | zero => rfl
  | succ => simp [skip, h]

theorem skip_cons {c : Cursor} {ch : Char} {rest : List Char} (h : c.rest = ch :: rest) (n : Nat) :
    c.skip (n + 1) = (⟨rest, c.position.after ch, ch == '\n' || (c.fresh && isBlank ch)⟩ : Cursor).skip n := by
  simp [skip, h]

theorem skip_index (c : Cursor) (n : Nat) : (c.skip n).position.index = c.position.index + min n c.rest.length := by
  induction n generalizing c with
  | zero => simp
  | succ n ih =>
    cases hrest : c.rest with
    | nil => simp [skip_of_nil hrest]
    | cons =>
      rw [skip_cons hrest, ih, Position.after_index, List.length_cons]
      dsimp only
      omega

theorem line_skip (c : Cursor) (n : Nat) : c.position.line ≤ (c.skip n).position.line := by
  induction n generalizing c with
  | zero => exact le_rfl
  | succ n ih =>
    cases hrest : c.rest with
    | nil => rw [skip_of_nil hrest]
    | cons =>
      rw [skip_cons hrest]
      refine le_trans ?_ (ih _)
      unfold Position.after
      split
      · exact Nat.le_succ _
      · exact le_rfl

theorem skip_skip (c : Cursor) (m n : Nat) : (c.skip m).skip n = c.skip (m + n) := by
  induction m generalizing c with
  | zero => simp
  | succ m ih =>
    cases hrest : c.rest with
    | nil => rw [skip_of_nil hrest, skip_of_nil hrest, skip_of_nil hrest]
    | cons => rw [skip_cons hrest, ih, Nat.add_right_comm, skip_cons hrest]

/-! ### One step -/

variable {mode : Encoding} {c next : Cursor} {d : Diagnostic} {t : Token} {eof : Token}

theorem trivia_of_done (h : c.scan mode = .done eof next) :
    ∃ n, Trivia.read c.rest = .clear n ∧ next = c.skip n ∧ (c.skip n).rest = [] ∧ eof = Token.eof next.position := by
  unfold scan place at h
  split at h
  · exact Scan.noConfusion h
  next length hread =>
    dsimp only at h
    split at h
    next hrest =>
      cases h
      exact ⟨length, hread, rfl, hrest, rfl⟩
    next => split at h <;> exact Scan.noConfusion h

theorem scan_done (h : c.scan mode = .done eof next) :
    next.rest = [] ∧ eof = Token.eof next.position ∧ ∃ n, next = c.skip n := by
  obtain ⟨n, -, rfl, hrest, heof⟩ := trivia_of_done h
  exact ⟨hrest, heof, n, rfl⟩

theorem scan_fault (h : c.scan mode = .fault d next) : ∃ n, next = c.skip n := by
  unfold scan place at h
  split at h
  · cases h
    exact ⟨_, rfl⟩
  next length hread =>
    dsimp only at h
    split at h
    · exact Scan.noConfusion h
    · split at h
      · exact Scan.noConfusion h
      · cases h
        exact ⟨_, skip_skip c length _⟩

theorem scan_token (h : c.scan mode = .token t next) :
    ∃ n ch rest, Trivia.read c.rest = .clear n ∧ (c.skip n).rest = ch :: rest ∧
      ∃ lexeme text, lexeme = Lexeme.read mode (c.skip n).position.line (c.skip n).fresh ch rest ∧
        lexeme.outcome = .ok (t.kind, text) ∧ t.text = String.ofList text ∧
        next = (c.skip n).skip (lexeme.more + 1) ∧ t.span = (c.skip n).spanTo next := by
  unfold scan place at h
  split at h
  · exact Scan.noConfusion h
  next length hread =>
    dsimp only at h
    split at h
    · exact Scan.noConfusion h
    next ch rest hrest =>
      split at h
      next kind text houtcome =>
        cases h
        exact ⟨length, ch, rest, hread, hrest, _, text, rfl, houtcome, rfl, rfl, rfl⟩
      next => exact Scan.noConfusion h

theorem scan_token_next (h : c.scan mode = .token t next) : ∃ n, next = c.skip n := by
  obtain ⟨n, _, _, _, _, lexeme, _, _, _, _, hnext, _⟩ := scan_token h
  exact ⟨n + (lexeme.more + 1), by rw [hnext, skip_skip]⟩

theorem length_lt_of_scan_token (h : c.scan mode = .token t next) : next.rest.length < c.rest.length := by
  have hmoves := c.moves_scan mode
  rwa [h] at hmoves

theorem length_lt_of_scan_fault (h : c.scan mode = .fault d next) :
    next.rest.length < c.rest.length := by
  have hmoves := c.moves_scan mode
  rwa [h] at hmoves

theorem scan_nil (h : c.rest = []) : c.scan mode = .done (Token.eof c.position) c := by
  unfold scan
  rw [h, Trivia.read_nil]
  simp [h]

/-! ### All steps -/

theorem scan_induction (mode : Encoding) {motive : Cursor → Prop}
    (done : ∀ c eof next, c.scan mode = .done eof next → motive c)
    (token : ∀ c t next, c.scan mode = .token t next → motive next → motive c)
    (fault : ∀ c d next, c.scan mode = .fault d next → motive next → motive c) (c : Cursor) : motive c := by
  induction hn : c.rest.length using Nat.strong_induction_on generalizing c with
  | _ n ih =>
    subst hn
    cases h : c.scan mode with
    | done eof next => exact done c eof next h
    | token t next => exact token c t next h (ih _ (length_lt_of_scan_token h) next rfl)
    | fault d next => exact fault c d next h (ih _ (length_lt_of_scan_fault h) next rfl)

theorem tokens_of_done (h : c.scan mode = .done eof next) : c.tokens mode = .ok [eof] := by
  rw [tokens]
  split <;> simp_all

theorem tokens_of_token (h : c.scan mode = .token t next) :
    c.tokens mode = (next.tokens mode).map (t :: ·) := by
  rw [tokens]
  split <;> simp_all

theorem tokens_of_fault (h : c.scan mode = .fault d next) : c.tokens mode = .error d := by
  rw [tokens]
  split <;> simp_all

theorem tokens_induction {motive : ∀ (c : Cursor) (ts : List Token), c.tokens mode = .ok ts → Prop}
    (done : ∀ c eof next (hscan : c.scan mode = .done eof next), motive c [eof] (tokens_of_done hscan))
    (token : ∀ c t next others (hscan : c.scan mode = .token t next) (hothers : next.tokens mode = .ok others),
      motive next others hothers → motive c (t :: others) (by rw [tokens_of_token hscan, hothers]; rfl))
    (c : Cursor) (ts : List Token) (h : c.tokens mode = .ok ts) : motive c ts h := by
  induction c using scan_induction mode generalizing ts with
  | done c eof next hscan =>
    obtain rfl := Except.ok.inj ((tokens_of_done hscan).symm.trans h)
    exact done c eof next hscan
  | token c t next hscan ih =>
    cases hothers : next.tokens mode with
    | error =>
      rw [tokens_of_token hscan, hothers] at h
      cases h
    | ok others =>
      obtain rfl : t :: others = ts := by
        rw [tokens_of_token hscan, hothers] at h
        exact Except.ok.inj h
      exact token c t next others hscan hothers (ih others hothers)
  | fault c d next hscan =>
    rw [tokens_of_fault hscan] at h
    cases h

theorem nextToken_of_done (h : c.scan mode = .done eof next) : c.nextToken mode = (eof, next) := by
  rw [nextToken]
  split <;> simp_all

theorem nextToken_of_token (h : c.scan mode = .token t next) : c.nextToken mode = (t, next) := by
  rw [nextToken]
  split <;> simp_all

theorem nextToken_of_fault (h : c.scan mode = .fault d next) :
    c.nextToken mode = next.nextToken mode := by
  rw [nextToken]
  split <;> simp_all

end Cursor

end CartLua
