import CartLua.Proofs.Scan
/-!
# What lexemes are

The kinds of token that a lexeme can become, with what is known about the text of each, and the faults that it can have.
-/

namespace CartLua

open List

namespace Lexeme

variable {mode : Encoding} {line more : Nat} {fresh : Bool} {c : Char} {rest text : List Char} {kind : TokenKind}
  {lexeme : Lexeme}

/-- How a token that starts `source` comes about. -/
inductive Reading (source text : List Char) (more : Nat) : TokenKind → Prop where
  | string (value : Option String) : Reading source text more (.string value)
  | number (value : Float) : Reading source text more (.number value)
  | directive : Reading source text more .directive
  | word (hlength : text.length = more + 1) (hle : more + 1 ≤ source.length)
    (hname : ∀ ch ∈ text, continuesName ch = true) : Reading source text more (wordKind text)
  | vararg (h : text = ['.', '.', '.']) : Reading source text more .vararg
  | symbol (s : Symbol) (h : more + 1 = s.chars.length) : Reading source text more (.symbol s)

theorem reading_quoted {quote : Char} (h : (quoted mode quote rest).outcome = .ok (kind, text)) :
    ∃ value, kind = .string value := by
  unfold quoted at h
  split at h
  · cases h
  · cases h
  · cases h
    exact ⟨_, rfl⟩

theorem reading_longString {level : Nat} (h : (longString mode line level rest).outcome = .ok (kind, text)) :
    ∃ value, kind = .string value := by
  unfold longString at h
  split at h
  · cases h
  · split at h
    · cases h
    · cases h
      exact ⟨_, rfl⟩

theorem reading_numeral {chars : List Char} (h : (numeral chars).outcome = .ok (kind, text)) :
    ∃ value, kind = .number value := by
  unfold numeral at h
  split at h
  · cases h
    exact ⟨_, rfl⟩
  · cases h

theorem reading_word (hstarts : startsName c = true) (h : (word c rest).outcome = .ok (kind, text)) :
    Reading (c :: rest) text (word c rest).more kind := by
  have hwhile := takeWhile_prefix continuesName (l := rest)
  have hle := hwhile.length_le
  cases h
  refine .word ?_ (Nat.succ_le_succ hle) ?_
  · rw [length_take, length_cons]
    exact Nat.min_eq_left (Nat.succ_le_succ hle)
  · intro ch hch
    rw [take_succ_cons, ← prefix_iff_eq_take.mp hwhile] at hch
    rcases mem_cons.mp hch with rfl | hch
    · unfold continuesName
      rw [hstarts, Bool.true_or]
    · exact all_eq_true.mp all_takeWhile ch hch

theorem reading_sign (hread : lexeme = sign c rest) (h : lexeme.outcome = .ok (kind, text)) :
    Reading (c :: rest) text lexeme.more kind := by
  unfold sign at hread
  split at hread
  next hdots =>
    subst hread
    cases h
    obtain ⟨behind, hbehind⟩ := isPrefixOf_iff_prefix.mp hdots
    refine .vararg ?_
    rw [← hbehind]
    rfl
  · split at hread
    next s _ =>
      subst hread
      cases h
      exact .symbol s (by cases s <;> rfl)
    · subst hread
      cases h

theorem reading_read (hread : lexeme = read mode line fresh c rest)
    (h : lexeme.outcome = .ok (kind, text)) : Reading (c :: rest) text lexeme.more kind := by
  unfold read at hread
  split at hread
  · subst hread
    obtain ⟨value, rfl⟩ := reading_quoted h
    exact .string value
  split at hread
  · subst hread
    obtain ⟨value, rfl⟩ := reading_numeral h
    exact .number value
  split at hread
  · subst hread
    obtain ⟨value, rfl⟩ := reading_longString h
    exact .string value
  split at hread
  · subst hread
    cases h
    exact .directive
  split at hread
  next hstarts =>
    subst hread
    exact reading_word hstarts h
  · exact reading_sign hread h

theorem wordKind_cases (word : List Char) :
    (∃ value, wordKind word = .boolean value) ∨ wordKind word = .nil ∨ (∃ k, wordKind word = .keyword k) ∨
      wordKind word = .identifier := by
  unfold wordKind
  split
  · exact .inl ⟨true, rfl⟩
  · exact .inl ⟨false, rfl⟩
  · exact .inr (.inl rfl)
  · split
    · exact .inr (.inr (.inl ⟨_, rfl⟩))
    · exact .inr (.inr (.inr rfl))

end Lexeme

end CartLua
