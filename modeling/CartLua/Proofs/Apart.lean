import CartLua.Proofs.Lexeme
import Mathlib.Data.List.TakeWhile
/-!
# Lexemes before a blank

Where a text ends, a lexeme ends at the latest, and it also ends at a blank or at a line end unless it is a string or a
line as a whole. So a lexeme is read in the same way from a text that is cut off behind it, alone or with a blank or a new
line behind the cut.
-/

namespace CartLua

open List hiding length

/-- Nothing, or a blank or a line end before anything else. -/
def IsApart (behind : List Char) : Prop := ∀ c ∈ behind.head?, c = ' ' ∨ c = '\n'

theorem isApart_nil : IsApart [] := by
  intro c hc
  cases hc

theorem isApart_blank (rest : List Char) : IsApart (' ' :: rest) := by
  intro c hc
  cases hc
  exact .inl rfl

theorem isApart_newline (rest : List Char) : IsApart ('\n' :: rest) := by
  intro c hc
  cases hc
  exact .inr rfl

variable {behind : List Char}

theorem IsApart.cases (h : IsApart behind) :
    behind = [] ∨ ∃ gap rest, (gap = ' ' ∨ gap = '\n') ∧ behind = gap :: rest := by
  cases behind with
  | nil => exact .inl rfl
  | cons c rest => exact .inr ⟨c, rest, h c rfl, rfl⟩

/-- The first `n` characters of `text`, with nothing, a blank or a line end behind them. -/
inductive IsCut : (n : Nat) → (text cut : List Char) → Prop where
  | here {behind : List Char} (h : IsApart behind) (text : List Char) : IsCut 0 text behind
  | cons {n : Nat} {text cut : List Char} (c : Char) (h : IsCut n text cut) : IsCut (n + 1) (c :: text) (c :: cut)

namespace IsCut

variable {n k : Nat} {p : Char → Bool} {text cut behind mark : List Char}

theorem append (h : IsApart behind) (text : List Char) : IsCut text.length text (text ++ behind) := by
  induction text with
  | nil => exact .here h []
  | cons c text ih => exact .cons c ih

theorem take (h : n ≤ text.length) : IsCut n text (text.take n) := by
  induction text generalizing n with
  | nil =>
    obtain rfl := Nat.le_zero.mp h
    exact .here isApart_nil []
  | cons c text ih =>
    cases n with
    | zero => exact .here isApart_nil _
    | succ => exact .cons c (ih (Nat.le_of_succ_le_succ h))

variable (h : IsCut n text cut)

include h

theorem drop (hk : k ≤ n) : IsCut (n - k) (text.drop k) (cut.drop k) := by
  induction k generalizing n text cut with
  | zero => exact h
  | succ k ih =>
    cases h with
    | here => cases hk
    | cons c h =>
      rw [Nat.succ_sub_succ]
      exact ih h (Nat.le_of_succ_le_succ hk)

variable {rest : List Char} {c : Char}

theorem drop_eq_cons (hk : k < n) (hdrop : text.drop k = c :: rest) :
    ∃ more, cut.drop k = c :: more ∧ IsCut (n - k - 1) rest more := by
  have hcut := h.drop hk.le
  rw [hdrop] at hcut
  generalize hleft : n - k = left at hcut ⊢
  generalize cut.drop k = behind at hcut ⊢
  cases hcut with
  | here => omega
  | cons _ hcut => exact ⟨_, rfl, hcut⟩

theorem take_eq (hk : k ≤ n) : cut.take k = text.take k := by
  induction h generalizing k with
  | here => rw [Nat.le_zero.mp hk, take_zero, take_zero]
  | cons c h ih =>
    cases k with
    | zero => rfl
    | succ => rw [take_succ_cons, take_succ_cons, ih (Nat.le_of_succ_le_succ hk)]

theorem head?_eq (hn : 0 < n) : cut.head? = text.head? := by
  cases h with
  | here => cases hn
  | cons => rfl

theorem head_any (hp : p ' ' = false ∧ p '\n' = false) (hcut : cut.head?.any p = true) :
    text.head?.any p = true := by
  cases h with
  | here h =>
    obtain rfl | ⟨gap, rest, rfl | rfl, rfl⟩ := h.cases <;> simp [hp] at hcut
  | cons => exact hcut

theorem takeWhile_eq (hp : p ' ' = false ∧ p '\n' = false) (hn : (text.takeWhile p).length ≤ n) :
    cut.takeWhile p = text.takeWhile p := by
  induction h with
  | here h =>
    rw [eq_nil_of_length_eq_zero (Nat.le_zero.mp hn)]
    obtain rfl | ⟨gap, rest, rfl | rfl, rfl⟩ := h.cases
    · rfl
    · simp [hp]
    · simp [hp]
  | cons c h ih =>
    rw [takeWhile_cons] at hn
    rw [takeWhile_cons, takeWhile_cons]
    split at hn
    next hc => rw [if_pos hc, if_pos hc, ih (Nat.le_of_succ_le_succ hn)]
    next hc => rw [if_neg hc, if_neg hc]

theorem takeWhile_of_lt (hn : (text.takeWhile p).length < n) :
    cut.takeWhile p = text.takeWhile p := by
  induction h with
  | here => cases hn
  | cons c h ih =>
    rw [takeWhile_cons] at hn
    rw [takeWhile_cons, takeWhile_cons]
    split at hn
    next hc => rw [if_pos hc, if_pos hc, ih (Nat.lt_of_succ_lt_succ hn)]
    next hc => rw [if_neg hc, if_neg hc]

theorem prefix_of_cut (hmark : ' ' ∉ mark ∧ '\n' ∉ mark) (hcut : mark.isPrefixOf cut = true) :
    mark.length ≤ n ∧ mark.isPrefixOf text = true := by
  induction h generalizing mark with
  | here h =>
    cases mark with
    | nil => exact ⟨le_rfl, rfl⟩
    | cons =>
      obtain rfl | ⟨gap, rest, hgap, rfl⟩ := h.cases
      · cases hcut
      · obtain rfl := (cons_prefix_cons.mp (List.isPrefixOf_iff_prefix.mp hcut)).1
        obtain rfl | rfl := hgap <;> simp at hmark
  | cons c h ih =>
    cases mark with
    | nil => exact ⟨Nat.zero_le _, rfl⟩
    | cons =>
      simp only [isPrefixOf_cons_cons, Bool.and_eq_true, mem_cons, not_or] at hcut hmark ⊢
      obtain ⟨hlength, hprefix⟩ := ih ⟨hmark.1.2, hmark.2.2⟩ hcut.2
      exact ⟨Nat.succ_le_succ hlength, hcut.1, hprefix⟩

theorem isPrefixOf_eq (hmark : ' ' ∉ mark ∧ '\n' ∉ mark)
    (hn : mark.isPrefixOf text = true → mark.length ≤ n) : mark.isPrefixOf cut = mark.isPrefixOf text := by
  rw [Bool.eq_iff_iff]
  refine ⟨fun hcut => (h.prefix_of_cut hmark hcut).2, fun htext => ?_⟩
  have htake := h.take_eq (hn htext)
  rw [List.isPrefixOf_iff_prefix, prefix_iff_eq_take] at htext ⊢
  rw [htake, ← htext]

end IsCut

variable {text : List Char}

theorem takeWhile_append_of_length {p : Char → Bool} (h : (text.takeWhile p).length < text.length)
    (behind : List Char) : (text ++ behind).takeWhile p = text.takeWhile p := by
  rw [takeWhile_append, if_neg h.ne]

/-! ### Numerals -/

namespace Numeral

variable {fraction : List Nat}

variable {value : Float}

variable {n m base : Nat} {text cut : List Char} {small capital : Char}

theorem digit?_gap (radix : Nat) {gap : Char} (h : gap = ' ' ∨ gap = '\n') : digit? radix gap = none := by
  obtain rfl | rfl := h <;> simp [digit?]

theorem digits_apart (h : IsApart behind) (radix : Nat) : digits radix behind = [] := by
  obtain rfl | ⟨gap, rest, hgap, rfl⟩ := h.cases
  · rfl
  · rw [digits, digit?_gap _ hgap]

variable (h : IsCut n text cut)

include h

theorem take_digits_cut {k : Nat} (hn : ((digits base text).take k).length ≤ n) :
    (digits base cut).take k = (digits base text).take k := by
  induction h generalizing k with
  | here h => rw [eq_nil_of_length_eq_zero (Nat.le_zero.mp hn), digits_apart h, take_nil]
  | cons c h ih =>
    rw [digits] at hn
    rw [digits, digits]
    cases hd : digit? base c with
    | none => rfl
    | some =>
      rw [hd] at hn
      cases k with
      | zero => rfl
      | succ => rw [take_succ_cons, take_succ_cons, ih (Nat.le_of_succ_le_succ hn)]

theorem digits_cut (hn : (digits base text).length ≤ n) : digits base cut = digits base text := by
  have htake := take_digits_cut (k := (digits base cut).length + (digits base text).length) h
    ((List.take_prefix ..).length_le.trans hn)
  rwa [take_of_length_le (Nat.le_add_right ..), take_of_length_le (Nat.le_add_left ..)] at htake

omit h in
theorem length_digits (radix : Nat) (text : List Char) : (digits radix text).length ≤ text.length := by
  induction text with
  | nil => rfl
  | cons c text ih =>
    rw [digits]
    split
    · exact Nat.succ_le_succ ih
    · exact Nat.zero_le _

theorem fraction?_cut_of_some (hsome : fraction? base text = some fraction)
    (hn : fraction.length + 1 ≤ n) : fraction? base cut = some fraction := by
  unfold fraction? at hsome
  split at hsome
  · cases hsome
    cases h with
    | here => cases hn
    | cons _ h => rw [fraction?, digits_cut h (Nat.le_of_succ_le_succ hn)]
  · cases hsome

theorem fraction?_cut_of_none (hnone : fraction? base text = none) : fraction? base cut = none := by
  cases h with
  | here h => obtain rfl | ⟨gap, rest, rfl | rfl, rfl⟩ := h.cases <;> simp [fraction?]
  | cons c =>
    by_cases hc : c = '.'
    · subst hc
      cases hnone
    · simp [fraction?, hc]

omit h in
theorem length_fraction? {radix : Nat} (h : fraction? radix text = some fraction) :
    1 + fraction.length ≤ text.length := by
  unfold fraction? at h
  split at h
  next rest =>
    cases h
    have := length_digits radix rest
    simp only [length_cons]
    omega
  · cases h

omit h in
theorem mantissa_cut (base : Nat) (h : IsCut n text cut) (hn : (mantissa base text).2.2 ≤ n) :
    mantissa base cut = mantissa base text := by
  unfold mantissa at hn ⊢
  dsimp only at hn ⊢
  cases hfraction : fraction? base (text.drop (digits base text).length) with
  | none =>
    rw [hfraction] at hn
    rw [digits_cut h hn, fraction?_cut_of_none (h.drop hn) hfraction]
  | some =>
    rw [hfraction] at hn
    dsimp only at hn
    rw [digits_cut h (by omega), fraction?_cut_of_some (h.drop (by omega)) hfraction (by omega)]

omit h in
theorem length_mantissa (radix : Nat) (text : List Char) : (mantissa radix text).2.2 ≤ text.length := by
  have hwhole := length_digits radix text
  unfold mantissa
  dsimp only
  split
  next fraction hfraction =>
    have hbehind := length_fraction? hfraction
    rw [length_drop] at hbehind
    dsimp only
    omega
  · exact hwhole

theorem exponent?_cut_of_some {e : Int} (hsome : exponent? small capital text = some (some e, m))
    (hn : m ≤ n) : exponent? small capital cut = some (some e, m) := by
  cases h with
  | here =>
    cases text with
    | nil => cases hsome
    | cons =>
      rw [exponent?] at hsome
      split at hsome
      · have hlength := (Prod.mk.inj (Option.some.inj hsome)).2
        split at hlength <;> omega
      · cases hsome
  | @cons n rest cut c h =>
    rw [exponent?] at hsome
    split at hsome
    next hletter =>
      obtain ⟨hvalue, rfl⟩ := Prod.mk.inj (Option.some.inj hsome)
      -- Digits are there, so that the character behind the letter belongs to the exponent.
      have hpos : 0 < (digits 10 (if (rest.head? == some '-' || rest.head? == some '+') then rest.drop 1 else rest)).length := by
        rw [length_pos_iff]
        intro hnil
        rw [hnil] at hvalue
        cases hvalue
      have hhead : cut.head? = rest.head? := by
        refine h.head?_eq ?_
        generalize (digits 10 _).length = length at hn hpos
        split at hn <;> omega
      have hdigits : digits 10 (if (rest.head? == some '-' || rest.head? == some '+') then cut.drop 1 else cut) =
          digits 10 (if (rest.head? == some '-' || rest.head? == some '+') then rest.drop 1 else rest) := by
        cases hsign : rest.head? == some '-' || rest.head? == some '+' with
        | true =>
          simp only [hsign, if_true] at hn hpos ⊢
          exact digits_cut (h.drop (by omega)) (by omega)
        | false =>
          simp only [hsign, Bool.false_eq_true, if_false] at hn ⊢
          exact digits_cut h (by omega)
      rw [exponent?, if_pos hletter]
      simp only [hhead, hdigits]
      rw [hvalue]
    · cases hsome

theorem exponent?_cut_of_none (hsmall : small ≠ ' ' ∧ small ≠ '\n')
    (hcapital : capital ≠ ' ' ∧ capital ≠ '\n') (hnone : exponent? small capital text = none) :
    exponent? small capital cut = none := by
  cases h with
  | here h =>
    obtain rfl | ⟨gap, rest, rfl | rfl, rfl⟩ := h.cases
    · rfl
    · rw [exponent?, if_neg (not_or.mpr ⟨hsmall.1.symm, hcapital.1.symm⟩)]
    · rw [exponent?, if_neg (not_or.mpr ⟨hsmall.2.symm, hcapital.2.symm⟩)]
  | cons =>
    rw [exponent?] at hnone
    split at hnone
    · cases hnone
    next hletter => rw [exponent?, if_neg hletter]

theorem decimal_cut (hread : decimal text = (some value, m)) (hn : m ≤ n) : decimal cut = (some value, m) := by
  unfold decimal at hread ⊢
  rcases hparts : mantissa 10 text with ⟨whole, fraction, length⟩
  have hmantissa := mantissa_cut 10 h
  rw [hparts] at hread hmantissa
  dsimp only at hread hmantissa
  split at hread
  next hexponent =>
    obtain ⟨-, rfl⟩ := Prod.mk.inj hread
    rw [hmantissa hn]
    dsimp only
    rw [exponent?_cut_of_none (h.drop hn) (by decide) (by decide) hexponent]
    exact hread
  · cases hread
  next e more hexponent =>
    obtain ⟨-, rfl⟩ := Prod.mk.inj hread
    rw [hmantissa (by omega)]
    dsimp only
    rw [exponent?_cut_of_some (h.drop (by omega)) hexponent (by omega)]
    exact hread

theorem radix_cut {exponents : Bool}
    (hread : radix base exponents text = (some value, m)) (hn : m ≤ n) : radix base exponents cut = (some value, m) := by
  unfold radix at hread ⊢
  rcases hparts : mantissa base text with ⟨whole, fraction, length⟩
  have hmantissa := mantissa_cut base h
  rw [hparts] at hread hmantissa
  dsimp only at hread hmantissa
  split at hread
  · cases hread
  next hdigits =>
    split at hread
    next hexponent =>
      obtain ⟨-, rfl⟩ := Prod.mk.inj hread
      rw [hmantissa hn]
      dsimp only
      rw [if_neg hdigits]
      cases exponents with
      | false => exact hread
      | true =>
        rw [exponent?_cut_of_none (h.drop hn) (by decide) (by decide) hexponent]
        exact hread
    · cases hread
    next e more hexponent =>
      obtain ⟨-, rfl⟩ := Prod.mk.inj hread
      cases exponents with
      | false => cases hexponent
      | true =>
        rw [hmantissa (by omega)]
        dsimp only
        rw [if_neg hdigits, if_pos rfl, exponent?_cut_of_some (h.drop (by omega)) hexponent (by omega)]
        exact hread

omit h

variable {length : Nat} {small capital : Char}

theorem length_exponent? {value : Option Int}
    (h : exponent? small capital text = some (value, length)) : length ≤ text.length := by
  cases text with
  | nil => cases h
  | cons c text =>
    rw [exponent?] at h
    split at h
    · obtain ⟨-, rfl⟩ := Prod.mk.inj (Option.some.inj h)
      cases text with
      | nil => simp [digits]
      | cons d text =>
        split
        · have := length_digits 10 text
          simp only [drop_succ_cons, drop_zero, length_cons]
          omega
        · have := length_digits 10 (d :: text)
          simp only [length_cons] at this ⊢
          omega
    · cases h

theorem length_exponent_behind {value : Option Int} {more : Nat}
    (hlength : length ≤ text.length) (h : exponent? small capital (text.drop length) = some (value, more)) :
    length + more ≤ text.length := by
  have hmore := length_exponent? h
  rw [length_drop] at hmore
  omega

theorem length_decimal (text : List Char) : (decimal text).2 ≤ text.length := by
  have hmantissa := length_mantissa 10 text
  unfold decimal
  rcases hparts : mantissa 10 text with ⟨whole, fraction, length⟩
  rw [hparts] at hmantissa
  dsimp only at hmantissa ⊢
  split
  · exact hmantissa
  next more hexponent => exact length_exponent_behind hmantissa hexponent
  next e more hexponent => exact length_exponent_behind hmantissa hexponent

theorem length_radix (base : Nat) (exponents : Bool) (text : List Char) : (radix base exponents text).2 ≤ text.length := by
  have hmantissa := length_mantissa base text
  unfold radix
  rcases hparts : mantissa base text with ⟨whole, fraction, length⟩
  rw [hparts] at hmantissa
  dsimp only at hmantissa ⊢
  split
  · exact hmantissa
  · cases exponents with
    | false => exact hmantissa
    | true =>
      split
      · exact hmantissa
      next more hexponent => exact length_exponent_behind hmantissa hexponent
      next e more hexponent => exact length_exponent_behind hmantissa hexponent

theorem length_read (text : List Char) : (read text).2 ≤ text.length := by
  unfold read
  split
  next c rest =>
    have hhexadecimal := length_radix 16 true rest
    have hbinary := length_radix 2 false rest
    split
    · simpa using hhexadecimal
    · split
      · simpa using hbinary
      · exact length_decimal _
  · exact length_decimal text

theorem read_eq_decimal (h : ∀ c rest, text = '0' :: c :: rest → ¬(c = 'x' ∨ c = 'X') ∧ ¬(c = 'b' ∨ c = 'B')) :
    read text = decimal text := by
  unfold read
  split
  next c rest =>
    obtain ⟨hhexadecimal, hbinary⟩ := h c rest rfl
    rw [if_neg hhexadecimal, if_neg hbinary]
  · rfl

theorem read_cut (h : IsCut n text cut) (hread : read text = (some value, m)) (hn : m ≤ n) :
    read cut = (some value, m) := by
  by_cases hmark : ∃ c rest, text = '0' :: c :: rest ∧ ((c = 'x' ∨ c = 'X') ∨ (c = 'b' ∨ c = 'B'))
  · obtain ⟨c, rest, rfl, hc⟩ := hmark
    have hmore : ∀ k, k + 2 ≤ n → ∃ more, cut = '0' :: c :: more ∧ IsCut (n - 2) rest more := by
      intro k hk
      obtain ⟨behind, hbehind, hcut⟩ := h.drop_eq_cons (k := 0) (by omega) rfl
      obtain ⟨more, hmore, hcut⟩ := hcut.drop_eq_cons (k := 0) (by omega) rfl
      exact ⟨more, by rw [drop_zero] at hbehind hmore; rw [hbehind, hmore], hcut⟩
    rw [read] at hread
    split at hread
    next hhexadecimal =>
      rcases hradix : radix 16 true rest with ⟨found, length⟩
      rw [hradix] at hread
      cases hread
      obtain ⟨more, rfl, hcut⟩ := hmore length hn
      rw [read, if_pos hhexadecimal, radix_cut hcut hradix (by omega)]
    next hhexadecimal =>
      have hbinary := hc.resolve_left hhexadecimal
      rcases hradix : radix 2 false rest with ⟨found, length⟩
      rw [if_pos hbinary, hradix] at hread
      cases hread
      obtain ⟨more, rfl, hcut⟩ := hmore length hn
      rw [read, if_neg hhexadecimal, if_pos hbinary, radix_cut hcut hradix (by omega)]
  · have hplain : ∀ c rest, text = '0' :: c :: rest → ¬(c = 'x' ∨ c = 'X') ∧ ¬(c = 'b' ∨ c = 'B') :=
      fun c rest htext => not_or.mp fun hc => hmark ⟨c, rest, htext, hc⟩
    rw [read_eq_decimal hplain] at hread
    rw [read_eq_decimal, decimal_cut h hread hn]
    -- A mark that stands in the cut stands in the text.
    rintro c rest rfl
    rw [← not_or]
    intro hc
    have hmarked : ['0', c].isPrefixOf text = true := by
      refine (h.prefix_of_cut ?_ (List.isPrefixOf_iff_prefix.mpr ⟨rest, rfl⟩)).2
      obtain (rfl | rfl) | rfl | rfl := hc <;> decide
    obtain ⟨behind, rfl⟩ := isPrefixOf_iff_prefix.mp hmarked
    exact absurd hc (not_or.mpr (hplain c behind rfl))

end Numeral

/-! ### Quoted strings -/

namespace Escape

variable {n : Nat} {text cut : List Char}

theorem hexByte_cut (h : IsCut n text cut) (hn : (hexByte text).2 < n) : hexByte cut = hexByte text := by
  cases h with
  | here => cases hn
  | cons c h =>
    cases h with
    | cons => rfl
    | here =>
      -- Only the first character is shared, so that it is no digit.
      cases hd : Numeral.digit? 16 c with
      | none => simp [hexByte, hd]
      | some =>
        simp only [hexByte, head?_cons, Option.bind_some, hd] at hn
        split at hn <;> simp_all

theorem codePoint_cut (h : IsCut n text cut) (hn : (codePoint text).2 < n) : codePoint cut = codePoint text := by
  cases h with
  | here => cases hn
  | @cons n text cut c h =>
    by_cases hc : c = '{'
    · subst hc
      have hlength : (Numeral.digits 16 text).length < n := by
        rw [codePoint] at hn
        split at hn
        · exact Nat.lt_of_succ_lt_succ hn
        · split at hn <;> exact Nat.lt_of_succ_lt (Nat.lt_of_succ_lt_succ hn)
      have hdigits := Numeral.digits_cut h hlength.le
      have hhead := (h.drop hlength.le).head?_eq (Nat.sub_pos_of_lt hlength)
      simp only [codePoint, hdigits, hhead]
    · simp [codePoint, hc]

theorem read_cut (h : IsCut n text cut) (hn : (read text).2 < n) : read cut = read text := by
  cases h with
  | here => cases hn
  | @cons n text cut c h =>
    rw [read] at hn
    rw [read, read]
    cases hnamed : named? c with
    | some => rfl
    | none =>
      rw [hnamed] at hn
      dsimp only at hn ⊢
      split at hn
      next hz => rw [if_pos hz, if_pos hz, h.takeWhile_of_lt (Nat.lt_of_succ_lt_succ hn)]
      next hz =>
        rw [if_neg hz, if_neg hz]
        split at hn
        next hx => rw [if_pos hx, if_pos hx, hexByte_cut h (Nat.lt_of_succ_lt_succ hn)]
        next hx =>
          rw [if_neg hx, if_neg hx]
          split at hn
          next hdigit =>
            rw [if_pos hdigit, if_pos hdigit, decimalByte, decimalByte, Numeral.take_digits_cut (h.cons c) hn.le]
          next hdigit =>
            rw [if_neg hdigit, if_neg hdigit]
            split at hn
            next hu => rw [if_pos hu, if_pos hu, codePoint_cut h (Nat.lt_of_succ_lt_succ hn)]
            next hu => rw [if_neg hu, if_neg hu]

theorem length_hexByte (text : List Char) : (hexByte text).2 ≤ text.length := by
  unfold hexByte
  cases text with
  | nil => exact le_rfl
  | cons hi rest =>
    cases rest <;> split <;> simp_all

theorem length_codePoint (text : List Char) : (codePoint text).2 ≤ text.length := by
  unfold codePoint
  split
  next rest =>
    have hdigits := Numeral.length_digits 16 rest
    rw [length_cons]
    dsimp only
    split
    · dsimp only
      omega
    next hclosed =>
      -- The closing brace stands behind the digits.
      have hlt : (Numeral.digits 16 rest).length < rest.length := by
        by_contra hend
        simp [drop_eq_nil_of_le (Nat.le_of_not_lt hend)] at hclosed
      split <;> dsimp only <;> omega
  · exact Nat.zero_le _

theorem length_read (text : List Char) : (read text).2 ≤ text.length := by
  unfold read
  split
  · exact le_rfl
  next c rest =>
    rw [length_cons]
    split
    · exact Nat.le_add_left 1 _
    split
    · exact Nat.succ_le_succ (List.takeWhile_prefix _).length_le
    split
    · exact Nat.succ_le_succ (length_hexByte rest)
    split
    · exact (length_take_le' ..).trans (Numeral.length_digits 10 (c :: rest))
    split
    · exact Nat.succ_le_succ (length_codePoint rest)
    split <;> exact Nat.le_add_left 1 _

end Escape

namespace Quoted

variable {mode : Encoding} {quote : Char} {n offset stop : Nat} {text cut value : List Char} {flaw : Option Flaw}
  {run : List Char}

theorem cons_eq_closed {part : List Char} {first : Option Flaw} {later : Quoted}
    (h : cons part first later = .closed stop value flaw) : ∃ value flaw, later = .closed stop value flaw := by
  cases later with
  | unfinished => cases h
  | closed offset value flaw =>
    cases h
    exact ⟨value, flaw, rfl⟩

theorem stop_bounds (h : read mode quote offset text = .closed stop value flaw) :
    offset < stop ∧ stop ≤ offset + text.length := by
  fun_induction read mode quote offset text generalizing stop value flaw with
  | case1 => cases h
  | case2 offset text run reached rest escape length =>
    rename_i hdrop ih
    obtain ⟨_, _, h⟩ := cons_eq_closed h
    obtain ⟨_, _, h⟩ := cons_eq_closed h
    have hlater := ih h
    have hlength := congrArg List.length hdrop
    simp only [List.length_drop, List.length_cons] at hlater hlength
    omega
  | case3 offset text run reached rest =>
    rename_i hdrop _
    cases h
    have hlength := congrArg List.length hdrop
    simp only [List.length_drop, List.length_cons] at hlength
    omega
  | case4 => cases h

theorem unfinished_le (h : read mode quote offset text = .unfinished stop) : stop ≤ offset + text.length := by
  have hcons : ∀ part first later, cons part first later = .unfinished stop → later = .unfinished stop := by
    intro part first later hlater
    cases later <;> cases hlater
    rfl
  fun_induction read mode quote offset text generalizing stop with
  | case1 offset text run reached =>
    cases h
    exact Nat.add_le_add_left (List.takeWhile_prefix _).length_le _
  | case2 offset text run reached rest escape length =>
    rename_i hread near hdrop ih
    have hlater := ih (hcons _ _ _ (hcons _ _ _ h)) hcons
    have hlength := congrArg List.length hdrop
    have hescape := Escape.length_read rest
    rw [hread] at hescape
    simp only [List.length_drop, List.length_cons] at hlater hlength hescape
    omega
  | case3 => cases h
  | case4 =>
    cases h
    exact Nat.add_le_add_left (List.takeWhile_prefix _).length_le _

theorem flaw_bounds {flaw : Flaw} (h : read mode quote offset text = .closed stop value (some flaw)) :
    flaw.start ≤ flaw.stop ∧ flaw.stop ≤ stop := by
  have hrun : ∀ run reached flaw, runFlaw? mode run reached = some flaw → flaw.start = 0 ∧ flaw.stop = reached := by
    intro run reached flaw hflaw
    obtain ⟨c, -, rfl⟩ := Option.map_eq_some_iff.mp hflaw
    exact ⟨rfl, rfl⟩
  fun_induction read mode quote offset text generalizing stop value flaw with
  | case1 => cases h
  | case2 offset text run reached rest escape length =>
    rename_i hread near hdrop ih
    obtain ⟨_, _, hlater⟩ := cons_eq_closed h
    obtain ⟨_, _, hlater⟩ := cons_eq_closed hlater
    have hstop := (stop_bounds hlater).1
    obtain hfirst | ⟨_, h⟩ := cons_flaw h
    · have hflaw := hrun _ _ _ hfirst
      omega
    obtain hfirst | ⟨_, h⟩ := cons_flaw h
    · unfold escapeFlaw? at hfirst
      split at hfirst <;> cases hfirst
      have hnear : near.length ≤ length := length_take_le length rest
      exact ⟨by dsimp only; omega, by dsimp only; omega⟩
    · exact ih h
  | case3 =>
    injection h with hstop _ hflaw
    have hflaw := hrun _ _ _ hflaw
    omega
  | case4 => cases h

theorem read_of_run (hrun : text.takeWhile (isPlain quote) = run) (hdrop : text.drop run.length = []) :
    read mode quote offset text = .unfinished (offset + run.length) := by
  subst hrun
  rw [read]
  split
  · rfl
  next hcons =>
    rw [hdrop] at hcons
    cases hcons

theorem read_of_drop (hrun : text.takeWhile (isPlain quote) = run) (hdrop : text.drop run.length = c :: rest) :
    read mode quote offset text =
      if c = '\\' then
        cons run (runFlaw? mode run (offset + run.length)) <|
          cons ((Escape.read rest).1.meaning mode)
            (escapeFlaw? (Escape.read rest).1 (rest.take (Escape.read rest).2) (offset + run.length)) <|
            read mode quote (offset + run.length + 1 + (Escape.read rest).2) (rest.drop (Escape.read rest).2)
      else if c = quote then .closed (offset + run.length + 1) run (runFlaw? mode run (offset + run.length))
      else .unfinished (offset + run.length) := by
  subst hrun
  rw [read]
  split
  next hnil =>
    rw [hdrop] at hnil
    cases hnil
  next d more hcons =>
    obtain ⟨rfl, rfl⟩ := cons.inj (hcons.symm.trans hdrop)
    rfl

theorem read_cut (hcut : IsCut n text cut) (h : read mode quote offset text = .closed stop value flaw)
    (hn : stop ≤ offset + n) : read mode quote offset cut = .closed stop value flaw := by
  fun_induction read mode quote offset text generalizing stop value flaw n cut with
  | case1 => cases h
  | case2 offset text run reached rest escape length hescape =>
    rename_i hdrop ih
    obtain ⟨_, _, hlater⟩ := cons_eq_closed h
    obtain ⟨_, _, hlater⟩ := cons_eq_closed hlater
    have hlt := (stop_bounds hlater).1
    obtain ⟨more, hmore, hrest⟩ := hcut.drop_eq_cons (k := run.length) (by omega) hdrop
    have hrun : cut.takeWhile (isPlain quote) = run := hcut.takeWhile_of_lt (show run.length < n by omega)
    have hescape' : Escape.read more = (escape, length) := by
      rw [← hescape]
      refine Escape.read_cut hrest ?_
      rw [hescape]
      omega
    rw [read_of_drop hrun hmore, if_pos rfl, hescape']
    rw [hrest.take_eq (by omega), ih (hrest.drop (by omega)) hlater (by omega), ← h, hlater]
  | case3 offset text run reached rest =>
    rename_i hdrop hslash
    cases h
    obtain ⟨more, hmore, -⟩ := hcut.drop_eq_cons (k := run.length) (by omega) hdrop
    have hrun : cut.takeWhile (isPlain quote) = run := hcut.takeWhile_of_lt (show run.length < n by omega)
    rw [read_of_drop hrun hmore, if_neg hslash, if_pos rfl]
  | case4 => cases h

end Quoted

/-! ### Long brackets -/

namespace LongBracket

def opening (level : Nat) : List Char := '[' :: (replicate level '=' ++ ['['])

variable {n m level : Nat} {text cut contents mark : List Char}

theorem head_of_level? {level : Nat} (h : level? (c :: rest) = some level) : c = '[' := by
  unfold level? at h
  split at h
  next heq => exact (cons.inj heq).1
  · cases h

theorem length_opening (level : Nat) : (opening level).length = level + 2 := by simp [opening]

theorem length_closing (level : Nat) : (closing level).length = level + 2 := by simp [closing]

theorem opening_of_level? (h : level? text = some level) : text = opening level ++ text.drop (level + 2) := by
  unfold level? at h
  split at h
  next rest =>
    dsimp only at h
    split at h
    next hhead =>
      cases h
      generalize hsigns : rest.takeWhile (· == '=') = signs at hhead ⊢
      have hequal : signs = replicate signs.length '=' := by
        refine eq_replicate_iff.mpr ⟨rfl, fun c hc => ?_⟩
        rw [← hsigns] at hc
        simpa using mem_takeWhile_imp hc
      have htake : rest.take signs.length = signs := by
        rw [← hsigns]
        exact (prefix_iff_eq_take.mp (List.takeWhile_prefix _)).symm
      obtain ⟨inner, hinner⟩ : ∃ inner, rest.drop signs.length = '[' :: inner := by
        cases hdrop : rest.drop signs.length with
        | nil => simp [hdrop] at hhead
        | cons c inner =>
          rw [hdrop] at hhead
          obtain rfl : c = '[' := by simpa using hhead
          exact ⟨inner, rfl⟩
      have hrest : rest = signs ++ '[' :: inner := by
        conv_lhs => rw [← take_append_drop signs.length rest, htake, hinner]
      have hbehind : rest.drop (signs.length + 1) = inner := by rw [← drop_drop, hinner, drop_succ_cons, drop_zero]
      show '[' :: rest = opening signs.length ++ rest.drop (signs.length + 1)
      rw [hbehind, opening, ← hequal, hrest]
      simp
    · cases h
  · cases h

theorem level?_opening (level : Nat) (rest : List Char) : level? (opening level ++ rest) = some level := by
  have htake : (replicate level '=' ++ '[' :: rest).takeWhile (· == '=') = replicate level '=' := by
    rw [takeWhile_append_of_pos (by simp), takeWhile_cons_of_neg (by decide), append_nil]
  simp [level?, opening, htake]

theorem gap_not_mem (level : Nat) :
    (' ' ∉ opening level ∧ '\n' ∉ opening level) ∧ (' ' ∉ closing level ∧ '\n' ∉ closing level) := by
  simp [opening, closing]

theorem level?_cut (h : IsCut n text cut) (hn : ∀ level, level? text = some level → level + 2 ≤ n) :
    level? cut = level? text := by
  -- A text has a level exactly when the opening of the level stands at its head.
  have hlevel : ∀ text level, level? text = some level ↔ (opening level).isPrefixOf text = true := by
    intro text level
    rw [List.isPrefixOf_iff_prefix]
    refine ⟨fun h => ⟨_, (opening_of_level? h).symm⟩, ?_⟩
    rintro ⟨rest, rfl⟩
    exact level?_opening level rest
  refine Option.ext fun level => ?_
  rw [hlevel, hlevel, h.isPrefixOf_eq (gap_not_mem level).1]
  rw [← hlevel, length_opening]
  exact hn level

theorem lineEnd_cut (h : IsCut n text cut) (hn : 2 ≤ n) : lineEnd cut = lineEnd text := by
  cases h with
  | here => cases hn
  | cons c h =>
    cases h with
    | here => omega
    | cons d =>
      by_cases hc : c = '\r'
      · subst hc
        by_cases hd : d = '\n' <;> simp [lineEnd, hd]
      · by_cases hc : c = '\n' <;> simp_all [lineEnd]

theorem length_of_find? {mark : List Char} {n : Nat} (h : find? mark text = some n) :
    n + mark.length ≤ text.length := by
  induction text generalizing n with
  | nil => cases h
  | cons c text ih =>
    rw [find?] at h
    split at h
    next hmark =>
      cases h
      have := (List.isPrefixOf_iff_prefix.mp hmark).length_le
      omega
    · obtain ⟨m, hm, rfl⟩ := Option.map_eq_some_iff.mp h
      have := ih hm
      simp only [length_cons]
      omega

theorem find?_cut (h : IsCut n text cut) (hmark : ' ' ∉ mark ∧ '\n' ∉ mark) (hpos : 0 < mark.length)
    (hfind : find? mark text = some m) (hn : m + mark.length ≤ n) : find? mark cut = some m := by
  induction h generalizing m with
  | here => omega
  | cons c h ih =>
    rw [find?] at hfind ⊢
    rw [(h.cons c).isPrefixOf_eq hmark fun _ => by omega]
    split at hfind
    next hhere =>
      rw [if_pos hhere]
      exact hfind
    next hhere =>
      rw [if_neg hhere]
      obtain ⟨m, hm, rfl⟩ := Option.map_eq_some_iff.mp hfind
      rw [ih hm (by omega)]
      rfl

theorem read?_cut (h : IsCut n text cut) (hread : read? level text = some (contents, length))
    (hn : length ≤ n) : read? level cut = some (contents, length) := by
  unfold read? at hread ⊢
  dsimp only at hread ⊢
  obtain ⟨m, hm, hfound⟩ := Option.map_eq_some_iff.mp hread
  obtain ⟨rfl, rfl⟩ := Prod.mk.inj hfound
  have hclosing := length_closing level
  have hinner := h.drop (k := level + 2) (by omega)
  rw [lineEnd_cut hinner (by omega)]
  have hcontents := hinner.drop (k := lineEnd (text.drop (level + 2))) (by omega)
  rw [find?_cut hcontents (gap_not_mem level).2 (by omega) hm (by omega), Option.map_some, hcontents.take_eq (by omega)]

theorem length_read? (h : read? level text = some (contents, length)) : length ≤ text.length := by
  unfold read? at h
  obtain ⟨n, hn, hfound⟩ := Option.map_eq_some_iff.mp h
  obtain ⟨-, rfl⟩ := Prod.mk.inj hfound
  have hlength := length_of_find? hn
  have hmark : (closing level).length = level + 2 := by simp [closing]
  rw [length_drop, length_drop] at hlength
  omega

end LongBracket

/-! ### Signs and words -/

theorem Symbol.gap_not_mem (s : Symbol) : ' ' ∉ s.chars ∧ '\n' ∉ s.chars := by
  cases s <;> decide

theorem Symbol.read?_cut {n : Nat} {cut : List Char} {s : Symbol} (h : IsCut n text cut) (hread : read? text = some s)
    (hn : s.chars.length ≤ n) : read? cut = some s := by
  have hcut : ∀ s : Symbol, s.chars.isPrefixOf cut = true → s.chars.isPrefixOf text = true :=
    fun s hs => (h.prefix_of_cut s.gap_not_mem hs).2
  rw [read?, find?_eq_some_iff_append] at hread ⊢
  obtain ⟨hs, before, behind, hall, hbefore⟩ := hread
  refine ⟨?_, before, behind, hall, fun u hu => ?_⟩
  · rw [h.isPrefixOf_eq s.gap_not_mem fun _ => hn]
    exact hs
  · have hthis := hbefore u hu
    rw [Bool.not_eq_true'] at hthis ⊢
    exact Bool.eq_false_iff.mpr fun hprefix => Bool.eq_false_iff.mp hthis (hcut u hprefix)

theorem Numeral.exists_digit?_of_isDigit (h : c.isDigit = true) : ∃ d, digit? 10 c = some d := by
  have hrange : '0' ≤ c ∧ c ≤ '9' := by simpa [Char.isDigit, Char.le_def] using h
  have hle : c.toNat ≤ 57 := hrange.2
  have hvalue : c.toNat - '0'.toNat < 10 := by
    show c.toNat - 48 < 10
    omega
  refine ⟨c.toNat - '0'.toNat, ?_⟩
  rw [digit?, if_pos hrange]
  exact if_pos hvalue

theorem Numeral.length_mantissa_le (text : List Char) : (mantissa 10 text).2.2 ≤ (decimal text).2 := by
  unfold decimal
  dsimp only
  split
  · exact le_rfl
  · exact Nat.le_add_right ..
  · exact Nat.le_add_right ..

theorem Numeral.length_digits_pos (h : c.isDigit = true) :
    0 < (digits 10 (c :: rest)).length := by
  obtain ⟨d, hd⟩ := exists_digit?_of_isDigit h
  rw [digits, hd]
  exact Nat.succ_pos _

theorem Numeral.one_lt_length_read (h : rest.head?.any Char.isDigit = true) :
    1 < (Numeral.read ('.' :: rest)).2 := by
  cases rest with
  | nil => cases h
  | cons c rest =>
    have hdigits : 0 < (digits 10 (c :: rest)).length := length_digits_pos h
    have hmantissa : 1 < (mantissa 10 ('.' :: c :: rest)).2.2 := by
      show 1 < 0 + 1 + (digits 10 (c :: rest)).length
      omega
    exact hmantissa.trans_le (length_mantissa_le _)

namespace Lexeme

variable {mode : Encoding} {n line line' : Nat} {fresh fresh' : Bool} {c : Char} {text rest cut : List Char} {kind : TokenKind}

def whole (text : List Char) (kind : TokenKind) : Lexeme := ⟨text.length - 1, .ok (kind, text)⟩

/-- A token of the given kind, made of characters at the head of the text. -/
def IsTaken (source : List Char) (kind : TokenKind) (lexeme : Lexeme) : Prop :=
  ∃ more < source.length, lexeme = token source more kind

variable {lexeme : Lexeme} {more : Nat}

/-- The lexeme takes no more than there is, and its flaw lies within it. -/
def Fits (text : List Char) (lexeme : Lexeme) : Prop :=
  lexeme.more < text.length ∧
    ∀ flaw, lexeme.outcome = .error flaw → flaw.start ≤ flaw.stop ∧ flaw.stop ≤ lexeme.more + 1

theorem fits_token (h : more < text.length) (kind : TokenKind) : (token text more kind).Fits text :=
  ⟨h, fun _ hflaw => nomatch hflaw⟩

theorem fits_wrong (h : more < text.length) (fault : Fault) : (wrong more fault).Fits text := by
  refine ⟨h, fun flaw hflaw => ?_⟩
  cases hflaw
  exact ⟨Nat.zero_le _, le_rfl⟩

theorem fits_quoted (mode : Encoding) (quote : Char) (rest : List Char) : (quoted mode quote rest).Fits (quote :: rest) := by
  have hmore : ∀ offset, offset ≤ 1 + rest.length → offset - 1 < (quote :: rest).length := by
    intro offset hoffset
    rw [length_cons]
    omega
  unfold quoted
  split
  next offset hread =>
    refine ⟨Nat.lt_succ_self _, fun flaw hflaw => ?_⟩
    cases hflaw
    exact ⟨Nat.zero_le _, Nat.add_comm 1 _ ▸ Quoted.unfinished_le hread⟩
  next offset value flaw hread =>
    have hstop := Quoted.stop_bounds hread
    refine ⟨hmore offset hstop.2, fun flaw hflaw => ?_⟩
    cases hflaw
    have hbounds := Quoted.flaw_bounds hread
    dsimp only
    omega
  next offset value hread => exact fits_token (hmore offset (Quoted.stop_bounds hread).2) _

theorem fits_longString (mode : Encoding) (line level : Nat) (rest : List Char) :
    (longString mode line level rest).Fits ('[' :: rest) := by
  unfold longString
  split
  · exact fits_wrong (Nat.lt_succ_self _) _
  next contents length hread =>
    have hlength := LongBracket.length_read? hread
    have hmore : length - 1 < ('[' :: rest).length := by
      rw [length_cons] at hlength ⊢
      omega
    split
    · exact fits_wrong hmore _
    · exact fits_token hmore _

theorem fits_numeral (c : Char) (rest : List Char) : (numeral (c :: rest)).Fits (c :: rest) := by
  have hlength := Numeral.length_read (c :: rest)
  have hmore : (Numeral.read (c :: rest)).2 - 1 < (c :: rest).length := by
    rw [length_cons] at hlength ⊢
    omega
  unfold numeral
  split
  next hread =>
    rw [hread] at hmore
    exact fits_token hmore _
  next hread =>
    rw [hread] at hmore
    exact fits_wrong hmore _

theorem fits_sign (c : Char) (rest : List Char) : (sign c rest).Fits (c :: rest) := by
  unfold sign
  split
  next hdots => exact fits_token (List.isPrefixOf_iff_prefix.mp hdots).length_le _
  split
  next s hs =>
    have hprefix := find?_some (p := fun s : Symbol => s.chars.isPrefixOf (c :: rest)) hs
    have hle := (List.isPrefixOf_iff_prefix.mp hprefix).length_le
    rw [length_cons] at hle
    refine fits_token ?_ _
    rw [length_cons]
    omega
  · exact fits_wrong (Nat.zero_lt_succ _) _

theorem fits_read (mode : Encoding) (line : Nat) (fresh : Bool) (c : Char) (rest : List Char) :
    (read mode line fresh c rest).Fits (c :: rest) := by
  unfold read
  split
  · exact fits_quoted mode c rest
  split
  · exact fits_numeral c rest
  split
  next level hlevel =>
    obtain rfl := LongBracket.head_of_level? hlevel
    exact fits_longString mode line level rest
  split
  · exact ⟨Nat.lt_succ_of_le (List.takeWhile_prefix _).length_le, fun _ hflaw => nomatch hflaw⟩
  split
  · exact fits_token (Nat.lt_succ_of_le (List.takeWhile_prefix _).length_le) _
  · exact fits_sign c rest

/-- A good lexeme is made of the characters that it takes, unless it is an include line. -/
theorem eq_token_or_directive (hread : lexeme = read mode line fresh c rest) (h : lexeme.outcome = .ok (kind, text)) :
    lexeme = token (c :: rest) lexeme.more kind ∨ lexeme = directive rest := by
  unfold read quoted numeral longString sign word at hread
  split at hread
  · split at hread <;> subst hread <;> cases h
    exact .inl rfl
  split at hread
  · split at hread <;> subst hread <;> cases h
    exact .inl rfl
  split at hread
  next level hlevel =>
    obtain rfl := LongBracket.head_of_level? hlevel
    split at hread
    · subst hread
      cases h
    · split at hread <;> subst hread <;> cases h
      exact .inl rfl
  split at hread
  · exact .inr hread
  split at hread
  · subst hread
    cases h
    exact .inl rfl
  split at hread
  · subst hread
    cases h
    exact .inl rfl
  · split at hread <;> subst hread <;> cases h
    exact .inl rfl

theorem isTaken_read (hread : lexeme = read mode line fresh c rest)
    (h : lexeme.outcome = .ok (kind, text)) (hkind : kind ≠ .directive) : IsTaken (c :: rest) kind lexeme := by
  refine ⟨lexeme.more, hread ▸ (fits_read mode line fresh c rest).1, (eq_token_or_directive hread h).resolve_right ?_⟩
  rintro rfl
  cases h
  exact hkind rfl

theorem token_cut (h : IsCut n rest cut) (hn : more ≤ n) (kind : TokenKind) :
    token (c :: cut) more kind = token (c :: rest) more kind := by
  rw [token, token, (h.cons c).take_eq (Nat.succ_le_succ hn)]

theorem quoted_cut (hcut : IsCut n rest cut) (h : (quoted mode c rest).outcome = .ok (kind, text))
    (hn : (quoted mode c rest).more ≤ n) : quoted mode c cut = quoted mode c rest := by
  unfold quoted at h hn ⊢
  split at h
  · cases h
  · cases h
  next offset value hread =>
    rw [hread] at hn
    have hn : offset - 1 ≤ n := hn
    rw [Quoted.read_cut hcut hread (by omega)]
    exact token_cut hcut hn _

theorem numeral_cut (hcut : IsCut n rest cut) (h : (numeral (c :: rest)).outcome = .ok (kind, text))
    (hn : (numeral (c :: rest)).more ≤ n) : numeral (c :: cut) = numeral (c :: rest) := by
  unfold numeral at h hn ⊢
  split at h
  next value length hread =>
    rw [hread] at hn
    have hn : length - 1 ≤ n := hn
    rw [Numeral.read_cut (hcut.cons c) hread (by omega)]
    exact token_cut hcut hn _
  · cases h

theorem more_numeral (text : List Char) : (numeral text).more = (Numeral.read text).2 - 1 := by
  unfold numeral
  split
  next heq => rw [heq]; rfl
  next heq => rw [heq]; rfl

theorem longString_cut {level : Nat} (hcut : IsCut n rest cut) (h : (longString mode line level rest).outcome = .ok (kind, text))
    (hn : (longString mode line level rest).more ≤ n) (line' : Nat) :
    level + 2 ≤ n + 1 ∧ longString mode line' level cut = longString mode line level rest := by
  unfold longString at h hn ⊢
  split at h
  · cases h
  next contents length hread =>
    rw [hread] at hn
    dsimp only at h hn
    split at h
    · cases h
    next hclean =>
      rw [hclean] at hn
      have hn : length - 1 ≤ n := hn
      have hlong : level + 2 ≤ length := by
        obtain ⟨m, -, hfound⟩ := Option.map_eq_some_iff.mp hread
        have := (Prod.mk.inj hfound).2
        omega
      rw [LongBracket.read?_cut (hcut.cons '[') hread (by omega)]
      dsimp only
      rw [hclean]
      exact ⟨by omega, token_cut hcut hn _⟩

theorem word_cut (hcut : IsCut n rest cut) (hn : (word c rest).more ≤ n) : word c cut = word c rest := by
  have hn : (rest.takeWhile continuesName).length ≤ n := hn
  rw [word, word, hcut.takeWhile_eq (by decide) hn, (hcut.cons c).take_eq (Nat.succ_le_succ hn)]
  exact token_cut hcut hn _

theorem sign_cut (hcut : IsCut n rest cut) (h : (sign c rest).outcome = .ok (kind, text)) (hn : (sign c rest).more ≤ n) :
    sign c cut = sign c rest := by
  have hdots : ['.', '.', '.'].isPrefixOf (c :: cut) = ['.', '.', '.'].isPrefixOf (c :: rest) := by
    refine (hcut.cons c).isPrefixOf_eq (by decide) fun hdots => ?_
    rw [sign, if_pos hdots] at hn
    exact Nat.succ_le_succ hn
  unfold sign at h hn ⊢
  rw [hdots]
  split at h
  next hthis =>
    rw [if_pos hthis] at hn
    rw [if_pos hthis, if_pos hthis]
    exact token_cut hcut hn _
  next hthis =>
    rw [if_neg hthis] at hn
    rw [if_neg hthis, if_neg hthis]
    split at h
    next s hs =>
      rw [hs] at hn
      have hn : s.chars.length - 1 ≤ n := hn
      rw [Symbol.read?_cut (hcut.cons c) hs (by omega)]
      exact token_cut hcut hn _
    · cases h

theorem more_sign (c : Char) (rest : List Char) : (sign c rest).more < 4 := by
  unfold sign
  split
  · exact show 2 < 4 by decide
  · split
    next s _ =>
      have hshort : s.chars.length ≤ 4 := by cases s <;> decide
      show s.chars.length - 1 < 4
      omega
    · exact show 0 < 4 by decide

/-- A token is read in the same way from a text that is cut off behind it, wherever it stands. An include line needs a fresh
line again, and goes on up to the line end. -/
theorem read_cut (h : (read mode line fresh c rest).outcome = .ok (kind, text)) (hcut : IsCut n rest cut)
    (hn : (read mode line fresh c rest).more ≤ n)
    (hkind : kind = .directive → fresh' = fresh ∧ cut.takeWhile (· != '\n') = rest.takeWhile (· != '\n'))
    (hfresh : fresh' = true → fresh = true ∨ n = (read mode line fresh c rest).more) (line' : Nat) :
    read mode line' fresh' c cut = read mode line fresh c rest := by
  by_cases hquote : c = '"' ∨ c = '\''
  · rw [read, if_pos hquote] at h hn ⊢
    rw [read, if_pos hquote]
    exact quoted_cut hcut h hn
  by_cases hdigit : (c.isDigit || (c == '.' && rest.head?.any Char.isDigit)) = true
  · rw [read, if_neg hquote, if_pos hdigit] at h hn
    have hcutDigit : (c.isDigit || (c == '.' && cut.head?.any Char.isDigit)) = true := by
      simp only [Bool.or_eq_true, Bool.and_eq_true, beq_iff_eq] at hdigit ⊢
      refine hdigit.imp_right ?_
      rintro ⟨rfl, hhead⟩
      -- The digit behind the point belongs to the numeral.
      have hlong := Numeral.one_lt_length_read hhead
      rw [more_numeral] at hn
      exact ⟨rfl, by rw [hcut.head?_eq (by omega)]; exact hhead⟩
    rw [read, if_neg hquote, if_pos hcutDigit, numeral_cut hcut h hn, read, if_neg hquote, if_pos hdigit]
  have hcutDigit : ¬(c.isDigit || (c == '.' && cut.head?.any Char.isDigit)) = true := by
    simp only [Bool.or_eq_true, Bool.and_eq_true] at hdigit ⊢
    exact fun hc => hdigit (hc.imp_right fun hpoint => ⟨hpoint.1, hcut.head_any ⟨rfl, rfl⟩ hpoint.2⟩)
  unfold read at h hn ⊢
  rw [if_neg hquote, if_neg hdigit] at h hn
  rw [if_neg hquote, if_neg hquote, if_neg hdigit, if_neg hcutDigit]
  cases hlevel : LongBracket.level? (c :: rest) with
  | some level =>
    rw [hlevel] at h hn
    obtain rfl := LongBracket.head_of_level? hlevel
    obtain ⟨hlong, hread⟩ := longString_cut hcut h hn line'
    have hlevel' : LongBracket.level? ('[' :: cut) = some level := by
      rw [← hlevel]
      refine LongBracket.level?_cut (hcut.cons '[') fun other hother => ?_
      cases hlevel.symm.trans hother
      exact hlong
    rw [hlevel']
    exact hread
  | none =>
    have hlevel' : LongBracket.level? (c :: cut) = none := by
      rw [← hlevel]
      refine LongBracket.level?_cut (hcut.cons c) fun other hother => ?_
      cases hlevel.symm.trans hother
    rw [hlevel] at h hn
    rw [hlevel']
    dsimp only at h hn ⊢
    by_cases hline : c = '#' ∧ fresh = true ∧ "include".toList.isPrefixOf rest = true
    · rw [if_pos hline] at h hn ⊢
      cases h
      obtain ⟨rfl, hsame⟩ := hkind rfl
      have hlong : "include".toList.length ≤ n := by
        obtain ⟨behind, rfl⟩ := isPrefixOf_iff_prefix.mp hline.2.2
        refine le_trans ?_ hn
        rw [directive, takeWhile_append_of_pos (by simp), length_append]
        exact Nat.le_add_right ..
      have hinclude := hcut.isPrefixOf_eq (by decide) fun _ => hlong
      rw [if_pos ⟨hline.1, hline.2.1, hinclude.trans hline.2.2⟩, directive, hsame, directive]
    · rw [if_neg hline] at h hn ⊢
      have hcutLine : ¬(c = '#' ∧ fresh' = true ∧ "include".toList.isPrefixOf cut = true) := by
        rintro ⟨rfl, hfresh', hinclude⟩
        obtain ⟨hlong, hinclude⟩ := hcut.prefix_of_cut (by decide) hinclude
        obtain rfl | rfl := hfresh hfresh'
        · exact hline ⟨rfl, rfl, hinclude⟩
        · have hsign : read mode line fresh '#' rest = sign '#' rest := by
            exact if_neg hline
          rw [hsign] at hlong
          exact absurd (hlong.trans_lt (more_sign '#' rest)) (by decide)
      rw [if_neg hcutLine]
      split at h
      next hname =>
        rw [if_pos hname] at hn
        rw [if_pos hname, if_pos hname, word_cut hcut hn]
      next hname =>
        rw [if_neg hname] at hn
        rw [if_neg hname, if_neg hname, sign_cut hcut h hn]

theorem read_whole (h : read mode line true c rest = whole (c :: rest) kind) (hkind : kind ≠ .directive)
    (hbehind : IsApart behind) (line' : Nat) (fresh' : Bool) :
    read mode line' fresh' c (rest ++ behind) = whole (c :: rest) kind := by
  rw [← h]
  refine read_cut (congrArg outcome h) (.append hbehind rest) ?_ (fun hline => absurd hline hkind) (fun _ => .inl rfl) line'
  rw [h]
  exact le_rfl

end Lexeme

end CartLua
