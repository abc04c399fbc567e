import CartLua.Proofs.Apart
/-!
# Quoted strings mean what they spell

A quoted string is written as a row of characters that stand for themselves and of escapes, and every one of them adds its
part to the value. An escape takes as many blanks or digits as it can, so one more of them must not follow it.
-/

namespace CartLua.Quoted

open List

/-! ### How strings are written -/

def digitTable : List (Char × Nat) := "0123456789abcdef".toList.zipIdx ++ "ABCDEF".toList.zipIdx 10

/-- Digits of a radix, with their values. -/
def AreDigits (radix : Nat) (ds : List (Char × Nat)) : Prop := ∀ d ∈ ds, d ∈ digitTable ∧ d.2 < radix

instance (radix : Nat) (ds : List (Char × Nat)) : Decidable (AreDigits radix ds) := inferInstanceAs (Decidable (∀ d ∈ ds, _))

def number (radix : Nat) (ds : List (Char × Nat)) : Nat := ds.foldl (fun n d => n * radix + d.2) 0

def nameTable : List (Char × UInt8) :=
  [('a', 7), ('b', 8), ('f', 12), ('n', 10), ('r', 13), ('t', 9), ('v', 11), ('\\', 92), ('"', 34), ('\'', 39), ('\n', 10)]

/-- What is written behind the backslash of an escape, and the part of the value that it stands for. -/
inductive Escapes (mode : Encoding) : List Char → List Char → Prop where
  | named {c : Char} {b : UInt8} (h : (c, b) ∈ nameTable) : Escapes mode [c] (mode.bytes [b])
  | hex {hi lo : Char × Nat} (h : AreDigits 16 [hi, lo]) :
    Escapes mode ['x', hi.1, lo.1] (mode.bytes [.ofNat (number 16 [hi, lo])])
  | decimal {ds : List (Char × Nat)} (h : AreDigits 10 ds) (hne : ds ≠ []) (hlength : ds.length ≤ 3)
    (hvalue : number 10 ds ≤ 255) : Escapes mode (ds.map Prod.fst) (mode.bytes [.ofNat (number 10 ds)])
  | codePoint {ds : List (Char × Nat)} (h : AreDigits 16 ds) (hne : ds ≠ []) (hvalue : number 16 ds ≤ 0x7FFFFFFF) :
    Escapes mode ('u' :: '{' :: ds.map Prod.fst ++ ['}']) (mode.codePoint (number 16 ds))
  | skip {blanks : List Char} (h : ∀ c ∈ blanks, isBlank c = true) : Escapes mode ('z' :: blanks) []
  | control {c : Char} (h : c ∈ ['*', '#', '-', '|', '+', '^']) : Escapes mode [c] ['\\', c]

/-- Whether a character behind an escape would belong to it: one more blank, or one more of three digits. -/
def GoesOn (spelled : List Char) (next : Char) : Prop :=
  (spelled.head? = some 'z' ∧ isBlank next = true) ∨
    (spelled.head?.any Char.isDigit = true ∧ spelled.length < 3 ∧ next.isDigit = true)

instance (spelled : List Char) (next : Char) : Decidable (GoesOn spelled next) := inferInstanceAs (Decidable (_ ∨ _))

/-- What is written between the quotes of a string, and its value. -/
inductive Spells (mode : Encoding) (quote : Char) : List Char → List Char → Prop where
  | nil : Spells mode quote [] []
  | raw {c : Char} {text value : List Char} (hc : mode.admits c = true) (hplain : c ∉ ['\\', quote, '\n', '\r'])
    (h : Spells mode quote text value) : Spells mode quote (c :: text) (c :: value)
  | escape {spelled part text value : List Char} (hpart : Escapes mode spelled part)
    (hnext : ∀ c ∈ text.head?, ¬GoesOn spelled c) (h : Spells mode quote text value) :
    Spells mode quote ('\\' :: spelled ++ text) (part ++ value)

/-! ### Reading escapes -/

variable {mode : Encoding} {radix : Nat} {ds : List (Char × Nat)} {quote c : Char} {text value spelled part more : List Char}

theorem digit?_eq {d : Char × Nat} (h : d ∈ digitTable) (hlt : d.2 < radix) (hradix : radix ∈ [10, 16]) :
    Numeral.digit? radix d.1 = some d.2 := by
  have htable : ∀ d ∈ digitTable, ∀ radix ∈ [10, 16], d.2 < radix → Numeral.digit? radix d.1 = some d.2 := by decide
  exact htable d h radix hradix hlt

theorem digits_append (h : AreDigits radix ds) (hradix : radix ∈ [10, 16]) (more : List Char) :
    Numeral.digits radix (ds.map Prod.fst ++ more) = ds.map Prod.snd ++ Numeral.digits radix more := by
  induction ds with
  | nil => rfl
  | cons d ds ih =>
    obtain ⟨⟨hd, hlt⟩, hds⟩ := forall_mem_cons.mp h
    rw [map_cons, cons_append, Numeral.digits, digit?_eq hd hlt hradix, ih hds]
    rfl

theorem ofDigits_eq_number (ds : List (Char × Nat)) : Numeral.ofDigits radix (ds.map Prod.snd) = number radix ds := by
  rw [Numeral.ofDigits, number, foldl_map]

theorem digits_of_not_isDigit (h : ∀ c ∈ more.head?, c.isDigit = false) : Numeral.digits 10 more = [] := by
  cases more with
  | nil => rfl
  | cons c =>
    have hc : ¬('0' ≤ c ∧ c ≤ '9') := by
      rintro ⟨hlow, hhigh⟩
      have hdigit : c.isDigit = true := by
        simp [Char.isDigit]
        exact ⟨hlow, hhigh⟩
      exact Bool.false_ne_true ((h c rfl).symm.trans hdigit)
    have hnone : Numeral.digit? 10 c = none := by
      unfold Numeral.digit?
      grind
    rw [Numeral.digits, hnone]

theorem read_of_escapes (h : Escapes mode spelled part) (hnext : ∀ c ∈ more.head?, ¬GoesOn spelled c) :
    ∃ escape, Escape.read (spelled ++ more) = (escape, spelled.length) ∧ escape.meaning mode = part ∧
      ∀ near offset, escapeFlaw? escape near offset = none := by
  cases h with
  | named h =>
    have hnamed : ∀ p ∈ nameTable, Escape.named? p.1 = some p.2 := by decide
    refine ⟨.bytes _, ?_, rfl, fun _ _ => rfl⟩
    rw [singleton_append, Escape.read, hnamed _ h]
    rfl
  | @hex hi lo h =>
    obtain ⟨⟨hhi, hhilt⟩, ⟨hlo, hlolt⟩, -⟩ : (hi ∈ digitTable ∧ hi.2 < 16) ∧ (lo ∈ digitTable ∧ lo.2 < 16) ∧ True := by
      simpa [AreDigits] using h
    refine ⟨.bytes _, ?_, rfl, fun _ _ => rfl⟩
    have hbyte : Escape.hexByte (hi.1 :: lo.1 :: more) = (.bytes [UInt8.ofNat (hi.2 * 16 + lo.2)], 2) := by
      simp [Escape.hexByte, digit?_eq hhi hhilt, digit?_eq hlo hlolt]
    show ((Escape.hexByte (hi.1 :: lo.1 :: more)).1, (Escape.hexByte (hi.1 :: lo.1 :: more)).2 + 1) = _
    rw [hbyte]
    simp [number]
  | @decimal ds h hne hlength hvalue =>
    obtain ⟨d, ds, rfl⟩ := exists_cons_of_ne_nil hne
    have htable : ∀ d ∈ digitTable, d.2 < 10 → Escape.named? d.1 = none ∧ d.1 ≠ 'z' ∧ d.1 ≠ 'x' ∧
        Numeral.isDigit 10 d.1 = true ∧ d.1.isDigit = true := by decide
    obtain ⟨hd, hlt⟩ := h d mem_cons_self
    obtain ⟨hnamed, hz, hx, hdigit, hfirst⟩ := htable d hd hlt
    have htake : (Numeral.digits 10 ((d :: ds).map Prod.fst ++ more)).take 3 = (d :: ds).map Prod.snd := by
      rw [digits_append h (by decide)]
      by_cases hthree : (d :: ds).length = 3
      · exact take_left' (by rw [length_map, hthree])
      · have hnone : Numeral.digits 10 more = [] := by
          refine digits_of_not_isDigit fun c hc => ?_
          by_contra hdigit
          refine hnext c hc (.inr ⟨hfirst, ?_, by simpa using hdigit⟩)
          rw [length_map]
          omega
        rw [hnone, append_nil, take_of_length_le (by rwa [length_map])]
    refine ⟨.bytes _, ?_, rfl, fun _ _ => rfl⟩
    rw [map_cons, cons_append, Escape.read, hnamed]
    simp only [if_neg hz, if_neg hx, hdigit, if_true]
    rw [← cons_append, ← map_cons, Escape.decimalByte, htake, ofDigits_eq_number, if_pos hvalue]
    simp
  | @codePoint ds h hne hvalue =>
    have hdigits : Numeral.digits 16 (ds.map Prod.fst ++ '}' :: more) = ds.map Prod.snd := by
      rw [digits_append h (by decide)]
      exact append_nil _
    have hcode : Escape.codePoint ('{' :: (ds.map Prod.fst ++ '}' :: more)) =
        (.bytes (Encoding.codeUnits (number 16 ds)), ds.length + 2) := by
      rw [Escape.codePoint]
      simp only [hdigits, ofDigits_eq_number, length_map]
      rw [if_neg (by simp [hne]), if_neg (by omega)]
    refine ⟨.bytes _, ?_, rfl, fun _ _ => rfl⟩
    have hdigit : Numeral.isDigit 10 'u' = false := by decide
    simp [Escape.read, Escape.named?, hdigit, hcode]
  | @skip blanks h =>
    have hrest : more.takeWhile isBlank = [] := by
      cases more with
      | nil => rfl
      | cons c => exact takeWhile_cons_of_neg fun hblank => hnext c rfl (.inl ⟨rfl, hblank⟩)
    refine ⟨.bytes [], ?_, rfl, fun _ _ => rfl⟩
    show (Escape.bytes [], ((blanks ++ more).takeWhile isBlank).length + 1) = _
    rw [takeWhile_append_of_pos h, hrest, append_nil, length_cons]
  | control h =>
    refine ⟨.control _, ?_, rfl, fun _ _ => rfl⟩
    simp only [mem_cons, not_mem_nil, or_false] at h
    obtain rfl | rfl | rfl | rfl | rfl | rfl := h <;> rfl

/-! ### Reading strings -/

theorem cons_cons (flaw : Option Flaw) (part more : List Char) (later : Quoted) :
    cons part none (cons more flaw later) = cons (part ++ more) flaw later := by
  cases later with
  | unfinished => rfl
  | closed => rw [cons, cons, cons, append_assoc]; rfl

theorem read_plain {offset : Nat} (hc : mode.admits c = true) (hplain : isPlain quote c = true) (text : List Char) :
    read mode quote offset (c :: text) = cons [c] none (read mode quote (offset + 1) text) := by
  have hrun : (c :: text).takeWhile (isPlain quote) = c :: text.takeWhile (isPlain quote) := takeWhile_cons_of_pos hplain
  have hflaw : ∀ run reached, runFlaw? mode (c :: run) reached = runFlaw? mode run reached := by
    intro run reached
    simp [runFlaw?, Encoding.offending?, hc]
  have hreached : ∀ n, offset + (n + 1) = offset + 1 + n := fun n => by omega
  cases hdrop : text.drop (text.takeWhile (isPlain quote)).length with
  | nil =>
    rw [read_of_run rfl hdrop, read_of_run hrun hdrop, length_cons, hreached]
    rfl
  | cons =>
    rw [read_of_drop rfl hdrop, read_of_drop hrun hdrop, length_cons, hreached, hflaw]
    split
    · exact (cons_cons _ [c] _ _).symm
    · split <;> rfl

theorem read_escaped {offset length : Nat} {escape : Escape} (hread : Escape.read text = (escape, length))
    (hflaw : ∀ near offset, escapeFlaw? escape near offset = none) :
    read mode quote offset ('\\' :: text) =
      cons (escape.meaning mode) none (read mode quote (offset + 1 + length) (text.drop length)) := by
  have hrun : ('\\' :: text).takeWhile (isPlain quote) = [] := takeWhile_cons_of_neg (by simp [isPlain])
  rw [read_of_drop hrun rfl, if_pos rfl, hread, hflaw]
  exact cons_cons ..

theorem read_of_spells (h : Spells mode quote text value) (hquote : quote = '"' ∨ quote = '\'') (offset : Nat)
    (rest : List Char) :
    read mode quote offset (text ++ quote :: rest) = .closed (offset + text.length + 1) value none := by
  induction h generalizing offset with
  | nil =>
    have hrun : (quote :: rest).takeWhile (isPlain quote) = [] := takeWhile_cons_of_neg (by simp [isPlain])
    have hslash : quote ≠ '\\' := by
      obtain rfl | rfl := hquote <;> decide
    rw [nil_append, read_of_drop hrun rfl, if_neg hslash, if_pos rfl]
    rfl
  | @raw c text value hc hplain h ih =>
    have hplain : isPlain quote c = true := by
      simpa [isPlain, and_assoc, and_left_comm] using hplain
    rw [cons_append, read_plain hc hplain, ih, length_cons, Nat.add_right_comm offset]
    rfl
  | @escape spelled part text value hpart hnext h ih =>
    have hnext : ∀ c ∈ (text ++ quote :: rest).head?, ¬GoesOn spelled c := by
      cases text with
      | cons => exact hnext
      | nil =>
        rintro c hc (⟨-, hblank⟩ | ⟨-, -, hdigit⟩)
        · cases hc
          obtain rfl | rfl := hquote <;> cases hblank
        · cases hc
          obtain rfl | rfl := hquote <;> cases hdigit
    obtain ⟨escape, hread, rfl, hflaw⟩ := read_of_escapes hpart hnext
    rw [cons_append, cons_append, append_assoc, read_escaped hread hflaw, drop_left, ih, cons,
      length_cons, length_append]
    congr 1
    omega

end CartLua.Quoted

namespace CartLua.Lexeme

/-- **Quoted strings mean what they spell.** A string between two quotes is read up to the second one, whatever follows,
and its value is what all parts of it stand for. -/
theorem read_literal_of_spells {mode : Encoding} {quote : Char} {text value : List Char} (hmode : mode.discards = false)
    (hquote : quote = '"' ∨ quote = '\'') (h : Quoted.Spells mode quote text value) (line : Nat) (fresh : Bool)
    (rest : List Char) :
    read mode line fresh quote (text ++ quote :: rest) =
      ⟨text.length + 1, .ok (.string (some (String.ofList value)), quote :: text ++ [quote])⟩ := by
  rw [read, if_pos hquote, quoted, Quoted.read_of_spells h hquote]
  have htake : (quote :: (text ++ quote :: rest)).take (text.length + 2) = quote :: text ++ [quote] := by
    have hwhole : quote :: (text ++ quote :: rest) = (quote :: text ++ [quote]) ++ rest := by simp
    rw [hwhole, List.take_left' (by simp)]
  have hlength : 1 + text.length + 1 - 1 = text.length + 1 := by omega
  simp only [token, decoded, hmode, hlength, htake, Bool.false_eq_true, if_false]

/-- A part of every kind. -/
def mixed : List Char := "Z\\x4F\\65-\\n\\z \\#\\u\x7b0e9\x7d".toList

theorem read_literal_of_spells_mixed :
    Quoted.Spells .identity '"' mixed "ZOA-\n\\#Ã©".toList ∧
    read .identity 1 false '"' (mixed ++ '"' :: "..x".toList) =
      ⟨24, .ok (.string (some "ZOA-\n\\#Ã©"), "\"Z\\x4F\\65-\\n\\z \\#\\u\x7b0e9\x7d\"".toList)⟩ := by
  have hspells : Quoted.Spells .identity '"' mixed "ZOA-\n\\#Ã©".toList := by
    refine .raw (by decide) (by decide) ?_
    refine .escape (@Quoted.Escapes.hex _ ('4', 4) ('F', 15) (by decide)) (by rintro _ ⟨⟩; decide) ?_
    refine .escape (@Quoted.Escapes.decimal _ [('6', 6), ('5', 5)] (by decide) (by decide) (by decide) (by decide)) (by rintro _ ⟨⟩; decide) ?_
    refine .raw (by decide) (by decide) ?_
    refine .escape (@Quoted.Escapes.named _ 'n' 10 (by decide)) (by rintro _ ⟨⟩; decide) ?_
    refine .escape (@Quoted.Escapes.skip _ [' '] (List.forall_mem_singleton.mpr (by decide))) (by rintro _ ⟨⟩; decide) ?_
    refine .escape (@Quoted.Escapes.control _ '#' (by decide)) (by rintro _ ⟨⟩; decide) ?_
    exact .escape (@Quoted.Escapes.codePoint _ [('0', 0), ('e', 14), ('9', 9)] (by decide) (by decide) (by decide)) nofun .nil
  exact ⟨hspells, read_literal_of_spells rfl (.inl rfl) hspells 1 false _⟩

end CartLua.Lexeme
