import CartLua.Encoding
import Mathlib.Tactic
/-!
# Escaped code points

An escaped code point is spelled as one to six bytes, and each of them is put into the string as a character. There is one
way back, the same for all encodings that decode: the characters tell the bytes, and the first byte of a code point tells
how many more belong to it.
-/

namespace CartLua.Encoding

open List

/-- The mark of a first byte, by the number of bytes that follow it. -/
def leadMark : Nat → Nat
  | 0 => 0
  | 1 => 0xC0
  | 2 => 0xE0
  | 3 => 0xF0
  | 4 => 0xF8
  | _ => 0xFC

/-- A number in `k + 1` parts: what is left of it behind a mark, and `k` times six bits, the highest first. -/
def sextets (n k : Nat) : List Nat :=
  (leadMark k + n / 64 ^ k) :: (range k).reverse.map fun i => 0x80 + n / 64 ^ i % 64

/-- The number of bytes behind a first byte. -/
def followers (lead : Nat) : Nat :=
  if lead < 0xC0 then 0 else if lead < 0xE0 then 1 else if lead < 0xF0 then 2 else if lead < 0xF8 then 3
  else if lead < 0xFC then 4 else 5

/-- The code points that a list of bytes spells. -/
def codePoints : List Nat → List Nat
  | [] => []
  | lead :: rest =>
    (rest.take (followers lead)).foldl (fun n b => n * 64 + (b - 0x80)) (lead - leadMark (followers lead)) ::
      codePoints (rest.drop (followers lead))
termination_by bs => bs.length
decreasing_by simp

/-- The byte that a character of a decoded string stands for. -/
def byteOf (c : Char) : Nat := c.toNat % 0x100

variable {mode : Encoding} {n k : Nat}

theorem codeUnits_eq_sextets (h : n < 2 ^ 31) :
    ∃ k ≤ 5, (codeUnits n).map UInt8.toNat = sextets n k ∧ followers (leadMark k + n / 64 ^ k) = k := by
  unfold codeUnits
  simp only [Nat.shiftRight_eq_div_pow]
  split_ifs
  · refine ⟨0, by decide, ?_⟩
    simp [sextets, leadMark, followers]
    grind
  · refine ⟨1, by decide, ?_⟩
    simp [sextets, leadMark, followers, range_succ]
    grind
  · refine ⟨2, by decide, ?_⟩
    simp [sextets, leadMark, followers, range_succ]
    grind
  · refine ⟨3, by decide, ?_⟩
    simp [sextets, leadMark, followers, range_succ]
    grind
  · refine ⟨4, by decide, ?_⟩
    simp [sextets, leadMark, followers, range_succ]
    grind
  · refine ⟨5, by decide, ?_⟩
    simp [sextets, leadMark, followers, range_succ]
    grind

theorem foldl_sextets (n k : Nat) :
    (range k).reverse.foldl (fun m i => m * 64 + n / 64 ^ i % 64) (n / 64 ^ k) = n := by
  induction k with
  | zero => simp
  | succ k ih =>
    have hstep : n / 64 ^ (k + 1) * 64 + n / 64 ^ k % 64 = n / 64 ^ k := by
      rw [Nat.pow_succ, ← Nat.div_div_eq_div_mul]
      omega
    rw [range_succ, reverse_append, reverse_singleton, singleton_append, foldl_cons, hstep, ih]

theorem codePoints_sextets (h : followers (leadMark k + n / 64 ^ k) = k) (rest : List Nat) :
    codePoints (sextets n k ++ rest) = n :: codePoints rest := by
  have hlength : ((range k).reverse.map fun i => 0x80 + n / 64 ^ i % 64).length = k := by simp
  rw [sextets, cons_append, codePoints, h, take_left' hlength, drop_left' hlength, foldl_map]
  simp only [Nat.add_sub_cancel_left, foldl_sextets]

theorem toNat_ofNat (h : n.isValidChar) : (Char.ofNat n).toNat = n := by
  rw [Char.ofNat, dif_pos h]
  rfl

theorem exists_byte (hmode : mode ≠ .discard) (b : UInt8) : ∃ c, mode.byte? b = some c ∧ byteOf c = b.toNat := by
  have hb := b.toNat_lt
  cases mode with
  | identity =>
    refine ⟨_, rfl, ?_⟩
    rw [byteOf, toNat_ofNat (.inl (by omega)), Nat.mod_eq_of_lt hb]
  | privateUse =>
    refine ⟨_, rfl, ?_⟩
    split
    · rw [byteOf, toNat_ofNat (.inl (by omega)), Nat.mod_eq_of_lt hb]
    · rw [byteOf, toNat_ofNat (.inr (by omega))]
      omega
  | discard => exact absurd rfl hmode

theorem map_byteOf_bytes (hmode : mode ≠ .discard) (bs : List UInt8) :
    (mode.bytes bs).map byteOf = bs.map UInt8.toNat := by
  induction bs with
  | nil => rfl
  | cons b bs ih =>
    obtain ⟨c, hc, hbyte⟩ := exists_byte hmode b
    rw [bytes, filterMap_cons_some hc, map_cons, map_cons, hbyte, ← ih, bytes]

theorem codeUnits_eq_utf8EncodeChar (c : Char) : codeUnits c.toNat = String.utf8EncodeChar c := by
  have hvalid : c.toNat.isValidChar := c.valid
  have hval : c.toNat = c.val.toNat := rfl
  simp only [codeUnits, String.utf8EncodeChar, ← hval, Nat.shiftRight_eq_div_pow, Nat.isValidChar] at *
  split_ifs <;> simp [Nat.add_comm] <;> grind

/-- **Escaped code points can be told apart.** The characters of any list of escaped code points are read back as the list,
by one reader for both encodings. Every byte holds its part of the code point as it is, and the bytes of a Unicode
character are those of UTF-8. -/
theorem codePoints_flatMap_codePoint (hmode : mode ≠ .discard) (ns : List Nat) (h : ∀ n ∈ ns, n ≤ 0x7FFFFFFF) :
    codePoints ((ns.flatMap mode.codePoint).map byteOf) = ns ∧
      (∀ n ∈ ns, ∃ k ≤ 5, (codeUnits n).map UInt8.toNat = sextets n k) ∧
      ∀ c : Char, codeUnits c.toNat = String.utf8EncodeChar c := by
  refine ⟨?_, fun n hn => ?_, codeUnits_eq_utf8EncodeChar⟩
  · induction ns with
    | nil => rw [List.flatMap_nil, List.map_nil, codePoints]
    | cons n ns ih =>
      obtain ⟨k, -, hunits, hlead⟩ := codeUnits_eq_sextets (Nat.lt_succ_of_le (h n List.mem_cons_self))
      rw [List.flatMap_cons, List.map_append, codePoint, map_byteOf_bytes hmode, hunits, codePoints_sextets hlead,
        ih fun m hm => h m (List.mem_cons_of_mem n hm)]
  · obtain ⟨k, hk, hunits, -⟩ := codeUnits_eq_sextets (Nat.lt_succ_of_le (h n hn))
    exact ⟨k, hk, hunits⟩

/-- A letter, the first code point of each greater length and the last one of all. -/
theorem codePoints_flatMap_codePoint_lengths :
    (∀ n ∈ [0x41, 0x80, 0x800, 0x10000, 0x200000, 0x4000000, 0x7FFFFFFF], n ≤ 0x7FFFFFFF) ∧
    codePoints (([0x41, 0x80, 0x800, 0x10000, 0x200000, 0x4000000, 0x7FFFFFFF].flatMap privateUse.codePoint).map byteOf) =
      [0x41, 0x80, 0x800, 0x10000, 0x200000, 0x4000000, 0x7FFFFFFF] :=
  ⟨by decide, (codePoints_flatMap_codePoint (by decide) _ (by decide)).1⟩

end CartLua.Encoding
