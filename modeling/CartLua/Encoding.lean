/-!
# String encodings

Strings of the language are byte strings, while the text that is read is Unicode. An encoding says which character
stands for a byte in a decoded string and which raw characters a string may hold.
-/

namespace CartLua

/-- How string literals are decoded. -/
inductive Encoding where
  /-- Every byte is the character of the same number; raw content ends at `U+00FF`. -/
  | identity
  /-- The bytes from `0x80` on are the private characters `U+F780` to `U+F7FF`, the others are ASCII. -/
  | privateUse
  /-- Strings are checked for their form only and have no decoded value. -/
  | discard
deriving DecidableEq, Inhabited, Repr

namespace Encoding

def ofName? : String → Option Encoding
  | "identity" | "pseudo-latin1" => some .identity
  | "private-use" | "x-user-defined" => some .privateUse
  | "discard" | "none" => some .discard
  | _ => none

def discards : Encoding → Bool
  | .discard => true
  | _ => false

def admits : Encoding → Char → Bool
  | .identity, c => c.toNat ≤ 0xFF
  | .privateUse, c => c.toNat < 0x80 || (0xF780 ≤ c.toNat && c.toNat ≤ 0xF7FF)
  | .discard, _ => true

def offending? (mode : Encoding) (content : List Char) : Option Char :=
  content.find? fun c => !mode.admits c

def byte? : Encoding → UInt8 → Option Char
  | .identity, b => some (Char.ofNat b.toNat)
  | .privateUse, b => some (Char.ofNat (if b.toNat < 0x80 then b.toNat else 0xF700 + b.toNat))
  | .discard, _ => none

/-- The bytes of a code point below `2 ^ 31`: one to six of them, a lead byte that tells their number and continuation
bytes of six bits each. On Unicode scalar values this is UTF-8. -/
def codeUnits (n : Nat) : List UInt8 :=
  let rest (k : Nat) : UInt8 := UInt8.ofNat (0x80 + (n >>> (6 * k)) % 64)
  if n < 0x80 then [UInt8.ofNat n]
  else if n < 0x800 then [UInt8.ofNat (0xC0 + (n >>> 6)), rest 0]
  else if n < 0x10000 then [UInt8.ofNat (0xE0 + (n >>> 12)), rest 1, rest 0]
  else if n < 0x200000 then [UInt8.ofNat (0xF0 + (n >>> 18)), rest 2, rest 1, rest 0]
  else if n < 0x4000000 then [UInt8.ofNat (0xF8 + (n >>> 24)), rest 3, rest 2, rest 1, rest 0]
  else [UInt8.ofNat (0xFC + (n >>> 30)), rest 4, rest 3, rest 2, rest 1, rest 0]

def bytes (mode : Encoding) (bs : List UInt8) : List Char := bs.filterMap mode.byte?

def codePoint (mode : Encoding) (n : Nat) : List Char := mode.bytes (codeUnits n)

end Encoding

end CartLua
