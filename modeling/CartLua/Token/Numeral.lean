import CartLua.Number.Double
/-!
# Numerals

Numbers are written in decimal, in hexadecimal behind `0x`, or in binary behind `0b`. Reading a numeral gives its value,
or nothing when it is malformed, and the number of characters that belong to it either way.
-/

namespace CartLua.Numeral

def digit? (radix : Nat) (c : Char) : Option Nat :=
  let value :=
    if '0' ≤ c ∧ c ≤ '9' then c.toNat - '0'.toNat
    else if 'a' ≤ c ∧ c ≤ 'f' then c.toNat - 'a'.toNat + 10
    else if 'A' ≤ c ∧ c ≤ 'F' then c.toNat - 'A'.toNat + 10
    else radix
  if value < radix then some value else none

def isDigit (radix : Nat) (c : Char) : Bool := (digit? radix c).isSome

def digits (radix : Nat) : List Char → List Nat
  | [] => []
  | c :: rest =>
    match digit? radix c with
    | some d => d :: digits radix rest
    | none => []

def ofDigits (radix : Nat) (ds : List Nat) : Nat := ds.foldl (fun n d => n * radix + d) 0

def fraction? (radix : Nat) : List Char → Option (List Nat)
  | '.' :: rest => some (digits radix rest)
  | _ => none

/-- Digits with an optional fraction, and how many characters they take. -/
def mantissa (radix : Nat) (text : List Char) : List Nat × List Nat × Nat :=
  let whole := digits radix text
  match fraction? radix (text.drop whole.length) with
  | some fraction => (whole, fraction, whole.length + 1 + fraction.length)
  | none => (whole, [], whole.length)

/-- An exponent: a letter, an optional sign and digits. Gives nothing when the text does not start with one of the
letters, and no value when the digits are missing. -/
def exponent? (small capital : Char) : List Char → Option (Option Int × Nat)
  | [] => none
  | c :: rest =>
    if c = small ∨ c = capital then
      let negative := rest.head? == some '-'
      let signed := negative || rest.head? == some '+'
      let ds := digits 10 (if signed then rest.drop 1 else rest)
      let length := (if signed then 2 else 1) + ds.length
      let size : Int := ofDigits 10 ds
      some (if ds.isEmpty then none else some (if negative then -size else size), length)
    else none

/-- A decimal numeral has the double nearest to what is written. -/
def decimal (text : List Char) : Option Float × Nat :=
  let (whole, fraction, length) := mantissa 10 text
  let all := whole ++ fraction
  let value (e : Int) : Float := Double.ofDecimal (ofDigits 10 all) all.length (e - fraction.length)
  match exponent? 'e' 'E' (text.drop length) with
  | none => (some (value 0), length)
  | some (none, more) => (none, length + more)
  | some (some e, more) => (some (value e), length + more)

/-- The value of digits in a radix, taken up one after the other with every step rounded. -/
def accumulate (radix : Nat) (whole fraction : List Nat) : Float :=
  let base := Float.ofNat radix
  let integral := whole.foldl (fun v d => v * base + Float.ofNat d) (Float.ofNat 0)
  (fraction.foldl (fun (v, scale) d => (v + Float.ofNat d * scale, scale / base)) (integral, Float.ofNat 1 / base)).1

/-- The part of a hexadecimal or binary numeral behind its mark. Only hexadecimal ones may have an exponent, which is a
power of two. -/
def radix (base : Nat) (exponents : Bool) (text : List Char) : Option Float × Nat :=
  let (whole, fraction, length) := mantissa base text
  if whole.isEmpty && fraction.isEmpty then (none, length)
  else
    let value := accumulate base whole fraction
    match if exponents then exponent? 'p' 'P' (text.drop length) else none with
    | none => (some value, length)
    | some (none, more) => (none, length + more)
    | some (some e, more) => (some (value * Double.powerOfTwo e), length + more)

def read (text : List Char) : Option Float × Nat :=
  match text with
  | '0' :: c :: rest =>
    if c = 'x' ∨ c = 'X' then
      let (value, length) := radix 16 true rest
      (value, length + 2)
    else if c = 'b' ∨ c = 'B' then
      let (value, length) := radix 2 false rest
      (value, length + 2)
    else decimal text
  | _ => decimal text

end CartLua.Numeral
