/-!
# Doubles

Binary64 numbers that lie nearest to a ratio of natural numbers. A half goes to the even neighbour, and what is too
large is infinite.
-/

namespace CartLua.Double

/-- The quotient rounded to the nearest natural number, a half to the even one. -/
def roundDiv (num den : Nat) : Nat :=
  let q := num / den
  let r := num % den
  if 2 * r < den then q else if den < 2 * r then q + 1 else q + q % 2

/-- The leading bit of the significand, which the pattern of a normal number leaves out: `2 ^ 52`. -/
def leadingBit : Nat := 0x10000000000000

def signBit : Nat := 0x8000000000000000

def infinityBits : Nat := 0x7FF0000000000000

/-- Floor of the binary logarithm of `num / den`, for positive arguments. -/
def floorLog2 (num den : Nat) : Int :=
  let k : Int := (num.log2 : Int) - den.log2
  let reached := if 0 ≤ k then decide (den <<< k.toNat ≤ num) else decide (den ≤ num <<< (-k).toNat)
  if reached then k else k - 1

/-- The pattern of the double nearest to `num / den`. The significand is rounded at the exponent of its class, and a
carry out of it runs into the exponent field. -/
def bitsOfRatio (num den : Nat) : Nat :=
  if num = 0 then 0
  else
    let e := max (floorLog2 num den - 52) (-1074)
    let significand := if 0 ≤ e then roundDiv num (den <<< e.toNat) else roundDiv (num <<< (-e).toNat) den
    min ((e + 1074).toNat * leadingBit + significand) infinityBits

def ofRatio (num den : Nat) : Float := Float.ofBits (UInt64.ofNat (bitsOfRatio num den))

def infinity : Float := Float.ofBits (UInt64.ofNat infinityBits)

/-- The double nearest to `m * 10 ^ e`, where `m` has `digits` decimal digits at most. The exponent is looked at first:
`10 ^ 310` lies beyond all doubles and half of the least one is above `10 ^ -325`. -/
def ofDecimal (m digits : Nat) (e : Int) : Float :=
  if m = 0 then ofRatio 0 1
  else if e < 0 then
    if (digits : Int) + e < -330 then ofRatio 0 1 else ofRatio m (Nat.pow 10 (-e).toNat)
  else if 310 < e then infinity else ofRatio (m * Nat.pow 10 e.toNat) 1

/-- The power of two with exponent `e`, as one over a power with a positive exponent when `e` is negative. -/
def powerOfTwo (e : Int) : Float :=
  if e ≤ -1024 then ofRatio 0 1
  else if 1024 ≤ e then infinity
  else if e < 0 then ofRatio 1 (1 <<< (-e).toNat) else ofRatio (1 <<< e.toNat) 1

end CartLua.Double
