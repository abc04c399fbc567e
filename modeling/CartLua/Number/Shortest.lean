import CartLua.Number.Double
/-!
# Shortest decimals

The fewest decimal digits that read back to the same double. A positive double is `m * 2 ^ q`; the reals that round to it
form an interval around it, whose ends belong to it exactly when `m` is even. On the grid of decimals with one digit,
with two digits and so on, the two neighbours of the double are looked at until one of them lies in the interval.
-/

namespace CartLua.Shortest

/-- A positive double as `m * 2 ^ q`. -/
structure Binary where
  m : Nat
  q : Int
deriving DecidableEq, Inhabited, Repr

structure Decimal where
  digits : Nat
  exponent : Int
deriving DecidableEq, Inhabited, Repr

def decode (bits : Nat) : Binary :=
  let field : Nat := bits / Double.leadingBit % 0x800
  let fraction : Nat := bits % Double.leadingBit
  if field = 0 then ⟨fraction, -1074⟩ else ⟨Double.leadingBit + fraction, (field : Int) - 1075⟩

/-- The double and the ends of its interval over a common denominator. The gap below a power of two is half as wide. -/
structure Interval where
  low : Nat
  value : Nat
  high : Nat
  den : Nat
  closed : Bool
deriving DecidableEq, Inhabited, Repr

def interval (b : Binary) : Interval :=
  let below := if b.m = Double.leadingBit ∧ -1074 < b.q then 1 else 2
  let scale := if 0 ≤ b.q then 1 <<< b.q.toNat else 1
  { low := (4 * b.m - below) * scale
    value := 4 * b.m * scale
    high := (4 * b.m + 2) * scale
    den := 4 * (if 0 ≤ b.q then 1 else 1 <<< (-b.q).toNat)
    closed := b.m % 2 == 0 }

def Interval.holds (i : Interval) (d : Nat) (k : Int) : Bool :=
  let num := if 0 ≤ k then d * Nat.pow 10 k.toNat * i.den else d * i.den
  let unit := if 0 ≤ k then 1 else Nat.pow 10 (-k).toNat
  if i.closed then i.low * unit ≤ num && num ≤ i.high * unit else i.low * unit < num && num < i.high * unit

/-- Floor of the double divided by `10 ^ k`, the double of the remainder and the divisor. -/
def Interval.grid (i : Interval) (k : Int) : Nat × Nat × Nat :=
  let num := if 0 ≤ k then i.value else i.value * Nat.pow 10 (-k).toNat
  let den := if 0 ≤ k then i.den * Nat.pow 10 k.toNat else i.den
  (num / den, 2 * (num % den), den)

/-- The neighbour on the grid of multiples of `10 ^ k` that reads back, the nearer one if both do; of two that are
equally near, the even one. -/
def Interval.hit? (i : Interval) (k : Int) : Option Nat :=
  let (d, twice, den) := i.grid k
  match i.holds d k, i.holds (d + 1) k with
  | true, true => some (if twice < den ∨ (twice = den ∧ d % 2 = 0) then d else d + 1)
  | true, false => some d
  | false, true => some (d + 1)
  | false, false => none

/-- The number of decimal digits before the point of the double, as an exponent of ten above it: the least `k` with
`value < 10 ^ k`, counted up from `start`. -/
def Interval.ceiling (i : Interval) (start : Int) : Nat → Int
  | 0 => start
  | fuel + 1 => if (i.grid start).1 = 0 then start else i.ceiling (start + 1) fuel

def Interval.search (i : Interval) (k : Int) : Nat → Decimal
  | 0 => ⟨(i.grid k).1, k⟩
  | fuel + 1 =>
    match i.hit? k with
    | some d => ⟨d, k⟩
    | none => i.search (k - 1) fuel

def Decimal.trim (d : Decimal) : Nat → Decimal
  | 0 => d
  | fuel + 1 => if d.digits ≠ 0 ∧ d.digits % 10 = 0 then trim ⟨d.digits / 10, d.exponent + 1⟩ fuel else d

/-- The shortest decimal of a positive finite double. Every double lies between `10 ^ -324` and `10 ^ 309`, and seventeen
digits are always enough. -/
def ofBits (bits : Nat) : Decimal :=
  let i := interval (decode bits)
  let top := i.ceiling (-324) 640
  (i.search (top - 1) 18).trim 20

end CartLua.Shortest
