import PduWire.Numeric.Binary

/-! # Shortest decimals

The decimal that stands for a binary number in print is one with the fewest digits that still
rounds to that number, and of those the nearest to it. -/

namespace PduWire

/-- The number `digits * 10 ^ exponent`. -/
structure Decimal where
  digits : Nat
  exponent : Int
deriving DecidableEq, Repr

namespace Binary

/-- The interval of the rationals that round to one magnitude. The three numerators have the
denominator `den` in common. -/
structure Interval where
  low : Nat
  value : Nat
  high : Nat
  den : Nat
  /-- Whether the two ends round to the magnitude too. -/
  closed : Bool
deriving DecidableEq, Repr

/-- The rationals that round to a finite magnitude that is not zero. They reach half way to the
two neighbours, of which the lower one is nearer where the exponent changes. The ends go to the
even fraction. -/
def interval (f : Binary) (magnitude : Nat) : Interval :=
  let (m, e) := f.parts magnitude
  let (num, den) := scaleTwo 1 (e - 2)
  let below := if m = Nat.pow 2 f.fractionBits ∧ f.minExponent < e then 1 else 2
  { low := (4 * m - below) * num
    value := 4 * m * num
    high := (4 * m + 2) * num
    den := den
    closed := m % 2 = 0 }

/-- Whether `num / den` lies in an interval. -/
def Interval.contains (i : Interval) (num den : Nat) : Bool :=
  if i.closed then i.low * den ≤ num * i.den && num * i.den ≤ i.high * den
  else i.low * den < num * i.den && num * i.den < i.high * den

/-- The least `k` with `num < den * 10 ^ k`, at most `fuel` more than `k`. -/
def leastPower (num den : Nat) : (fuel k : Nat) → Nat
  | 0, k => k
  | fuel + 1, k => if num < den * Nat.pow 10 k then k else leastPower num den fuel (k + 1)

/-- The position of the first digit of `num / den`: the `k` with
`10 ^ (k - 1) ≤ num / den < 10 ^ k`. -/
def firstDigit (num den : Nat) : Int :=
  if den ≤ num then leastPower num den (num.log2 + 1) 0
  else 1 - (leastPower (den - 1) num (den.log2 + 1) 0 : Int)

/-- The multiples of `10 ^ e` next to the value of an interval that lie in it, the nearer one
first; of two at one distance, the one with an even last digit. -/
def Interval.pointOn? (i : Interval) (e : Int) : Option Nat :=
  let (up, down) := if 0 ≤ e then (Nat.pow 10 e.toNat, 1) else (1, Nat.pow 10 (-e).toNat)
  let below := i.value * down / (i.den * up)
  let nearest := roundDiv (i.value * down) (i.den * up)
  let farther := if nearest = below then below + 1 else below
  [nearest, farther].find? fun n ↦ 0 < n && i.contains (n * up) down

/-- The first decimal in the interval, trying `count` digits and then up to `fuel` more. A point
that is rounded up to the next power of ten has but one digit. -/
def Interval.search (i : Interval) (first : Int) : (fuel count : Nat) → Decimal
  | 0, count => ⟨i.value / i.den, count⟩
  | fuel + 1, count =>
    let e := first - count
    match i.pointOn? e with
    | some n => if n = Nat.pow 10 count then ⟨1, first⟩ else ⟨n, e⟩
    | none => i.search first fuel (count + 1)

/-- The shortest decimal of a finite magnitude that is not zero. Seventeen digits tell any two
numbers of double precision apart. -/
def shortest (f : Binary) (magnitude : Nat) : Decimal :=
  let i := f.interval magnitude
  i.search (firstDigit i.value i.den) 17 1

end Binary

end PduWire
