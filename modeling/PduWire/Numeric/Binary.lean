/-! # Binary floating-point formats

A bit pattern is a sign, an exponent and a fraction; it stands for a rational number, an infinity
or no number. Rounding goes the other way: from a ratio to the nearest pattern. Everything is
exact arithmetic on natural numbers. -/

namespace PduWire

/-- A binary interchange format by the widths of its two last parts. -/
structure Binary where
  exponentBits : Nat
  fractionBits : Nat
deriving DecidableEq, Repr

namespace Binary

/-- Single precision. -/
def single : Binary := ⟨8, 23⟩

/-- Double precision. -/
def double : Binary := ⟨11, 52⟩

variable (f : Binary)

/-- The exponent of the unit in the last place of the smallest numbers. -/
def minExponent : Int := 2 - Nat.pow 2 (f.exponentBits - 1) - f.fractionBits

/-- The pattern of positive infinity. Larger ones, up to the sign, are not numbers. -/
def infinity : Nat := (Nat.pow 2 f.exponentBits - 1) * Nat.pow 2 f.fractionBits

/-- The weight of the sign bit. -/
def signWeight : Nat := Nat.pow 2 (f.exponentBits + f.fractionBits)

/-- Whether the sign bit of a pattern is set. -/
def isNegative (bits : Nat) : Bool := f.signWeight ≤ bits

/-- A pattern without its sign. -/
def magnitude (bits : Nat) : Nat := bits % f.signWeight

/-- The pattern of a magnitude with a sign. -/
def withSign (negative : Bool) (magnitude : Nat) : Nat :=
  if negative then f.signWeight + magnitude else magnitude

/-- Whether a pattern stands for a number. -/
def isFinite (bits : Nat) : Bool := f.magnitude bits < f.infinity

/-- The integer `m` and the exponent `e` with which a finite magnitude is `m * 2 ^ e`. -/
def parts (magnitude : Nat) : Nat × Int :=
  let exponent := magnitude / Nat.pow 2 f.fractionBits
  let fraction := magnitude % Nat.pow 2 f.fractionBits
  if exponent = 0 then (fraction, f.minExponent)
  else (Nat.pow 2 f.fractionBits + fraction, f.minExponent + (exponent - 1))

/-- Numerator and denominator of `m * 2 ^ e`. -/
def scaleTwo (m : Nat) (e : Int) : Nat × Nat :=
  if 0 ≤ e then (m * Nat.pow 2 e.toNat, 1) else (m, Nat.pow 2 (-e).toNat)

/-- Numerator and denominator of a finite magnitude. -/
def ratio (magnitude : Nat) : Nat × Nat :=
  let (m, e) := f.parts magnitude
  scaleTwo m e

/-- The integer nearest to `num / den`; of two, the even one. -/
def roundDiv (num den : Nat) : Nat :=
  let quotient := num / den
  let twice := 2 * (num % den)
  if den < twice ∨ (twice = den ∧ quotient % 2 = 1) then quotient + 1 else quotient

/-- The magnitude nearest to `num / den`; of two, the one with an even fraction. What rounds past
the largest number is infinite. -/
def ofRatio (num den : Nat) : Nat :=
  if num = 0 then 0 else
  let precision : Int := f.fractionBits + 1
  let estimate : Int := (num.log2 : Int) - den.log2 - precision
  let quotient (e : Int) : Nat × Nat :=
    if 0 ≤ e then (num, den * Nat.pow 2 e.toNat) else (num * Nat.pow 2 (-e).toNat, den)
  let (n, d) := quotient estimate
  let exact := if n / d < Nat.pow 2 (f.fractionBits + 1) then estimate else estimate + 1
  let e := max exact f.minExponent
  let (n, d) := quotient e
  min ((e - f.minExponent).toNat * Nat.pow 2 f.fractionBits + roundDiv n d) f.infinity

/-- The magnitude nearest to the product of two finite magnitudes. -/
def mul (a b : Nat) : Nat :=
  let (m, c) := f.ratio a
  let (n, d) := f.ratio b
  f.ofRatio (m * n) (c * d)

/-- The magnitude nearest to the quotient of two finite magnitudes, the second of which is not
zero. -/
def div (a b : Nat) : Nat :=
  let (m, c) := f.ratio a
  let (n, d) := f.ratio b
  f.ofRatio (m * d) (c * n)

/-- The pattern nearest to an integer. -/
def ofInt (n : Int) : Nat := f.withSign (n < 0) (f.ofRatio n.natAbs 1)

/-- The pattern of format `g` nearest to a pattern of format `f`. Infinities stay infinite, and
what is no number keeps only its sign. -/
def convert (g : Binary) (bits : Nat) : Nat :=
  let m := f.magnitude bits
  let converted :=
    if m < f.infinity then
      let (num, den) := f.ratio m
      g.ofRatio num den
    else if m = f.infinity then g.infinity
    else g.infinity + Nat.pow 2 (g.fractionBits - 1)
  g.withSign (f.isNegative bits) converted

end Binary

end PduWire
