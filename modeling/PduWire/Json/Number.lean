import PduWire.Json.Basic

/-! # Numbers in JSON texts

A numeral is read as its digits, then given a value. The value of one with a point, an exponent or
too many digits is a double: the digits that fit a 64-bit word, multiplied or divided by a power
of ten, with a rounding at each step. -/

namespace PduWire.Json

/-- A number as written. -/
structure Numeral where
  negative : Bool
  whole : List Nat
  fraction : List Nat
  exponent : Option Int
deriving DecidableEq, Repr

namespace Numeral

/-- The value of a digit character. -/
def digitValue (c : Char) : Nat := c.toNat - '0'.toNat

/-- Extends a number by digits as long as it fits a 64-bit word. The second component holds the
digits from the first one on that did not fit. -/
def takeWord : Nat → List Nat → Nat × List Nat
  | n, [] => (n, [])
  | n, d :: rest => if 10 * n + d ≤ 0xFFFFFFFFFFFFFFFF then takeWord (10 * n + d) rest
    else (n, d :: rest)

/-- The largest exponent of a power of ten in double precision. -/
def tenLimit : Nat := 308

/-- The double nearest to a power of ten. -/
def powTen (n : Nat) : Nat := Binary.double.ofRatio (Nat.pow 10 n) 1

/-- A finite magnitude times `10 ^ e`, if that is in range. A power below the smallest one is
applied in steps. -/
def scaleTen (magnitude : Nat) (e : Int) : Option Nat :=
  if e.natAbs ≤ tenLimit then
    let scaled :=
      if 0 ≤ e then Binary.double.mul magnitude (powTen e.natAbs)
      else Binary.double.div magnitude (powTen e.natAbs)
    if Binary.double.isFinite scaled then some scaled else none
  else if magnitude = 0 then some 0
  else if 0 < e then none
  else scaleTen (Binary.double.div magnitude (powTen tenLimit)) (e + tenLimit)
termination_by e.natAbs
decreasing_by simp only [tenLimit] at *; omega

/-- The double of a sign and a magnitude. -/
def ofMagnitude (negative : Bool) (magnitude : Nat) : Number :=
  .double (.ofNat (Binary.double.withSign negative magnitude))

/-- The value of a numeral, if it is in range. Negative zero is no integer. -/
def value? (n : Numeral) : Option Number :=
  let (significand, leftOver) := takeWord 0 n.whole
  if n.fraction.isEmpty ∧ n.exponent.isNone ∧ leftOver.isEmpty then
    if !n.negative then some (.integer significand)
    else if 0 < significand ∧ significand ≤ 0x8000000000000000 then some (.integer (-significand))
    else some (ofMagnitude true (Binary.double.ofRatio significand 1))
  else
    let (significand, unused) := takeWord significand n.fraction
    let places : Int := n.fraction.length - unused.length
    let e := leftOver.length - places + n.exponent.getD 0
    (scaleTen (Binary.double.ofRatio significand 1) e).map (ofMagnitude n.negative)

end Numeral

/-! ## Reading numerals -/

/-- The digits at the start of a text, and what follows them. -/
def takeDigits (cs : List Char) : List Nat × List Char :=
  ((cs.takeWhile Char.isDigit).map Numeral.digitValue, cs.dropWhile Char.isDigit)

/-- The digits after a point, if there is one. A point takes at least one digit. -/
def readFraction : List Char → Option (List Nat × List Char)
  | '.' :: rest =>
    match takeDigits rest with
    | ([], _) => none
    | (digits, rest) => some (digits, rest)
  | rest => some ([], rest)

/-- The number after the sign of an exponent. -/
def readExponentDigits (negative : Bool) (cs : List Char) : Option (Option Int × List Char) :=
  match takeDigits cs with
  | ([], _) => none
  | (digits, rest) =>
    let n : Nat := digits.foldl (fun n d ↦ 10 * n + d) 0
    some (some (if negative then -(n : Int) else (n : Int)), rest)

/-- The exponent, if there is one. -/
def readExponent : List Char → Option (Option Int × List Char)
  | c :: rest =>
    if c = 'e' ∨ c = 'E' then
      match rest with
      | '+' :: rest => readExponentDigits false rest
      | '-' :: rest => readExponentDigits true rest
      | rest => readExponentDigits false rest
    else some (none, c :: rest)
  | [] => some (none, [])

/-- The numeral with this sign whose digits stand at the start of a text, and what follows it. Only
zero starts with a zero. -/
def readUnsigned (negative : Bool) (cs : List Char) : Option (Numeral × List Char) :=
  match takeDigits cs with
  | ([], _) => none
  | (0 :: _ :: _, _) => none
  | (whole, rest) =>
    match readFraction rest with
    | none => none
    | some (fraction, rest) =>
      match readExponent rest with
      | none => none
      | some (exponent, rest) => some (⟨negative, whole, fraction, exponent⟩, rest)

/-- The numeral at the start of a text, and what follows it. -/
def readNumeral : List Char → Option (Numeral × List Char)
  | '-' :: rest => readUnsigned true rest
  | cs => readUnsigned false cs

/-- The number at the start of a text, and what follows it. -/
def readNumber (cs : List Char) : Option (Json × List Char) :=
  (readNumeral cs).map fun (n, rest) ↦
    (match n.value? with
      | some value => number value
      | none => unusable, rest)

end PduWire.Json
