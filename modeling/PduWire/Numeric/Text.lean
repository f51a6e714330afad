import PduWire.Numeric.Shortest

/-! # Decimal notation of binary numbers

Numbers of ordinary size are written with a decimal point and at least one digit on either side of
it, all others with an exponent that shows its sign. -/

namespace PduWire

namespace Decimal

/-- Where positional notation ends: the point stands at most `behind` places after the first
digit's place, and at most `before` zeros stand between the point and the first digit. -/
structure Positional where
  behind : Nat
  before : Nat
deriving DecidableEq, Repr

/-- The notation of double precision. -/
def Positional.double : Positional := ⟨16, 4⟩

/-- The notation of single precision. -/
def Positional.single : Positional := ⟨13, 5⟩

/-- `n` zeros. -/
def zeroDigits (n : Nat) : List Char := List.replicate n '0'

/-- The characters of an integer. -/
def intChars (n : Int) : List Char :=
  if n < 0 then '-' :: Nat.toDigits 10 n.natAbs else Nat.toDigits 10 n.natAbs

/-- The characters of an exponent. -/
def exponentChars (n : Int) : List Char :=
  'e' :: (if n < 0 then '-' else '+') :: Nat.toDigits 10 n.natAbs

/-- The characters of a decimal. `point` is the place of the point after the first digit. -/
def chars (style : Positional) (d : Decimal) : List Char :=
  let digits := Nat.toDigits 10 d.digits
  let point : Int := digits.length + d.exponent
  if 0 ≤ d.exponent ∧ point ≤ style.behind then
    digits ++ zeroDigits d.exponent.toNat ++ ['.', '0']
  else if 0 < point ∧ point ≤ style.behind then
    digits.take point.toNat ++ '.' :: digits.drop point.toNat
  else if -style.before ≤ point ∧ point ≤ 0 then
    '0' :: '.' :: zeroDigits (-point).toNat ++ digits
  else
    match digits with
    | [first] => first :: exponentChars (point - 1)
    | first :: rest => first :: '.' :: rest ++ exponentChars (point - 1)
    | [] => []

end Decimal

/-- The characters of a finite pattern. -/
def Binary.chars (f : Binary) (style : Decimal.Positional) (bits : Nat) : List Char :=
  let magnitude := f.magnitude bits
  let unsigned :=
    if magnitude = 0 then ['0', '.', '0'] else (f.shortest magnitude).chars style
  if f.isNegative bits then '-' :: unsigned else unsigned

end PduWire
