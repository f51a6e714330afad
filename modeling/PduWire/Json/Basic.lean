import PduWire.Numeric.Text

/-! # JSON documents

The values of JSON texts. Objects keep their members in order, repeated names included, so that a
reader can tell a repeated name from a single one. -/

namespace PduWire.Json

/-- Whether a character may stand between the parts of a text without a meaning. -/
def isBlank (c : Char) : Bool := c = ' ' || c = '\n' || c = '\t' || c = '\r'

/-- A number. A text without point and exponent is an integer if it fits a signed or unsigned word
of 64 bits; every other number is a floating-point pattern. -/
inductive Number where
  | integer (value : Int)
  | single (bits : UInt32)
  | double (bits : UInt64)
deriving DecidableEq, Repr

end PduWire.Json

namespace PduWire

/-- A JSON value. -/
inductive Json where
  | null
  | bool (value : Bool)
  | number (value : Json.Number)
  | string (value : String)
  | array (items : List Json)
  | object (members : List (String × Json))
  /-- What a well-formed text says but no value can hold: a number beyond the range of double
  precision, a string or name with half a surrogate pair, or nesting past the limit. A document
  may hold it where it is ignored. -/
  | unusable

namespace Json

instance : Inhabited Json := ⟨null⟩

/-- An integer. -/
def ofInt (n : Int) : Json := number (.integer n)

/-- A natural number. -/
def ofNat (n : Nat) : Json := ofInt n

/-- A number of single precision. There is no text for an infinity or for what is no number. -/
def ofSingle (bits : UInt32) : Json :=
  if Binary.single.isFinite bits.toNat then number (.single bits) else null

/-- A number of double precision. There is no text for an infinity or for what is no number. -/
def ofDouble (bits : UInt64) : Json :=
  if Binary.double.isFinite bits.toNat then number (.double bits) else null

mutual

/-- Whether no part of the value is unusable. -/
def isUsable : Json → Bool
  | null | bool _ | number _ | string _ => true
  | array items => allUsable items
  | object members => allMembersUsable members
  | unusable => false

/-- Whether no part of the items is unusable. -/
def allUsable : List Json → Bool
  | [] => true
  | item :: rest => item.isUsable && allUsable rest

/-- Whether no part of the members is unusable. -/
def allMembersUsable : List (String × Json) → Bool
  | [] => true
  | (_, value) :: rest => value.isUsable && allMembersUsable rest

end

end Json

end PduWire
