import PduWire.Json.Shape
import PduWire.Scalar.Basic

/-! # Scalars as JSON

Integers and truth values are themselves, byte strings are arrays of numbers. A floating-point
number may be written as an integer; it is rounded to its format. -/

namespace PduWire

namespace Scalar

/-- The JSON value of a scalar, without its kind. -/
def toJson : Scalar → Json
  | uint8 v => .ofNat v.toNat
  | uint16 v => .ofNat v.toNat
  | uint32 v => .ofNat v.toNat
  | uint64 v => .ofNat v.toNat
  | int8 v => .ofInt v.toInt
  | int16 v => .ofInt v.toInt
  | int32 v => .ofInt v.toInt
  | int64 v => .ofInt v.toInt
  | bool v => .bool v
  | float32 bits => .ofSingle bits
  | float64 bits => .ofDouble bits
  | bytes v => .array (v.map fun b ↦ .ofNat b.toNat)

/-- The pattern of a JSON number in a floating-point format. -/
def patternOf? (f : Binary) : Json → Option Nat
  | .number (.integer n) => some (f.ofInt n)
  | .number (.double bits) => some (Binary.double.convert f bits.toNat)
  | .number (.single bits) => some (Binary.single.convert f bits.toNat)
  | _ => none

/-- The scalar of kind `k` that a JSON value describes. -/
def ofJson? (k : Kind) (j : Json) : Option Scalar :=
  match k with
  | .uint8 => (j.asNat? 0xFF).map fun n ↦ uint8 (.ofNat n)
  | .uint16 => (j.asNat? 0xFFFF).map fun n ↦ uint16 (.ofNat n)
  | .uint32 => (j.asNat? 0xFFFFFFFF).map fun n ↦ uint32 (.ofNat n)
  | .uint64 => (j.asNat? 0xFFFFFFFFFFFFFFFF).map fun n ↦ uint64 (.ofNat n)
  | .int8 => (j.asInt? (-0x80) 0x7F).map fun n ↦ int8 (.ofInt n)
  | .int16 => (j.asInt? (-0x8000) 0x7FFF).map fun n ↦ int16 (.ofInt n)
  | .int32 => (j.asInt? (-0x80000000) 0x7FFFFFFF).map fun n ↦ int32 (.ofInt n)
  | .int64 => (j.asInt? (-0x8000000000000000) 0x7FFFFFFFFFFFFFFF).map fun n ↦ int64 (.ofInt n)
  | .bool => j.asBool?.map bool
  | .float32 => (patternOf? .single j).map fun n ↦ float32 (.ofNat n)
  | .float64 => (patternOf? .double j).map fun n ↦ float64 (.ofNat n)
  | .bytes => do
    let items ← j.asArray?
    return bytes (← items.mapM fun item ↦ (item.asNat? 0xFF).map UInt8.ofNat)

/-- The scalar that a JSON value describes, with its kind. -/
def Of.ofJson? (k : Kind) (j : Json) : Option (Of k) := do
  (← Scalar.ofJson? k j).ofKind? k

end Scalar

/-- The name of a kind where its values stand with their kind: the first letter is a capital. -/
def Kind.title : Kind → String
  | uint8 => "Uint8"
  | uint16 => "Uint16"
  | uint32 => "Uint32"
  | uint64 => "Uint64"
  | int8 => "Int8"
  | int16 => "Int16"
  | int32 => "Int32"
  | int64 => "Int64"
  | bool => "Bool"
  | float32 => "Float32"
  | float64 => "Float64"
  | bytes => "Bytes"

namespace Scalar

/-- The JSON value of a scalar under the title of its kind. -/
def toTitledJson (s : Scalar) : Json := .object [(s.kind.title, s.toJson)]

/-- The scalar that a JSON value describes under the title of its kind. -/
def ofTitledJson? (j : Json) : Option Scalar := do
  let (title, content) ← j.choice?
  let k ← Kind.all.find? (·.title = title)
  ofJson? k content

end Scalar

end PduWire
