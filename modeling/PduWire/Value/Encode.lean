import PduWire.Scalar.Codec
import PduWire.Schema.Validate
import PduWire.Text.Fixed
import PduWire.Value.Basic

/-! # Encoding values of run-time types

The walk follows the schema: fields in declared order, each at the offset of its struct plus its
own. Heap payloads therefore lie in declared order whatever order the value lists its fields in. -/

namespace PduWire

namespace Kind

/-- The width of a kind that has one. -/
def fixedWidth (k : Kind) : Except Error Nat :=
  match k.width? with
  | some width => .ok width
  | none => .error (.unknownKind s!"{k.name} (no fixed width)")

/-- The image of a scalar, which has to be of this kind. -/
def encodeScalar (k : Kind) (s : Scalar) : Except Error Bytes := do
  if s.kind = k then
    Scalar.encode k s (← k.fixedWidth)
  else
    throw (.schemaMismatch "" k.name s.kind.name)

/-- The images of scalars, which all have to be of this kind, one after the other. -/
def encodeScalars (k : Kind) (items : List Scalar) : Except Error Bytes := do
  let _ ← k.fixedWidth
  return (← items.mapM k.encodeScalar).flatten

end Kind

/-- A struct value fits a schema only if it is of that type, or leaves its type open, and has no
field that the schema does not have. -/
def Schema.checkNames (s : Schema) (v : StructValue) : Except Error Unit :=
  if v.typeName ≠ "" ∧ v.typeName ≠ s.name then
    .error (.schemaMismatch "" s.name v.typeName)
  else
    match v.fields.find? fun e ↦ (s.field? e.name).isNone with
    | some e => .error (.schemaMismatch e.name "no such field" "value")
    | none => .ok ()

mutual

/-- Writes a value of this kind at `offset`. -/
def FieldKind.write : FieldKind → Value → Nat → Regions → Except Error Regions
  | .scalar k, .scalar s, offset, r => do
    r.putBytes offset (← k.encodeScalar s)
  | .fixedString capacity, .fixedString text, offset, r => do
    r.putBytes offset (← FixedText.encode capacity text)
  | .array k length, .array items, offset, r => do
    if items.length ≠ length then
      throw (.schemaMismatch "" s!"{k.name}[{length}]" s!"{k.name}[{items.length}]")
    r.putBytes offset (← k.encodeScalars items)
  | .string, .string text, offset, r => r.putHeap offset (Utf8.encode text)
  | .sequence k, .sequence items, offset, r => do
    r.putHeap offset (← k.encodeScalars items)
  | .struct s, .struct v, offset, r => s.write v offset r
  | kind, value, _, _ => .error (.schemaMismatch "" kind.describe value.describe)
termination_by structural kind => kind

/-- Writes a struct value that starts at `base`. -/
def Schema.write : Schema → StructValue → Nat → Regions → Except Error Regions
  | ⟨name, size, fields⟩, v, base, r => do
    Schema.checkNames ⟨name, size, fields⟩ v
    Fields.write fields v base r
termination_by structural s => s

/-- Writes the values that `v` has for the fields, in declared order. -/
def Fields.write : List Field → StructValue → Nat → Regions → Except Error Regions
  | [], _, _, r => .ok r
  | ⟨name, kind, offset⟩ :: rest, v, base, r => do
    let r ← inField name (match v.get? name with
      | some value => kind.write value (base + offset) r
      | none => .error (.schemaMismatch "" kind.describe "missing"))
    Fields.write rest v base r
termination_by structural fields => fields

end

/-- The message that holds `v` as a struct of this schema. The schema is checked first, and one
that can never fit the limit is refused before its values are looked at. -/
def Schema.encode (s : Schema) (v : StructValue) (settings : Settings) : Except Error Bytes := do
  s.validate
  if settings.maxSize < s.size then
    throw (.messageTooLarge s.size settings.maxSize)
  let r ← s.write v 0 {}
  r.assemble s.name s.size settings

end PduWire
