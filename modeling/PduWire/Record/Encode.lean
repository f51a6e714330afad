import PduWire.Record.Basic
import PduWire.Scalar.Native

/-! # Encoding records

Kinds are known to agree, so that only a text that does not fit its field, or a message that grows
too large, can be refused. The schema is not checked: whoever declares a record type answers for
its table, and a table that is wrong is caught by the regions. -/

namespace PduWire

/-- The images of scalars of one kind, one after the other. -/
def Scalar.images {k : Kind} (items : List (Scalar.Of k)) : Bytes :=
  items.flatMap (·.1.writeNative)

mutual

/-- Writes a value at `offset`. -/
def FieldValue.write : {kind : FieldKind} → FieldValue kind → Nat → Regions →
    Except Error Regions
  | _, .scalar value, offset, r => r.putBytes offset value.1.writeNative
  | .fixedString capacity, .fixedString text, offset, r => do
    r.putBytes offset (← FixedText.encode capacity text.text)
  | _, .array items, offset, r => r.putBytes offset (Scalar.images items.toList)
  | _, .string text, offset, r => r.putHeap offset (Utf8.encode text)
  | _, .sequence items, offset, r => r.putHeap offset (Scalar.images items)
  | _, .struct fields, offset, r => fields.write offset r

/-- Writes the fields of a struct that starts at `base`, in declared order. -/
def FieldValues.write : {fields : List Field} → FieldValues fields → Nat → Regions →
    Except Error Regions
  | _, .nil, _, r => .ok r
  | ⟨name, _, offset⟩ :: _, .cons value values, base, r => do
    let r ← inField name (value.write (base + offset) r)
    values.write base r

end

namespace Record

/-- The message that holds the record. -/
def encode {s : Schema} (v : Record s) (settings : Settings) : Except Error Bytes := do
  let r ← FieldValues.write v 0 {}
  r.assemble s.name s.size settings

end Record

end PduWire
