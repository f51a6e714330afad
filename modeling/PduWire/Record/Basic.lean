import PduWire.Schema.Basic
import PduWire.Text.Fixed
import PduWire.Value.Basic

/-! # Records

A schema also names a type: `Record s` is the type of the structs whose fields are known, with
their kinds, before the program runs. No field can be missing, unknown or of another kind. -/

namespace PduWire

mutual

/-- The values that a field of a kind can hold. -/
inductive FieldValue : FieldKind → Type where
  | scalar {k : Kind} (value : Scalar.Of k) : FieldValue (.scalar k)
  | fixedString {capacity : Nat} (text : FixedText capacity) : FieldValue (.fixedString capacity)
  | array {k : Kind} {length : Nat} (items : Vector (Scalar.Of k) length) :
    FieldValue (.array k length)
  | string (text : String) : FieldValue .string
  | sequence {k : Kind} (items : List (Scalar.Of k)) : FieldValue (.sequence k)
  | struct {s : Schema} (fields : FieldValues s.fields) : FieldValue (.struct s)

/-- A value for each field of a table, in declared order. -/
inductive FieldValues : List Field → Type where
  | nil : FieldValues []
  | cons {name : String} {kind : FieldKind} {offset : Nat} {rest : List Field}
    (value : FieldValue kind) (values : FieldValues rest) :
    FieldValues (⟨name, kind, offset⟩ :: rest)

end

/-- The structs of a schema. -/
abbrev Record (s : Schema) := FieldValues s.fields

/-! ## Values at rest -/

mutual

/-- Zero, the empty text, no items, and so on inside. -/
def FieldKind.zero : (kind : FieldKind) → FieldValue kind
  | .scalar k => .scalar (.read k [])
  | .fixedString _ => .fixedString ⟨""⟩
  | .array k _ => .array (.replicate _ (.read k []))
  | .string => .string ""
  | .sequence _ => .sequence []
  | .struct s => .struct s.zero

/-- The record all of whose fields are zero. -/
def Schema.zero : (s : Schema) → Record s
  | ⟨_, _, fields⟩ => Fields.zero fields

/-- A zero for each field of a table. -/
def Fields.zero : (fields : List Field) → FieldValues fields
  | [] => .nil
  | ⟨_, kind, _⟩ :: rest => .cons kind.zero (Fields.zero rest)

end

/-! ## Records as values of run-time types -/

mutual

/-- The value without its kind. -/
def FieldValue.toValue : {kind : FieldKind} → FieldValue kind → Value
  | _, .scalar value => .scalar value.1
  | _, .fixedString text => .fixedString text.text
  | _, .array items => .array (items.toList.map (·.1))
  | _, .string text => .string text
  | _, .sequence items => .sequence (items.map (·.1))
  | .struct s, .struct fields => .struct ⟨s.name, fields.toEntries⟩

/-- The values under the names of their fields. -/
def FieldValues.toEntries : {fields : List Field} → FieldValues fields → List Entry
  | _, .nil => []
  | ⟨name, _, _⟩ :: _, .cons value values => ⟨name, value.toValue⟩ :: values.toEntries

end

/-- The struct value with the type name and the fields of the record. -/
def Record.toStructValue {s : Schema} (r : Record s) : StructValue :=
  ⟨s.name, FieldValues.toEntries r⟩

end PduWire
