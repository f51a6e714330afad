import PduWire.Schema.Basic
import PduWire.Text.Utf8
import PduWire.Value.Basic

/-! # Values that conform to a schema

`Schema.Conforms` says which struct values a schema describes, and `Schema.normalize` gives such a
value the one form in which it is read back: every struct with its type name, and its fields in
declared order, each once. -/

namespace PduWire

mutual

/-- Whether a value is one of this kind and fits its place. -/
def FieldKind.Fits : FieldKind → Value → Prop
  | .scalar k, .scalar s => s.kind = k
  | .fixedString capacity, .fixedString text =>
    (Utf8.encode text).length < capacity ∧ 0 ∉ Utf8.encode text
  | .array k length, .array items => items.length = length ∧ ∀ s ∈ items, s.kind = k
  | .string, .string _ => True
  | .sequence k, .sequence items => ∀ s ∈ items, s.kind = k
  | .struct s, .struct v => s.Conforms v
  | _, _ => False
termination_by structural kind => kind

/-- Whether a struct value has the type of the schema or none, no field that the schema lacks, and
a value that fits for every field. -/
def Schema.Conforms : Schema → StructValue → Prop
  | ⟨name, _, fields⟩, v =>
    (v.typeName = "" ∨ v.typeName = name) ∧ (∀ e ∈ v.fields, ∃ f ∈ fields, f.name = e.name) ∧
      Fields.Fit fields v
termination_by structural s => s

/-- Whether a struct value has a value that fits for each of the fields. -/
def Fields.Fit : List Field → StructValue → Prop
  | [], _ => True
  | ⟨name, kind, _⟩ :: rest, v =>
    (∃ value, v.get? name = some value ∧ kind.Fits value) ∧ Fields.Fit rest v
termination_by structural fields => fields

end

mutual

/-- The value with every struct in it normalized. -/
def FieldKind.normalize : FieldKind → Value → Value
  | .struct s, .struct v => .struct (s.normalize v)
  | _, value => value
termination_by structural kind => kind

/-- The struct value with the type name of the schema and the fields of the schema. -/
def Schema.normalize : Schema → StructValue → StructValue
  | ⟨name, _, fields⟩, v => ⟨name, Fields.normalize fields v⟩
termination_by structural s => s

/-- The values that count for the fields, in declared order. -/
def Fields.normalize : List Field → StructValue → List Entry
  | [], _ => []
  | ⟨name, kind, _⟩ :: rest, v =>
    ((v.get? name).map fun value ↦ ⟨name, kind.normalize value⟩).toList ++
      Fields.normalize rest v
termination_by structural fields => fields

end

end PduWire
