import PduWire.Json.Parse
import PduWire.Json.Print
import PduWire.Record.Basic
import PduWire.Scalar.Json

/-! # Records as JSON

A record is a JSON record of its fields. Reading checks what a record type cannot say: that a text
of fixed capacity fits. -/

namespace PduWire

mutual

/-- The JSON value of a field. -/
def FieldValue.toJson : {kind : FieldKind} → FieldValue kind → Json
  | _, .scalar value => value.1.toJson
  | _, .fixedString text => .string text.text
  | _, .array items => .array (items.toList.map (·.1.toJson))
  | _, .string text => .string text
  | _, .sequence items => .array (items.map (·.1.toJson))
  | _, .struct fields => .object fields.toMembers

/-- The JSON values of the fields under their names. -/
def FieldValues.toMembers : {fields : List Field} → FieldValues fields → List (String × Json)
  | _, .nil => []
  | ⟨name, _, _⟩ :: _, .cons value values => (name, value.toJson) :: values.toMembers

end

/-- The JSON value of a record. -/
def Record.toJson {s : Schema} (r : Record s) : Json := .object (FieldValues.toMembers r)

mutual

/-- The value of this kind that a JSON value describes. -/
def FieldKind.valueOfJson? : (kind : FieldKind) → Json → Option (FieldValue kind)
  | .scalar k, j => do
    return .scalar (← Scalar.Of.ofJson? k j)
  | .fixedString capacity, j => do
    return .fixedString (← (FixedText.ofText capacity (← j.asString?)).toOption)
  | .array k length, j => do
    let items ← (← j.asArray?).mapM (Scalar.Of.ofJson? k)
    if h : items.length = length then
      return .array ⟨items.toArray, by simpa using h⟩
    else
      none
  | .string, j => do
    return .string (← j.asString?)
  | .sequence k, j => do
    return .sequence (← (← j.asArray?).mapM (Scalar.Of.ofJson? k))
  | .struct s, j => do
    return .struct (← s.recordOfJson? j)

/-- The record that a JSON value describes. -/
def Schema.recordOfJson? : (s : Schema) → Json → Option (Record s)
  | ⟨_, _, fields⟩, j => do
    Fields.valuesOfJson? fields (← j.record? (fields.map (·.name)))

/-- The values of the fields that JSON values in the same order describe. -/
def Fields.valuesOfJson? : (fields : List Field) → List Json → Option (FieldValues fields)
  | [], [] => some .nil
  | ⟨_, kind, _⟩ :: rest, j :: more => do
    return .cons (← kind.valueOfJson? j) (← Fields.valuesOfJson? rest more)
  | _, _ => none

end

end PduWire
