import PduWire.Json.Parse
import PduWire.Json.Print
import PduWire.Scalar.Json
import PduWire.Value.Basic

/-! # Values of run-time types as JSON

A struct value is a record of its type name and its fields, each a pair of a name and a value; a
value stands under the name of its form. -/

namespace PduWire

/-- The struct value that a JSON value describes, the values of its fields read by `valueOf?`. -/
def StructValue.ofJsonWith? (valueOf? : Json → Option Value) (j : Json) : Option StructValue := do
  let [typeName, fields] ← j.record? ["type_name", "fields"] | none
  return ⟨← typeName.asString?, ← (← fields.asArray?).mapM fun entry ↦ do
    let [name, value] ← entry.asArray? | none
    return ⟨← name.asString?, ← valueOf? value⟩⟩

/-- The value that a JSON value describes. A struct inside another takes one unit of `fuel`. -/
def Value.ofJson? : (fuel : Nat) → Json → Option Value
  | 0, _ => none
  | fuel + 1, j => do
    let (form, content) ← j.choice?
    match form with
    | "primitive" => return .scalar (← Scalar.ofTitledJson? content)
    | "fixed_string" => return .fixedString (← content.asString?)
    | "string" => return .string (← content.asString?)
    | "array" => return .array (← (← content.asArray?).mapM Scalar.ofTitledJson?)
    | "sequence" => return .sequence (← (← content.asArray?).mapM Scalar.ofTitledJson?)
    | "struct" => return .struct (← StructValue.ofJsonWith? (Value.ofJson? fuel) content)
    | _ => none

/-- The struct value that a JSON value describes. Documents nest no deeper than
`Json.depthLimit`. -/
def StructValue.ofJson? (j : Json) : Option StructValue :=
  StructValue.ofJsonWith? (Value.ofJson? Json.depthLimit) j

mutual

/-- The JSON value that describes a value. -/
def Value.toJson : Value → Json
  | .scalar s => .object [("primitive", s.toTitledJson)]
  | .fixedString text => .object [("fixed_string", .string text)]
  | .string text => .object [("string", .string text)]
  | .array items => .object [("array", .array (items.map Scalar.toTitledJson))]
  | .sequence items => .object [("sequence", .array (items.map Scalar.toTitledJson))]
  | .struct v => .object [("struct", v.toJson)]

/-- The JSON value that describes a struct value. -/
def StructValue.toJson : StructValue → Json
  | ⟨typeName, fields⟩ =>
    .object [("type_name", .string typeName), ("fields", .array (Entries.toJson fields))]

/-- The JSON values that describe entries. -/
def Entries.toJson : List Entry → List Json
  | [] => []
  | ⟨name, value⟩ :: rest => .array [.string name, value.toJson] :: Entries.toJson rest

end

end PduWire
