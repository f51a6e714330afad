import PduWire.Json.Parse
import PduWire.Json.Print
import PduWire.Json.Shape
import PduWire.Schema.Basic

/-! # Schemas as JSON

A table is a record of its name, its size and its fields; a field is a record of its name, its kind
and its offset; a kind is a record of its type and what that type needs. Kinds of scalars are names,
or records with a name and nothing under it. -/

namespace PduWire

namespace Kind

/-- The kind that a JSON value names. -/
def ofJson? : Json → Option Kind
  | .string name => ofName? name
  | .object [(name, .null)] | .object [(name, .object [])] => ofName? name
  | _ => none

end Kind

/-- The types of field kinds, in order. -/
def FieldKind.typeNames : List String :=
  ["primitive", "fixed_string", "array", "string", "sequence", "struct"]

/-- The type that a JSON value names: a string, or where `positional` holds also a position in the
list of types. -/
def FieldKind.typeName? (positional : Bool) : Json → Option String
  | .string name => if name ∈ typeNames then some name else none
  | .number (.integer n) =>
    if positional && 0 ≤ n then typeNames[n.toNat]? else none
  | _ => none

/-- The field that a JSON value describes, its kind read by `kindOf?`. -/
def Field.ofJsonWith? (kindOf? : Json → Option FieldKind) (j : Json) : Option Field := do
  let [name, kind, offset] ← j.record? ["name", "kind", "offset"] | none
  return ⟨← name.asString?, ← kindOf? kind, ← offset.asSize?⟩

/-- The table that a JSON value describes, the kinds of its fields read by `kindOf?`. -/
def Schema.ofJsonWith? (kindOf? : Json → Option FieldKind) (j : Json) : Option Schema := do
  let [name, size, fields] ← j.record? ["name", "size", "fields"] | none
  return ⟨← name.asString?, ← size.asSize?,
    ← (← fields.asArray?).mapM (Field.ofJsonWith? kindOf?)⟩

/-- The kind of a named type, with what else is said of it. A table is read by `tableOf?`. -/
def FieldKind.ofContent? (tableOf? : Json → Option Schema) (type : String) (content : Json) :
    Option FieldKind :=
  match type with
  | "primitive" => do
    let [kind] ← content.record? ["kind"] | none
    return .scalar (← Kind.ofJson? kind)
  | "fixed_string" => do
    let [capacity] ← content.record? ["capacity"] | none
    return .fixedString (← capacity.asSize?)
  | "array" => do
    let [kind, length] ← content.record? ["kind", "len"] | none
    return .array (← Kind.ofJson? kind) (← length.asSize?)
  | "string" => do
    let [] ← content.record? [] | none
    return .string
  | "sequence" => do
    let [kind] ← content.record? ["kind"] | none
    return .sequence (← Kind.ofJson? kind)
  | "struct" => do
    let [schema] ← content.record? ["schema"] | none
    return .struct (← tableOf? schema)
  | _ => none

/-- The kind that a JSON value describes. Each table inside another takes one unit of `fuel`; the
types inside a table may be given by position whether or not its own may. -/
def FieldKind.ofJson? : (fuel : Nat) → (positional : Bool) → Json → Option FieldKind
  | 0, _, _ => none
  | fuel + 1, positional, j => do
    let (tag, content) ← j.tagged? "type"
    let type ← FieldKind.typeName? positional tag
    FieldKind.ofContent? (Schema.ofJsonWith? (FieldKind.ofJson? fuel true)) type content

/-- The table that a JSON value describes. Documents nest no deeper than `Json.depthLimit`. -/
def Schema.ofJson? (positional : Bool) (j : Json) : Option Schema :=
  Schema.ofJsonWith? (FieldKind.ofJson? Json.depthLimit positional) j

/-- The tables that a JSON document describes: a single one, or else a list of them. -/
def Schema.listOfJson? (j : Json) : Option (List Schema) :=
  match Schema.ofJson? true j with
  | some s => some [s]
  | none => do (← j.asArray?).mapM (Schema.ofJson? true)

mutual

/-- The JSON value that describes a field kind. -/
def FieldKind.toJson : FieldKind → Json
  | .scalar k => .object [("type", .string "primitive"), ("kind", .string k.name)]
  | .fixedString capacity =>
    .object [("type", .string "fixed_string"), ("capacity", .ofNat capacity)]
  | .array k length =>
    .object [("type", .string "array"), ("kind", .string k.name), ("len", .ofNat length)]
  | .string => .object [("type", .string "string")]
  | .sequence k => .object [("type", .string "sequence"), ("kind", .string k.name)]
  | .struct s => .object [("type", .string "struct"), ("schema", s.toJson)]

/-- The JSON value that describes a table. -/
def Schema.toJson : Schema → Json
  | ⟨name, size, fields⟩ =>
    .object [("name", .string name), ("size", .ofNat size),
      ("fields", .array (Fields.toJson fields))]

/-- The JSON values that describe fields. -/
def Fields.toJson : List Field → List Json
  | [] => []
  | ⟨name, kind, offset⟩ :: rest =>
    .object [("name", .string name), ("kind", kind.toJson), ("offset", .ofNat offset)] ::
      Fields.toJson rest

end

end PduWire
