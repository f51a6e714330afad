import PduWire.Schema.Json
import PduWire.Schema.Layout
import PduWire.Value.Decode

/-! # Registries

A registry holds sound schemas by name. A name keeps its schema for good: registering the same
table again changes nothing, and another table under the name is refused. -/

namespace PduWire

/-- The registered schemas, in the order of their names. -/
structure Registry where
  schemas : List Schema := []

namespace Registry

/-- The schema of this name, if there is one. -/
def find? (r : Registry) (name : String) : Option Schema :=
  r.schemas.find? (·.name = name)

/-- The schema of this name. -/
def get (r : Registry) (name : String) : Except Error Schema :=
  match r.find? name with
  | some s => .ok s
  | none => .error (.unknownType name)

/-- Whether a schema of this name is registered. -/
def contains (r : Registry) (name : String) : Bool := (r.find? name).isSome

/-- The registered names in ascending order. -/
def names (r : Registry) : List String := r.schemas.map (·.name)

/-- The number of registered schemas. -/
def size (r : Registry) : Nat := r.schemas.length

/-- A schema among others in the order of their names. -/
def insertSorted (s : Schema) : List Schema → List Schema
  | [] => [s]
  | t :: rest => if s.name < t.name then s :: t :: rest else t :: insertSorted s rest

/-- What asking a registry leads to: the result, and the registry that is left. -/
def ask {α : Type} (r : Registry) (call : ExceptT Error (StateM Registry) α) :
    Except Error α × Registry := call.run.run r

/-- Adds a schema to the registry at hand once it has been found sound. -/
def register (s : Schema) : ExceptT Error (StateM Registry) Unit := do
  ofExcept s.validate
  let r ← getThe Registry
  match r.find? s.name with
  | some known =>
    if known = s then return ()
    else throw (.invalidSchema s!"{s.name}: conflicting layout already registered")
  | none => set (Registry.mk (insertSorted s r.schemas))

/-- Adds schemas one after the other, up to the first that is refused. -/
def registerAll (schemas : List Schema) : ExceptT Error (StateM Registry) Unit :=
  schemas.forM register

/-! ## Documents -/

/-- The failure of a text that is no JSON. -/
def syntaxError : Error := .invalidSchema "schema JSON"

/-- The failure of a JSON document that describes no schemas. -/
def shapeError : Error :=
  .invalidSchema
    "schema JSON: data did not match any variant of untagged enum SchemaDocument"

/-- The schemas that a text describes. The document is judged as soon as it has been read; only
then does the text after it count. -/
def readDocument (text : String) : Except Error (List Schema) :=
  match Json.readFrom text with
  | none => .error syntaxError
  | some (j, rest) =>
    if j.isUsable then
      match Schema.listOfJson? j with
      | none => .error shapeError
      | some schemas =>
        if (Json.skipBlanks rest).isEmpty then .ok schemas else .error syntaxError
    else .error syntaxError

/-- Adds the schemas that a text describes. They go into a copy of the registry at hand, which takes
its place once they are all in. The result is the number of schemas in the text. -/
def load (text : String) : ExceptT Error (StateM Registry) Nat := do
  let schemas ← ofExcept (readDocument text)
  let (result, staged) := (← getThe Registry).ask (registerAll schemas)
  ofExcept result
  set staged
  return schemas.length

/-- All schemas as a document that can be loaded. -/
def document (r : Registry) : String := (Json.array (r.schemas.map Schema.toJson)).pretty

/-! ## Use -/

/-- How a registered field differs from the declared type, if it does. -/
def fieldMismatch? (declared : Schema) (f : Field) : Option Error :=
  match declared.field? f.name with
  | none => some (.schemaMismatch f.name f.kind.describe "no such Rust field")
  | some g =>
    if g.kind ≠ f.kind ∨ g.offset ≠ f.offset then
      some (.schemaMismatch f.name s!"{f.kind.describe} at {f.offset}"
        s!"{g.kind.describe} at {g.offset}")
    else none

/-- How a registered table differs from the declared type, if it does. The size comes first, then
the registered fields, then the declared ones; their order is no difference. -/
def mismatch? (registered declared : Schema) : Option Error :=
  if registered.size ≠ declared.size then
    some (.schemaMismatch "" s!"{registered.size} bytes" s!"{declared.size} bytes")
  else
    match registered.fields.findSome? (fieldMismatch? declared) with
    | some e => some e
    | none =>
      (declared.fields.find? fun f ↦ (registered.field? f.name).isNone).map fun extra ↦
        .schemaMismatch extra.name "no such schema field" extra.kind.describe

/-- Whether the schema registered under the name of a declared type has its table. -/
def verify (r : Registry) (declared : Schema) : Except Error Unit := do
  match mismatch? (← r.get declared.name) declared with
  | some e => throw e
  | none => return ()

/-- The message that holds a value under the schema of its type. -/
def encode (r : Registry) (v : StructValue) : Except Error Bytes := do
  (← r.get v.typeName).encode v {}

/-- The value of the named type that a buffer starts with. -/
def decode (r : Registry) (name : String) (buffer : Bytes) : Except Error StructValue := do
  (← r.get name).decode buffer {}

end Registry

end PduWire
