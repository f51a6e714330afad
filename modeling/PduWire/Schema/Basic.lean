import PduWire.Region.Writer
import PduWire.Scalar.Basic

/-! # Schemas

A schema is the field table of a struct: the fields in declared order, each with a name, a kind
and an offset from the start of the struct. Schemas are plain data; whether one is sound is for
`Schema.validate` to say. -/

namespace PduWire

mutual

/-- How a field stores its value. -/
inductive FieldKind where
  /-- One scalar in the base region. -/
  | scalar (kind : Kind)
  /-- Text that ends at a NUL, in `capacity` bytes of the base region. -/
  | fixedString (capacity : Nat)
  /-- `length` scalars in the base region. -/
  | array (kind : Kind) (length : Nat)
  /-- Text in the heap. -/
  | string
  /-- Scalars in the heap. -/
  | sequence (kind : Kind)
  /-- A struct in the base region. -/
  | struct (schema : Schema)

/-- A named field at a fixed offset from the start of its struct. -/
structure Field where
  name : String
  kind : FieldKind
  offset : Nat

/-- The field table of a struct type that occupies `size` bytes of the base region. -/
structure Schema where
  name : String
  size : Nat
  fields : List Field

end

namespace FieldKind

/-- Bytes in the base region. -/
def footprint : FieldKind → Nat
  | scalar k => k.footprint
  | fixedString capacity => capacity
  | array k length => saturate (k.footprint * length)
  | string | sequence _ => referenceSize
  | struct s => s.size

/-- Whether the value lives in the heap. -/
def isVariable : FieldKind → Bool
  | string | sequence _ => true
  | scalar _ | fixedString _ | array _ _ | struct _ => false

/-- The short form in failures and layout tables. -/
def describe : FieldKind → String
  | scalar k => k.name
  | fixedString capacity => s!"string[{capacity}]"
  | array k length => s!"{k.name}[{length}]"
  | string => "string"
  | sequence k => s!"{k.name}[]"
  | struct s => s.name

end FieldKind

/-- The first byte past a field. -/
def Field.stop (f : Field) : Nat := saturate (f.offset + f.kind.footprint)

/-- The first field of this name. -/
def Schema.field? (s : Schema) (name : String) : Option Field :=
  s.fields.find? (·.name = name)

mutual

/-- Whether a value of this kind may reach the heap. -/
def FieldKind.usesHeap : FieldKind → Bool
  | .struct s => s.usesHeap
  | .string | .sequence _ => true
  | .scalar _ | .fixedString _ | .array _ _ => false

/-- Whether any field, at any depth, stores its value in the heap. -/
def Schema.usesHeap : Schema → Bool
  | ⟨_, _, fields⟩ => Fields.usesHeap fields

/-- Whether any of the fields stores its value in the heap. -/
def Fields.usesHeap : List Field → Bool
  | [] => false
  | ⟨_, kind, _⟩ :: rest => kind.usesHeap || Fields.usesHeap rest

end

/-! ## Equality of schemas -/

mutual

/-- Whether two kinds are the same, nested tables included. -/
def FieldKind.same : FieldKind → FieldKind → Bool
  | .scalar k, .scalar l => k = l
  | .fixedString m, .fixedString n => m = n
  | .array k m, .array l n => k = l ∧ m = n
  | .string, .string => true
  | .sequence k, .sequence l => k = l
  | .struct s, .struct t => s.same t
  | _, _ => false
termination_by structural kind => kind

/-- Whether two tables are the same, entry by entry. -/
def Schema.same : Schema → Schema → Bool
  | ⟨name, size, fields⟩, ⟨name', size', fields'⟩ =>
    name = name' && size = size' && Fields.same fields fields'
termination_by structural s => s

/-- Whether two lists of fields are the same, entry by entry. -/
def Fields.same : List Field → List Field → Bool
  | [], [] => true
  | ⟨name, kind, offset⟩ :: rest, ⟨name', kind', offset'⟩ :: rest' =>
    name = name' && kind.same kind' && offset = offset' && Fields.same rest rest'
  | _, _ => false
termination_by structural fields => fields

end

mutual

theorem FieldKind.same_iff : ∀ {a b : FieldKind}, a.same b = true ↔ a = b
  | .scalar _, b => by cases b <;> simp [FieldKind.same]
  | .fixedString _, b => by cases b <;> simp [FieldKind.same]
  | .array _ _, b => by cases b <;> simp [FieldKind.same]
  | .string, b => by cases b <;> simp [FieldKind.same]
  | .sequence _, b => by cases b <;> simp [FieldKind.same]
  | .struct s, b => by
    cases b <;> simp only [FieldKind.same, reduceCtorEq, FieldKind.struct.injEq]
    exact Schema.same_iff

theorem Schema.same_iff : ∀ {a b : Schema}, a.same b = true ↔ a = b
  | ⟨_, _, fields⟩, ⟨_, _, fields'⟩ => by
    simp [Schema.same, Fields.same_iff (a := fields) (b := fields'), and_assoc]

theorem Fields.same_iff : ∀ {a b : List Field}, Fields.same a b = true ↔ a = b
  | [], b => by cases b <;> simp [Fields.same]
  | _ :: _, [] => by simp [Fields.same]
  | ⟨_, kind, _⟩ :: rest, ⟨_, kind', _⟩ :: rest' => by
    simp [Fields.same, FieldKind.same_iff (a := kind) (b := kind'),
      Fields.same_iff (a := rest) (b := rest'), and_assoc]

end

instance : DecidableEq FieldKind := fun _ _ ↦ decidable_of_iff _ FieldKind.same_iff

instance : DecidableEq Schema := fun _ _ ↦ decidable_of_iff _ Schema.same_iff

end PduWire
