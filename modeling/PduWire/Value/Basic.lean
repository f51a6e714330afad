import PduWire.Scalar.Basic

/-! # Values of run-time types

A tree of values by field name, for structs whose schema is only known at run time. Field lists
are taken as they come: a name may repeat, and then its first entry counts. -/

namespace PduWire

mutual

/-- The value of one field. -/
inductive Value where
  | scalar (value : Scalar)
  | fixedString (text : String)
  | string (text : String)
  | array (items : List Scalar)
  | sequence (items : List Scalar)
  | struct (value : StructValue)

/-- A struct with its type name, which may be empty. -/
structure StructValue where
  typeName : String
  fields : List Entry

/-- A field name with its value. -/
structure Entry where
  name : String
  value : Value

end

namespace Value

/-- The scalar of kind `k`, if the value is one. -/
def asScalar? (k : Kind) : Value → Option (Scalar.Of k)
  | scalar s => s.ofKind? k
  | _ => none

/-- The text, if the value is one. -/
def asText? : Value → Option String
  | fixedString text | string text => some text
  | _ => none

/-- The struct, if the value is one. -/
def asStruct? : Value → Option StructValue
  | struct v => some v
  | _ => none

/-- The short form in failures. -/
def describe : Value → String
  | scalar s => s.kind.name
  | fixedString _ => "fixed string"
  | string _ => "string"
  | array items => s!"array of {items.length}"
  | sequence items => s!"sequence of {items.length}"
  | struct v => s!"struct {v.typeName}"

end Value

namespace StructValue

/-- A struct without fields. -/
def empty (typeName : String) : StructValue := ⟨typeName, []⟩

/-- The value of the first entry of this name. -/
def get? (v : StructValue) (name : String) : Option Value :=
  (v.fields.find? (·.name = name)).map (·.value)

/-- Gives a field a value: the first entry of this name takes it, or else a new last one. -/
def set (v : StructValue) (name : String) (value : Value) : StructValue :=
  { v with fields := place v.fields }
where
  /-- The entries with the new value in place. -/
  place : List Entry → List Entry
    | [] => [⟨name, value⟩]
    | e :: rest => if e.name = name then ⟨name, value⟩ :: rest else e :: place rest

/-- A field that has been set has the value it was given, and the others keep theirs. -/
theorem get?_set (v : StructValue) (name other : String) (value : Value) :
    (v.set name value).get? other = if name = other then some value else v.get? other := by
  simp only [get?, set]
  induction v.fields with
  | nil => by_cases h : name = other <;> simp [set.place, h]
  | cons e rest ih =>
    rw [set.place]
    by_cases he : e.name = name
    · rw [if_pos he]
      by_cases h : name = other
      · simp [h]
      · simp [h, he]
    · rw [if_neg he]
      by_cases h : e.name = other
      · have : name ≠ other := fun hn ↦ he (h.trans hn.symm)
        simp [h, this]
      · simpa [h] using ih

end StructValue

end PduWire
