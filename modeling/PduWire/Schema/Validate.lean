import PduWire.Schema.Basic

/-! # Sound schemas

A table is sound if its size fits a header word, its names differ, every field has a fixed and
positive footprint inside the struct, no two fields share a byte, and every nested table is sound.
The first defect in declared order is reported; overlap is looked for last, between neighbours in
the order of the offsets. -/

namespace PduWire

namespace Schema

/-- What is wrong with a table. -/
inductive Defect where
  | tooLarge (size : Nat)
  | duplicate (field : String)
  /-- A scalar kind without a width of its own. -/
  | callerSized (field : String) (kind : Kind)
  | empty (field : String)
  /-- The field ends at `stop`, past the end of the struct. -/
  | overrun (field : String) (stop size : Nat)
  | overlap (first second : String)
deriving DecidableEq, Repr

/-- The text shown for a defect. -/
def Defect.text : Defect → String
  | tooLarge size => s!"size {size} exceeds the u32 wire range"
  | duplicate field => s!"duplicate field '{field}'"
  | callerSized field kind =>
    s!"field '{field}' uses caller-sized kind {kind.name}; use a fixed string"
  | empty field => s!"field '{field}' has zero length"
  | overrun field stop size => s!"field '{field}' ends at {stop} past struct size {size}"
  | overlap first second => s!"fields '{first}' and '{second}' overlap"

/-- The failure of a table with a defect, if it has one. -/
def report (owner : String) : Option Defect → Except Error Unit
  | none => .ok ()
  | some defect => .error (.invalidSchema s!"{owner}: {defect.text}")

/-- The defect of a field kind by itself, its nested table left aside. -/
def kindDefect? (field : String) : FieldKind → Option Defect
  | .scalar k | .sequence k => if k.width?.isNone then some (.callerSized field k) else none
  | .array k length =>
    if k.width?.isNone then some (.callerSized field k)
    else if length = 0 then some (.empty field) else none
  | .fixedString capacity => if capacity = 0 then some (.empty field) else none
  | .string | .struct _ => none

/-- The first overlap between a field and the next one of the list. -/
def overlapIn? : List Field → Option Defect
  | f :: g :: rest =>
    if g.offset < f.stop then some (.overlap f.name g.name) else overlapIn? (g :: rest)
  | _ => none

/-- The first overlap in the order of the offsets. Fields at one offset keep their order. -/
def overlap? (fields : List Field) : Option Defect :=
  overlapIn? (fields.mergeSort (·.offset ≤ ·.offset))

end Schema

open Schema

mutual

/-- Checks the table inside a field kind, if there is one. -/
def FieldKind.validate : FieldKind → Except Error Unit
  | .struct s => s.validate
  | .scalar _ | .fixedString _ | .array _ _ | .string | .sequence _ => .ok ()

/-- Checks a table and every table inside it. -/
def Schema.validate : Schema → Except Error Unit
  | ⟨name, size, fields⟩ => do
    report name (if wordMax < size then some (.tooLarge size) else none)
    Fields.validate name size [] fields
    report name (overlap? fields)

/-- Checks the fields of the table `owner` one by one, after fields with the names `seen`. -/
def Fields.validate (owner : String) (size : Nat) :
    (seen : List String) → List Field → Except Error Unit
  | _, [] => .ok ()
  | seen, ⟨name, kind, offset⟩ :: rest => do
    report owner (if name ∈ seen then some (.duplicate name) else none)
    report owner (kindDefect? name kind)
    kind.validate
    let stop := (Field.mk name kind offset).stop
    report owner (if size < stop then some (.overrun name stop size) else none)
    Fields.validate owner size (name :: seen) rest

end

end PduWire
