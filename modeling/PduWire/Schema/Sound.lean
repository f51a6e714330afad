import PduWire.Schema.Basic

/-! # Soundness, declared

What it means for a table to be sound, said without an order of checks and with numbers of any
size: `Schema.validate` is the check. -/

namespace PduWire

/-- The bytes that a value of this kind takes in the base region, addressable or not. -/
def FieldKind.extent : FieldKind → Nat
  | scalar k => k.footprint
  | fixedString capacity => capacity
  | array k length => k.footprint * length
  | string | sequence _ => referenceSize
  | struct s => s.size

/-- Inside a struct the footprint is the extent: both fit, or neither. -/
theorem FieldKind.footprint_le_iff {kind : FieldKind} {n : Nat} (h : n < addressMax) :
    kind.footprint ≤ n ↔ kind.extent ≤ n := by
  cases kind with
  | array k length => exact saturate_le_iff h
  | scalar _ | fixedString _ | string | sequence _ | struct _ => rfl

namespace Field

/-- The bytes of a field, counted from the start of its struct. -/
def span (f : Field) : Span := ⟨f.offset, f.offset + f.kind.extent⟩

/-- Whether two fields have no byte in common. -/
def Disjoint (f g : Field) : Prop := ∀ i, ¬(f.span.Contains i ∧ g.span.Contains i)

end Field

mutual

/-- Whether a field kind by itself is sound. -/
def FieldKind.Sound : FieldKind → Prop
  | .scalar k | .sequence k => k ≠ .bytes
  | .array k length => k ≠ .bytes ∧ 0 < length
  | .fixedString capacity => 0 < capacity
  | .string => True
  | .struct s => s.Sound

/-- Whether a table and every table inside it are sound. -/
def Schema.Sound : Schema → Prop
  | ⟨_, size, fields⟩ =>
    size ≤ wordMax ∧ (fields.map (·.name)).Nodup ∧ Fields.Sound size fields ∧
      fields.Pairwise Field.Disjoint

/-- Whether every field is sound by itself and ends inside a struct of this size. -/
def Fields.Sound (size : Nat) : List Field → Prop
  | [] => True
  | ⟨name, kind, offset⟩ :: rest =>
    kind.Sound ∧ (Field.mk name kind offset).span.stop ≤ size ∧ Fields.Sound size rest

end

end PduWire
