import PduWire.Schema.Basic

/-! # Leaves of a schema

The fields that hold no struct, wherever they are nested, with their place in the base region.
They come in the order in which a walk over the schema meets them. -/

namespace PduWire

/-- A field that holds no struct. `path` names the fields on the way to it, outermost first, and
`offset` is counted from the start of the base region. -/
structure Leaf where
  path : List String
  kind : FieldKind
  offset : Nat

mutual

/-- The leaves of a field of this kind that lies at `offset` and is reached by `path`. -/
def FieldKind.leavesAt : FieldKind → (path : List String) → (offset : Nat) → List Leaf
  | .struct s, path, offset => s.leavesAt path offset
  | .scalar k, path, offset => [⟨path, .scalar k, offset⟩]
  | .fixedString capacity, path, offset => [⟨path, .fixedString capacity, offset⟩]
  | .array k length, path, offset => [⟨path, .array k length, offset⟩]
  | .string, path, offset => [⟨path, .string, offset⟩]
  | .sequence k, path, offset => [⟨path, .sequence k, offset⟩]

/-- The leaves of a struct that lies at `base` and is reached by `path`. -/
def Schema.leavesAt : Schema → (path : List String) → (base : Nat) → List Leaf
  | ⟨_, _, fields⟩, path, base => Fields.leavesAt fields path base

/-- The leaves of the fields of a struct that lies at `base` and is reached by `path`. -/
def Fields.leavesAt : List Field → (path : List String) → (base : Nat) → List Leaf
  | [], _, _ => []
  | ⟨name, kind, offset⟩ :: rest, path, base =>
    kind.leavesAt (path ++ [name]) (base + offset) ++ Fields.leavesAt rest path base

end

/-- The leaves of a schema. -/
def Schema.leaves (s : Schema) : List Leaf := s.leavesAt [] 0

/-! ## Heap use

A schema uses the heap exactly if one of its leaves does. -/

mutual

theorem FieldKind.usesHeap_iff : ∀ (kind : FieldKind) (path : List String) (offset : Nat),
    kind.usesHeap = true ↔ ∃ leaf ∈ kind.leavesAt path offset, leaf.kind.isVariable = true
  | .struct s, path, offset => s.usesHeap_iff path offset
  | .scalar _, _, _ => by
    simp [FieldKind.usesHeap, FieldKind.leavesAt, FieldKind.isVariable]
  | .fixedString _, _, _ => by
    simp [FieldKind.usesHeap, FieldKind.leavesAt, FieldKind.isVariable]
  | .array _ _, _, _ => by
    simp [FieldKind.usesHeap, FieldKind.leavesAt, FieldKind.isVariable]
  | .string, _, _ => by
    simp [FieldKind.usesHeap, FieldKind.leavesAt, FieldKind.isVariable]
  | .sequence _, _, _ => by
    simp [FieldKind.usesHeap, FieldKind.leavesAt, FieldKind.isVariable]

theorem Schema.usesHeap_iff : ∀ (s : Schema) (path : List String) (base : Nat),
    s.usesHeap = true ↔ ∃ leaf ∈ s.leavesAt path base, leaf.kind.isVariable = true
  | ⟨_, _, fields⟩, path, base => Fields.usesHeap_iff fields path base

theorem Fields.usesHeap_iff : ∀ (fields : List Field) (path : List String) (base : Nat),
    Fields.usesHeap fields = true ↔
      ∃ leaf ∈ Fields.leavesAt fields path base, leaf.kind.isVariable = true
  | [], _, _ => by simp [Fields.usesHeap, Fields.leavesAt]
  | ⟨name, kind, offset⟩ :: rest, path, base => by
    rw [Fields.usesHeap, Fields.leavesAt, Bool.or_eq_true,
      kind.usesHeap_iff (path ++ [name]) (base + offset), Fields.usesHeap_iff rest path base]
    simp only [List.mem_append, or_and_right, exists_or]

end

end PduWire
