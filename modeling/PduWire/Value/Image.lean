import PduWire.Region.Writer
import PduWire.Schema.Leaf
import PduWire.Text.Utf8
import PduWire.Value.Basic

/-! # Images of values

What a struct value looks like on the wire, leaf by leaf: the value at the leaf, what it adds to
the heap, and its bytes in the base region. The encoder walks the same tables, but knows nothing
of leaves. -/

namespace PduWire

/-- The value that a path of field names leads to. -/
def StructValue.at? : List String → StructValue → Option Value
  | [], _ => none
  | [name], v => v.get? name
  | name :: next :: path, v => do
    (← (← v.get? name).asStruct?).at? (next :: path)

namespace Value

/-- What a value adds to the heap. -/
def payload : Value → Bytes
  | string text => Utf8.encode text
  | sequence items => items.flatMap Scalar.image
  | scalar _ | fixedString _ | array _ | struct _ => []

/-- The bytes of a value in the base region, if it is of this kind. Before its payload there are
`start` bytes in the heap. -/
def image (start : Nat) : FieldKind → Value → Bytes
  | .scalar _, scalar s => s.image
  | .fixedString capacity, fixedString text => (Utf8.encode text).padTo capacity
  | .array _ _, array items => items.flatMap Scalar.image
  | .string, string text => reference start (string text).payload.length
  | .sequence _, sequence items => reference start (sequence items).payload.length
  | _, _ => []

end Value

/-- What the value at a leaf adds to the heap. -/
def StructValue.payloadAt (v : StructValue) (leaf : Leaf) : Bytes :=
  ((v.at? leaf.path).map Value.payload).getD []

/-- The length of the heap of a value under a schema. -/
def Schema.heapSize (s : Schema) (v : StructValue) : Nat :=
  (s.leaves.map fun leaf ↦ (v.payloadAt leaf).length).foldr (· + ·) 0

end PduWire
