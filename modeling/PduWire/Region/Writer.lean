import PduWire.Region.Base
import PduWire.Header.Basic
import PduWire.Scalar.Native
import PduWire.Settings

/-! # Writing a message

The two regions grow side by side. A payload of variable length goes to the end of the heap, and
its place in the base region takes a reference to it: the offset in the heap and the length, a
word each. -/

namespace PduWire

/-- The regions of a message under construction. -/
structure Regions where
  base : BaseRegion := {}
  heap : Bytes := []
deriving DecidableEq, Repr

/-- The length of a reference into the heap. -/
def referenceSize : Nat := 8

/-- A reference to `length` bytes of the heap from `start` on. -/
def reference (start length : Nat) : Bytes :=
  NativeType.uint32.write (.ofNat start) ++ NativeType.uint32.write (.ofNat length)

@[simp] theorem length_reference (start length : Nat) :
    (reference start length).length = referenceSize := rfl

namespace Regions

/-- Writes bytes of fixed size into the base region. -/
def putBytes (r : Regions) (offset : Nat) (piece : Bytes) : Except Error Regions := do
  return { r with base := ← r.base.write offset piece }

/-- Appends a payload to the heap. The first component is the reference to it. -/
def allocate (r : Regions) (payload : Bytes) : Except Error (Bytes × Regions) := do
  let length ← checkWord payload.length
  let start ← checkWord r.heap.length
  return (reference start length, { r with heap := r.heap ++ payload })

/-- Appends a payload to the heap and writes the reference to it into the base region. -/
def putHeap (r : Regions) (offset : Nat) (payload : Bytes) : Except Error Regions := do
  let (reference, r) ← r.allocate payload
  r.putBytes offset reference

/-- The finished message. The base region is extended with zeros to the declared `size` of the
struct; more bytes than that mean that the field table of `name` is wrong. -/
def assemble (r : Regions) (name : String) (size : Nat) (settings : Settings) :
    Except Error Bytes := do
  let used := r.base.bytes.length
  if size < used then
    throw (.invalidSchema
      s!"{name}: fields wrote {used} bytes into a {size}-byte base region")
  let header ← Header.ofSizes size r.heap.length
  if settings.maxSize < header.totalSize then
    throw (.messageTooLarge header.totalSize settings.maxSize)
  return header.image ++ r.base.bytes.padTo size ++ r.heap

end Regions

end PduWire
