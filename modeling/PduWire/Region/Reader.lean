import PduWire.Header.Basic
import PduWire.Scalar.Native

/-! # Reading a message

Every read is checked against the end of the message, so that no reference reaches the bytes that
follow it in a larger buffer. -/

namespace PduWire

/-- A message with its header. Offsets are relative to the start of the buffer. -/
structure Reader where
  header : Header
  buffer : Bytes
deriving DecidableEq, Repr

namespace Reader

/-- The message at the start of the buffer that the header was read from. -/
def ofBuffer (header : Header) (buffer : Bytes) : Reader :=
  ⟨header, buffer.take header.totalSize⟩

/-- The `size` bytes at `offset`. -/
def bytes (r : Reader) (offset size : Nat) : Except Error Bytes := r.buffer.slice offset size

/-- The value of a type at `offset`. -/
def native (r : Reader) (t : NativeType) (offset : Nat) : Except Error t.type := do
  return t.read (← r.bytes offset t.width)

/-- The scalar at `offset`. -/
def scalar (r : Reader) (k : Kind) (offset : Nat) : Except Error (Scalar.Of k) := do
  return .readNative k (← r.bytes offset k.footprint)

/-- The payload that the reference at `offset` names. -/
def payload (r : Reader) (offset : Nat) : Except Error Bytes := do
  let start : UInt32 ← r.native .uint32 offset
  let length : UInt32 ← r.native .uint32 (offset + 4)
  r.bytes (r.header.heapOffset + start.toNat) length.toNat

end Reader

end PduWire
