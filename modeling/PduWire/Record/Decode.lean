import PduWire.Header.Check
import PduWire.Record.Basic
import PduWire.Region.Reader

/-! # Decoding records

The first field that cannot be read ends the walk, and no part of the record is returned. -/

namespace PduWire

mutual

/-- Reads the value of this kind at `offset`. -/
def FieldKind.readValue : (kind : FieldKind) → Reader → Nat → Except Error (FieldValue kind)
  | .scalar k, r, offset => do
    return .scalar (← r.scalar k offset)
  | .fixedString capacity, r, offset => do
    return .fixedString ⟨← FixedText.decode (← r.bytes offset capacity)⟩
  | .array k length, r, offset => do
    let width := k.footprint
    let image ← r.bytes offset (length * width)
    return .array (.ofFn fun i : Fin length ↦
      .readNative k (List.take width (List.drop (i * width) image)))
  | .string, r, offset => do
    return .string (← Utf8.decode (← r.payload offset))
  | .sequence k, r, offset => do
    let width := k.footprint
    let payload ← r.payload offset
    if payload.length % width ≠ 0 then
      throw (.invalidWidth "" s!"{k.name}[]" width (payload.length % width))
    return .sequence ((payload.chunks width).map (Scalar.Of.readNative k))
  | .struct s, r, offset => do
    return .struct (← s.readRecord r offset)

/-- Reads the record that starts at `base`. -/
def Schema.readRecord : (s : Schema) → Reader → Nat → Except Error (Record s)
  | ⟨_, _, fields⟩, r, base => Fields.readValues fields r base

/-- Reads the fields of a struct that starts at `base`, in declared order. -/
def Fields.readValues : (fields : List Field) → Reader → Nat → Except Error (FieldValues fields)
  | [], _, _ => .ok .nil
  | ⟨name, kind, offset⟩ :: rest, r, base => do
    let value ← inField name (kind.readValue r (base + offset))
    return .cons value (← Fields.readValues rest r base)

end

/-- The record that the buffer starts with. -/
def Record.decode (s : Schema) (buffer : Bytes) (settings : Settings) :
    Except Error (Record s) := do
  let header ← Header.parse buffer settings
  header.checkBase s.size buffer.length
  s.readRecord (.ofBuffer header buffer) header.baseOffset

end PduWire
