import PduWire.Header.Check
import PduWire.Region.Reader
import PduWire.Text.Fixed
import PduWire.Value.Encode

/-! # Decoding values of run-time types

The walk is that of the encoder. The first field that cannot be read ends it, and no part of the
value is returned. -/

namespace PduWire

/-- The scalars of this kind whose images fill the bytes. -/
def Kind.decodeScalars (k : Kind) (bs : Bytes) : Except Error (List Scalar) := do
  let width ← k.fixedWidth
  if bs.length % width ≠ 0 then
    throw (.invalidWidth "" s!"{k.name}[]" width (bs.length % width))
  (bs.chunks width).mapM (Scalar.decode k)

/-- The length of an array has to be an address. -/
def checkArrayLength (k : Kind) (width length : Nat) : Except Error Unit :=
  if width * length ≤ addressMax then .ok ()
  else .error (.invalidSchema s!"array {k.name}[{length}] overflows address space")

mutual

/-- Reads the value of this kind at `offset`. -/
def FieldKind.read : FieldKind → Reader → Nat → Except Error Value
  | .scalar k, r, offset => do
    let width ← k.fixedWidth
    return .scalar (← Scalar.decode k (← r.bytes offset width))
  | .fixedString capacity, r, offset => do
    return .fixedString (← FixedText.decode (← r.bytes offset capacity))
  | .array k length, r, offset => do
    let width ← k.fixedWidth
    checkArrayLength k width length
    return .array (← k.decodeScalars (← r.bytes offset (width * length)))
  | .string, r, offset => do
    return .string (← Utf8.decode (← r.payload offset))
  | .sequence k, r, offset => do
    return .sequence (← k.decodeScalars (← r.payload offset))
  | .struct s, r, offset => do
    return .struct (← s.read r offset)

/-- Reads the struct that starts at `base`. -/
def Schema.read : Schema → Reader → Nat → Except Error StructValue
  | ⟨name, _, fields⟩, r, base => do
    return ⟨name, ← Fields.read fields r base⟩

/-- Reads the fields of a struct that starts at `base`, in declared order. -/
def Fields.read : List Field → Reader → Nat → Except Error (List Entry)
  | [], _, _ => .ok []
  | ⟨name, kind, offset⟩ :: rest, r, base => do
    let value ← inField name (kind.read r (base + offset))
    return ⟨name, value⟩ :: (← Fields.read rest r base)

end

/-- The struct of this schema that the buffer starts with. The schema is checked first. -/
def Schema.decode (s : Schema) (buffer : Bytes) (settings : Settings) :
    Except Error StructValue := do
  s.validate
  let header ← Header.parse buffer settings
  header.checkBase s.size buffer.length
  s.read (.ofBuffer header buffer) header.baseOffset

end PduWire
