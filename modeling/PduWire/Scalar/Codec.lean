import PduWire.Scalar.Basic

/-! # Scalars of a declared width

Encoding and decoding with a kind and a width that come from a schema. Both are checked: a kind of
fixed width takes no other, and a value of another kind is refused. -/

namespace PduWire.Scalar

/-- A kind of fixed width takes exactly this width, a caller-sized kind takes any. -/
def checkWidth (k : Kind) (width : Nat) : Except Error Unit :=
  match k.width? with
  | some expected =>
    if expected = width then .ok () else .error (.invalidWidth "" k.name expected width)
  | none => .ok ()

/-- The value of kind `k` whose image is all of `bs`. -/
def decode (k : Kind) (bs : Bytes) : Except Error Scalar := do
  checkWidth k bs.length
  return read k bs

/-- The value of kind `k` whose image is the `width` bytes at `offset`. -/
def decodeAt (k : Kind) (buffer : Bytes) (offset width : Nat) : Except Error Scalar := do
  decode k (← Bytes.slice buffer offset width)

/-- The image of `s` in exactly `width` bytes. A byte string is padded with zeros. -/
def encode (k : Kind) (s : Scalar) (width : Nat) : Except Error Bytes := do
  checkWidth k width
  let image := s.image
  if s.kind = k then
    if image.length ≤ width then
      return Bytes.padTo width image
    else
      throw (.invalidWidth "" k.name width image.length)
  else
    throw (.invalidWidth "" s!"{k.name} (value is {s.kind.name})" width image.length)

end PduWire.Scalar
