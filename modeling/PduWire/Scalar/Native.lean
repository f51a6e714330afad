import PduWire.Scalar.Basic

/-! # Scalars of types known in advance

Every kind but that of byte strings has a type of its own, whose values go to the wire and come
back without a look at their kind. A word is cut into bytes, and put together from bytes, with its
lowest bits first. -/

namespace PduWire

namespace Bytes

/-- The bytes of a word. Byte `i` has its bits from `8 * i` on. -/
def ofWord {n : Nat} (word : BitVec (8 * n)) : Bytes :=
  List.ofFn fun i : Fin n ↦ .ofBitVec (word.extractLsb' (8 * i) 8)

/-- The word of `n` bytes that has the first byte for its lowest bits. -/
def toWord (n : Nat) : Bytes → BitVec (8 * n)
  | [] => 0
  | b :: rest => toWord n rest <<< 8 ||| b.toBitVec.setWidth (8 * n)

end Bytes

/-- A type whose values have images of one width. -/
structure NativeType where
  type : Type
  /-- The kind of the values. -/
  kind : Kind
  /-- The length of an image. -/
  width : Nat
  /-- The value of an image of that length. -/
  read : Bytes → type
  /-- The image of a value. -/
  write : type → Bytes
  /-- The value with its kind. -/
  toScalar : type → Scalar
  /-- The value of a scalar, if that is of this type. -/
  ofScalar? : Scalar → Option type

namespace NativeType

/-- A type whose values are words. -/
def ofWords {α : Type} (kind : Kind) (width : Nat) (toWord : α → BitVec (8 * width))
    (ofWord : BitVec (8 * width) → α) (toScalar : α → Scalar) (ofScalar? : Scalar → Option α) :
    NativeType where
  type := α
  kind := kind
  width := width
  read bs := ofWord (bs.toWord width)
  write a := .ofWord (toWord a)
  toScalar := toScalar
  ofScalar? := ofScalar?

def uint8 : NativeType where
  type := UInt8
  kind := .uint8
  width := 1
  read bs := bs.headD 0
  write v := [v]
  toScalar := .uint8
  ofScalar? | .uint8 v => some v | _ => none

def uint16 : NativeType :=
  ofWords .uint16 2 UInt16.toBitVec UInt16.ofBitVec .uint16 fun | .uint16 v => some v | _ => none

def uint32 : NativeType :=
  ofWords .uint32 4 UInt32.toBitVec UInt32.ofBitVec .uint32 fun | .uint32 v => some v | _ => none

def uint64 : NativeType :=
  ofWords .uint64 8 UInt64.toBitVec UInt64.ofBitVec .uint64 fun | .uint64 v => some v | _ => none

def int8 : NativeType where
  type := Int8
  kind := .int8
  width := 1
  read bs := (bs.headD 0).toInt8
  write v := [v.toUInt8]
  toScalar := .int8
  ofScalar? | .int8 v => some v | _ => none

def int16 : NativeType :=
  ofWords .int16 2 Int16.toBitVec Int16.ofBitVec .int16 fun | .int16 v => some v | _ => none

def int32 : NativeType :=
  ofWords .int32 4 Int32.toBitVec Int32.ofBitVec .int32 fun | .int32 v => some v | _ => none

def int64 : NativeType :=
  ofWords .int64 8 Int64.toBitVec Int64.ofBitVec .int64 fun | .int64 v => some v | _ => none

/-- A truth value is written as a word of four bytes. -/
def bool : NativeType where
  type := Bool
  kind := .bool
  width := 4
  read bs := bs.toWord 4 != 0
  write v := .ofWord (.ofNat (8 * 4) v.toNat)
  toScalar := .bool
  ofScalar? | .bool v => some v | _ => none

/-- Numbers in single precision, by their patterns. -/
def float32 : NativeType :=
  ofWords .float32 4 UInt32.toBitVec UInt32.ofBitVec .float32 fun | .float32 v => some v | _ => none

/-- Numbers in double precision, by their patterns. -/
def float64 : NativeType :=
  ofWords .float64 8 UInt64.toBitVec UInt64.ofBitVec .float64 fun | .float64 v => some v | _ => none

end NativeType

/-- The type of a kind. Byte strings have none, as their width is that of their place. -/
def Kind.native? : Kind → Option NativeType
  | uint8 => some .uint8
  | uint16 => some .uint16
  | uint32 => some .uint32
  | uint64 => some .uint64
  | int8 => some .int8
  | int16 => some .int16
  | int32 => some .int32
  | int64 => some .int64
  | bool => some .bool
  | float32 => some .float32
  | float64 => some .float64
  | bytes => none

namespace Scalar

/-- The bytes that the type of its kind writes a scalar as. A byte string is all of its own. -/
def writeNative : Scalar → Bytes
  | uint8 v => NativeType.uint8.write v
  | uint16 v => NativeType.uint16.write v
  | uint32 v => NativeType.uint32.write v
  | uint64 v => NativeType.uint64.write v
  | int8 v => NativeType.int8.write v
  | int16 v => NativeType.int16.write v
  | int32 v => NativeType.int32.write v
  | int64 v => NativeType.int64.write v
  | bool v => NativeType.bool.write v
  | float32 bits => NativeType.float32.write bits
  | float64 bits => NativeType.float64.write bits
  | bytes v => v

/-- The scalar that the type of kind `k` reads the bytes as. A byte string is all of them. -/
def readNative (k : Kind) (bs : Bytes) : Scalar :=
  match k.native? with
  | some t => t.toScalar (t.read bs)
  | none => bytes bs

theorem kind_readNative (k : Kind) (bs : Bytes) : (readNative k bs).kind = k := by
  cases k <;> rfl

/-- The value of kind `k` that the type of the kind reads the bytes as. -/
def Of.readNative (k : Kind) (bs : Bytes) : Of k := ⟨Scalar.readNative k bs, kind_readNative k bs⟩

end Scalar

end PduWire
