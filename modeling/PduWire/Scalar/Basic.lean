import PduWire.Bytes

/-! # Scalars

The scalar kinds of a schema, the values of each kind, and the fixed image of a value on the
wire. -/

namespace PduWire

/-- The kinds of scalar that a schema can name. -/
inductive Kind where
  | uint8
  | uint16
  | uint32
  | uint64
  | int8
  | int16
  | int32
  | int64
  | bool
  | float32
  | float64
  /-- A byte string whose width is chosen by the caller. -/
  | bytes
deriving DecidableEq, Repr

namespace Kind

/-- Every kind, in the order of the tags. -/
def all : List Kind :=
  [uint8, uint16, uint32, uint64, int8, int16, int32, int64, bool, float32, float64, bytes]

/-- The name that schemas use. -/
def name : Kind → String
  | uint8 => "uint8"
  | uint16 => "uint16"
  | uint32 => "uint32"
  | uint64 => "uint64"
  | int8 => "int8"
  | int16 => "int16"
  | int32 => "int32"
  | int64 => "int64"
  | bool => "bool"
  | float32 => "float32"
  | float64 => "float64"
  | bytes => "bytes"

/-- The stable number of a kind. -/
def tag : Kind → UInt8
  | uint8 => 1
  | uint16 => 2
  | uint32 => 3
  | uint64 => 4
  | int8 => 5
  | int16 => 6
  | int32 => 7
  | int64 => 8
  | bool => 9
  | float32 => 10
  | float64 => 11
  | bytes => 12

/-- Bytes on the wire; none for the kind that the caller sizes. A truth value takes a whole
32-bit word. -/
def width? : Kind → Option Nat
  | uint8 | int8 => some 1
  | uint16 | int16 => some 2
  | uint32 | int32 | bool | float32 => some 4
  | uint64 | int64 | float64 => some 8
  | bytes => none

/-- Bytes that a field of this kind occupies; a caller-sized kind reserves none. -/
def footprint (k : Kind) : Nat := k.width?.getD 0

/-- The kind of a name. Two kinds have a second name: `byte` is `uint8` and `char` is `int8`. -/
def ofName? (s : String) : Option Kind :=
  if s = "byte" then some uint8
  else if s = "char" then some int8
  else all.find? (·.name = s)

/-- The kind of a name, or a failure that quotes the name. -/
def ofName (s : String) : Except Error Kind :=
  match ofName? s with
  | some k => .ok k
  | none => .error (.unknownKind s)

/-- The kind of a tag, or a failure that quotes the tag. -/
def ofTag (t : UInt8) : Except Error Kind :=
  match all.find? (·.tag = t) with
  | some k => .ok k
  | none => .error (.unknownKind s!"tag {t.toNat}")

theorem ofName?_name (k : Kind) : ofName? k.name = some k := by
  cases k <;> decide

theorem ofTag_tag (k : Kind) : ofTag k.tag = .ok k := by
  cases k <;> rfl

end Kind

/-- A scalar with its kind. Floating-point numbers are their bit patterns, so that not-a-number
payloads and signed zeros stay apart. -/
inductive Scalar where
  | uint8 (value : UInt8)
  | uint16 (value : UInt16)
  | uint32 (value : UInt32)
  | uint64 (value : UInt64)
  | int8 (value : Int8)
  | int16 (value : Int16)
  | int32 (value : Int32)
  | int64 (value : Int64)
  | bool (value : Bool)
  | float32 (bits : UInt32)
  | float64 (bits : UInt64)
  | bytes (value : Bytes)
deriving DecidableEq, Repr

namespace Scalar

/-- The kind of a value. -/
def kind : Scalar → Kind
  | uint8 _ => .uint8
  | uint16 _ => .uint16
  | uint32 _ => .uint32
  | uint64 _ => .uint64
  | int8 _ => .int8
  | int16 _ => .int16
  | int32 _ => .int32
  | int64 _ => .int64
  | bool _ => .bool
  | float32 _ => .float32
  | float64 _ => .float64
  | bytes _ => .bytes

/-- The bytes of a value on the wire, least significant first. -/
def image : Scalar → Bytes
  | uint8 v => Bytes.ofNat 1 v.toNat
  | uint16 v => Bytes.ofNat 2 v.toNat
  | uint32 v => Bytes.ofNat 4 v.toNat
  | uint64 v => Bytes.ofNat 8 v.toNat
  | int8 v => Bytes.ofNat 1 v.toUInt8.toNat
  | int16 v => Bytes.ofNat 2 v.toUInt16.toNat
  | int32 v => Bytes.ofNat 4 v.toUInt32.toNat
  | int64 v => Bytes.ofNat 8 v.toUInt64.toNat
  | bool v => Bytes.ofNat 4 v.toNat
  | float32 bits => Bytes.ofNat 4 bits.toNat
  | float64 bits => Bytes.ofNat 8 bits.toNat
  | bytes v => v

/-- The value of a kind that the bytes stand for. Any word but zero reads as true. -/
def read (k : Kind) (bs : Bytes) : Scalar :=
  match k with
  | .uint8 => uint8 (.ofNat bs.toNat)
  | .uint16 => uint16 (.ofNat bs.toNat)
  | .uint32 => uint32 (.ofNat bs.toNat)
  | .uint64 => uint64 (.ofNat bs.toNat)
  | .int8 => int8 (UInt8.ofNat bs.toNat).toInt8
  | .int16 => int16 (UInt16.ofNat bs.toNat).toInt16
  | .int32 => int32 (UInt32.ofNat bs.toNat).toInt32
  | .int64 => int64 (UInt64.ofNat bs.toNat).toInt64
  | .bool => bool (bs.toNat != 0)
  | .float32 => float32 (.ofNat bs.toNat)
  | .float64 => float64 (.ofNat bs.toNat)
  | .bytes => bytes bs

/-- The scalars of one kind. -/
abbrev Of (k : Kind) := { s : Scalar // s.kind = k }

/-- The value itself, if it is of kind `k`. -/
def ofKind? (k : Kind) (s : Scalar) : Option (Of k) :=
  if h : s.kind = k then some ⟨s, h⟩ else none

@[simp] theorem kind_read (k : Kind) (bs : Bytes) : (read k bs).kind = k := by
  cases k <;> rfl

/-- The value of kind `k` that the bytes stand for. -/
def Of.read (k : Kind) (bs : Bytes) : Of k := ⟨Scalar.read k bs, kind_read k bs⟩

theorem length_image {s : Scalar} {w : Nat} (h : s.kind.width? = some w) :
    s.image.length = w := by
  cases s <;> simp_all [kind, Kind.width?, image]

theorem read_image (s : Scalar) : read s.kind s.image = s := by
  cases s with
  | uint8 v => simp [kind, image, read, Bytes.toNat_ofNat, Nat.mod_eq_of_lt v.toNat_lt]
  | uint16 v => simp [kind, image, read, Bytes.toNat_ofNat, Nat.mod_eq_of_lt v.toNat_lt]
  | uint32 v => simp [kind, image, read, Bytes.toNat_ofNat, Nat.mod_eq_of_lt v.toNat_lt]
  | uint64 v => simp [kind, image, read, Bytes.toNat_ofNat, Nat.mod_eq_of_lt v.toNat_lt]
  | int8 v =>
    simp [kind, image, read, Bytes.toNat_ofNat, Nat.mod_eq_of_lt v.toUInt8.toNat_lt]
  | int16 v =>
    simp [kind, image, read, Bytes.toNat_ofNat, Nat.mod_eq_of_lt v.toUInt16.toNat_lt]
  | int32 v =>
    simp [kind, image, read, Bytes.toNat_ofNat, Nat.mod_eq_of_lt v.toUInt32.toNat_lt]
  | int64 v =>
    simp [kind, image, read, Bytes.toNat_ofNat, Nat.mod_eq_of_lt v.toUInt64.toNat_lt]
  | bool v => cases v <;> rfl
  | float32 v => simp [kind, image, read, Bytes.toNat_ofNat, Nat.mod_eq_of_lt v.toNat_lt]
  | float64 v => simp [kind, image, read, Bytes.toNat_ofNat, Nat.mod_eq_of_lt v.toNat_lt]
  | bytes v => rfl

/-- Reading and writing again gives the same bytes, except that a truth value is normalised. -/
theorem image_read {k : Kind} {bs : Bytes} (hk : k ≠ .bool)
    (h : ∀ w, k.width? = some w → bs.length = w) : (read k bs).image = bs := by
  have hlt := Bytes.toNat_lt bs
  have back := Bytes.ofNat_toNat bs
  cases k <;> simp_all [Kind.width?, read, image, Nat.mod_eq_of_lt]

end Scalar

end PduWire
