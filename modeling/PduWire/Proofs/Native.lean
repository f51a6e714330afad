import PduWire.Region.Reader
import PduWire.Region.Writer

/-! # Words on the wire

A value of a type that is known in advance is written as the scalar that it is, and read as the one
whose image it is read from: whether a word is cut into bytes bit by bit or shown by its digits in
base 256 makes no difference. So a record and a value of a run-time type share their bytes. -/

namespace PduWire

/-! ## Words -/

namespace Bytes

/-- The bytes of a number that start at every eighth bit are its digits in base 256. -/
theorem ofFn_shiftRight (n x : Nat) :
    List.ofFn (fun i : Fin n ↦ UInt8.ofNat (x >>> (8 * i.val))) = ofNat n x := by
  induction n generalizing x with
  | zero => rfl
  | succ n ih =>
    have hlow : UInt8.ofNat (x >>> 0) = UInt8.ofNat (x % 256) := by
      apply UInt8.toNat.inj
      simp
    have hrest : ∀ i : Fin n, x >>> (8 * i.succ.val) = (x / 256) >>> (8 * i.val) := by
      intro i
      rw [Fin.val_succ, Nat.mul_succ, Nat.add_comm, Nat.shiftRight_add,
        Nat.shiftRight_eq_div_pow x 8]
    rw [List.ofFn_succ, ofNat, ← ih]
    simp only [hrest]
    exact congrArg (· :: _) hlow

/-- Cut into bytes, a word shows the digits of its number in base 256. -/
theorem ofWord_eq_ofNat {n : Nat} (word : BitVec (8 * n)) : ofWord word = ofNat n word.toNat :=
  ofFn_shiftRight n word.toNat

/-- Put together from bytes, a word has the number that they stand for, as far as it goes. -/
theorem toWord_eq_ofNat (n : Nat) (bs : Bytes) : toWord n bs = BitVec.ofNat (8 * n) (toNat bs) := by
  induction bs with
  | nil => rfl
  | cons b rest ih =>
    have hshift : BitVec.ofNat (8 * n) (toNat rest) <<< 8 =
        BitVec.ofNat (8 * n) (toNat rest <<< 8) := by
      apply BitVec.eq_of_toNat_eq
      rw [BitVec.toNat_shiftLeft, BitVec.toNat_ofNat, BitVec.toNat_ofNat, Nat.shiftLeft_eq,
        Nat.shiftLeft_eq, Nat.mod_mul_mod]
    have hsum : toNat rest <<< 8 ||| b.toNat = toNat (b :: rest) := by
      rw [← Nat.shiftLeft_add_eq_or_of_lt b.toNat_lt, Nat.shiftLeft_eq, Nat.add_comm, Nat.mul_comm]
      rfl
    rw [toWord, ih, hshift, ← BitVec.ofNat_toNat, ← BitVec.ofNat_or, UInt8.toNat_toBitVec, hsum]

/-- A word that is read off its own bytes is zero if all of them are. -/
theorem toWord_bne_zero {n : Nat} {bs : Bytes} (hlength : bs.length = n) :
    (toWord n bs != 0) = (toNat bs != 0) := by
  subst hlength
  have hlt : toNat bs < 2 ^ (8 * bs.length) := by
    rw [Nat.pow_mul]
    exact toNat_lt bs
  have hzero : toWord bs.length bs = 0 ↔ toNat bs = 0 := by
    rw [toWord_eq_ofNat, ← BitVec.toNat_inj, BitVec.toNat_ofNat, Nat.mod_eq_of_lt hlt]
    rfl
  rw [Bool.eq_iff_iff, bne_iff_ne, bne_iff_ne, ne_eq, ne_eq, hzero]

theorem ofNat_one_toNat (b : UInt8) : ofNat 1 b.toNat = [b] := ofNat_toNat [b]

end Bytes

/-! ## Types -/

namespace NativeType

section Words

variable {α : Type} {kind : Kind} {width : Nat} {toWord : α → BitVec (8 * width)}
  {ofWord : BitVec (8 * width) → α} {toScalar : α → Scalar} {ofScalar? : Scalar → Option α}

theorem write_ofWords (a : α) :
    (ofWords kind width toWord ofWord toScalar ofScalar?).write a =
      Bytes.ofNat width (toWord a).toNat := Bytes.ofWord_eq_ofNat _

theorem read_ofWords (bs : Bytes) :
    (ofWords kind width toWord ofWord toScalar ofScalar?).read bs =
      ofWord (.ofNat (8 * width) bs.toNat) := congrArg ofWord (Bytes.toWord_eq_ofNat _ _)

end Words

variable {k : Kind} {t : NativeType}

theorem native?_eq_none_iff : k.native? = none ↔ k = .bytes := by
  cases k <;> simp [Kind.native?]

theorem width?_eq (h : k.native? = some t) : t.kind = k ∧ k.width? = some t.width := by
  cases k <;> cases h <;> exact ⟨rfl, rfl⟩

/-- Every scalar of a kind is a value of its type. -/
theorem exists_ofScalar? {s : Scalar} (h : s.kind.native? = some t) :
    ∃ v, t.ofScalar? s = some v ∧ s = t.toScalar v := by
  cases s <;> cases h <;> exact ⟨_, rfl, rfl⟩

/-- A value is written as the scalar that it is. -/
theorem write_eq_image (h : k.native? = some t) (v : t.type) :
    t.write v = (t.toScalar v).image := by
  cases k with
  | uint8 =>
    cases h
    exact (Bytes.ofNat_one_toNat v).symm
  | int8 =>
    cases h
    exact (Bytes.ofNat_one_toNat (Int8.toUInt8 v)).symm
  | bool =>
    cases h
    cases v <;> rfl
  | bytes => cases h
  | uint16 | uint32 | uint64 | int16 | int32 | int64 | float32 | float64 =>
    cases h
    exact write_ofWords v

/-- The bytes of an image are read as the scalar whose image they are. -/
theorem toScalar_read (h : k.native? = some t) {bs : Bytes} (hlength : bs.length = t.width) :
    t.toScalar (t.read bs) = Scalar.read k bs := by
  cases k with
  | uint8 =>
    cases h
    obtain ⟨b, rfl⟩ := List.length_eq_one_iff.1 hlength
    exact congrArg Scalar.uint8 UInt8.ofNat_toNat.symm
  | int8 =>
    cases h
    obtain ⟨b, rfl⟩ := List.length_eq_one_iff.1 hlength
    exact congrArg (fun b : UInt8 ↦ Scalar.int8 b.toInt8) UInt8.ofNat_toNat.symm
  | bool =>
    cases h
    exact congrArg Scalar.bool (Bytes.toWord_bne_zero hlength)
  | bytes => cases h
  | uint16 | uint32 | uint64 | int16 | int32 | int64 | float32 | float64 =>
    cases h
    exact congrArg _ (read_ofWords bs)

end NativeType

/-! ## Scalars -/

namespace Scalar

variable {k : Kind} {bs : Bytes}

theorem writeNative_toScalar {t : NativeType} (h : k.native? = some t) (v : t.type) :
    (t.toScalar v).writeNative = t.write v := by
  cases k <;> cases h <;> rfl

/-- A scalar has one image, whoever writes it. -/
theorem writeNative_eq_image (s : Scalar) : s.writeNative = s.image := by
  cases hnative : s.kind.native? with
  | none =>
    have hbytes := NativeType.native?_eq_none_iff.1 hnative
    cases s <;> cases hbytes
    rfl
  | some t =>
    obtain ⟨v, _, hs⟩ := NativeType.exists_ofScalar? hnative
    rw [hs, writeNative_toScalar hnative, NativeType.write_eq_image hnative]

/-- An image of the right length stands for one scalar, whoever reads it. -/
theorem readNative_eq_read (h : bs.length = k.footprint) : readNative k bs = read k bs := by
  unfold readNative
  cases hnative : k.native? with
  | none => rw [NativeType.native?_eq_none_iff.1 hnative, read]
  | some t =>
    rw [Kind.footprint, (NativeType.width?_eq hnative).2] at h
    exact NativeType.toScalar_read hnative h

theorem Of.readNative_eq_read (h : bs.length = k.footprint) :
    Of.readNative k bs = Of.read k bs := Subtype.ext (Scalar.readNative_eq_read h)

end Scalar

/-! ## References -/

theorem NativeType.write_uint32 (v : UInt32) :
    NativeType.uint32.write v = Bytes.ofNat 4 v.toNat := write_ofWords v

theorem NativeType.toNat_read_uint32 {bs : Bytes} (h : bs.length = 4) :
    UInt32.toNat (NativeType.uint32.read bs) = bs.toNat := by
  have hlt : bs.toNat < 2 ^ 32 := by
    have hpow := bs.toNat_lt
    rwa [h] at hpow
  have hread : NativeType.uint32.read bs = UInt32.ofBitVec (.ofNat 32 bs.toNat) := read_ofWords bs
  rw [hread]
  exact Nat.mod_eq_of_lt hlt

/-- Of a number that no word holds, the lowest bytes are written. -/
theorem write_uint32_ofNat (n : Nat) :
    NativeType.uint32.write (UInt32.ofNat n) = Bytes.ofNat 4 n := by
  have hlow : Bytes.ofNat 4 (n % 2 ^ 32) = Bytes.ofNat 4 n := by
    have hback := Bytes.ofNat_toNat (Bytes.ofNat 4 n)
    rwa [Bytes.length_ofNat, Bytes.toNat_ofNat] at hback
  rw [NativeType.write_uint32, UInt32.toNat_ofNat', hlow]

/-- A reference is two numbers, one behind the other. -/
theorem reference_eq (start length : Nat) :
    reference start length = Bytes.ofNat 4 start ++ Bytes.ofNat 4 length := by
  rw [reference, write_uint32_ofNat, write_uint32_ofNat]

/-- Whoever reads a word for its number may as well read the number off the bytes. -/
theorem Reader.native_uint32_bind {α : Type} (r : Reader) (offset : Nat)
    (f : Nat → Except Error α) :
    (r.native .uint32 offset >>= fun v ↦ f (UInt32.toNat v)) =
      r.bytes offset 4 >>= fun word ↦ f word.toNat := by
  have hwidth : NativeType.uint32.width = 4 := rfl
  rw [native, hwidth]
  cases hbytes : r.bytes offset 4 with
  | error e => rfl
  | ok word =>
    rw [ok_bind, pure_eq_ok, ok_bind, ok_bind,
      NativeType.toNat_read_uint32 (Bytes.length_of_slice hbytes)]

/-- The payload is where the numbers of the two words say. -/
theorem Reader.payload_eq (r : Reader) (offset : Nat) :
    r.payload offset = (do
      let start := Bytes.toNat (← r.bytes offset 4)
      let length := Bytes.toNat (← r.bytes (offset + 4) 4)
      r.bytes (r.header.heapOffset + start) length) := by
  have hsecond (start : Nat) := r.native_uint32_bind (offset + 4) fun length ↦
    r.bytes (r.header.heapOffset + start) length
  have hfirst := r.native_uint32_bind offset fun start ↦
    r.native .uint32 (offset + 4) >>= fun length ↦
      r.bytes (r.header.heapOffset + start) (UInt32.toNat length)
  refine hfirst.trans ?_
  simp only [hsecond]

end PduWire
