import PduWire.Error

/-! # Byte sequences

Little-endian numbers, zero padding and bounds-checked cuts of a buffer. -/

namespace PduWire

/-- The bytes of a buffer, first to last. -/
abbrev Bytes := List UInt8

namespace Bytes

/-- The `width` lowest bytes of `n`, the least significant one first. -/
def ofNat : (width n : Nat) → Bytes
  | 0, _ => []
  | width + 1, n => UInt8.ofNat (n % 256) :: ofNat width (n / 256)

/-- The number that the bytes stand for, the least significant one first. -/
def toNat : Bytes → Nat
  | [] => 0
  | b :: rest => b.toNat + 256 * toNat rest

/-- `n` zero bytes. -/
def zeros (n : Nat) : Bytes := List.replicate n 0

/-- The bytes followed by as many zeros as they lack of `width`. -/
def padTo (width : Nat) (bytes : Bytes) : Bytes := bytes ++ zeros (width - bytes.length)

/-- The `size` bytes at `offset`. -/
def slice (buffer : Bytes) (offset size : Nat) : Except Error Bytes :=
  if offset + size ≤ buffer.length then .ok ((buffer.drop offset).take size)
  else .error (.outOfBounds "" offset size buffer.length)

/-- `piece` laid over the buffer at `offset`; where the buffer is too short, zeros fill the gap
and the piece extends it. -/
def overlay (buffer : Bytes) (offset : Nat) (piece : Bytes) : Bytes :=
  padTo offset (buffer.take offset) ++ piece ++ buffer.drop (offset + piece.length)

/-- `piece` laid over the buffer at `offset`, without what would stand past its end. -/
def patch (buffer : Bytes) (offset : Nat) (piece : Bytes) : Bytes :=
  (buffer.take offset ++ piece.take (buffer.length - offset)) ++
    buffer.drop (offset + piece.length)

/-- Consecutive pieces of `width` bytes. An incomplete last piece is left out. -/
def chunks (width : Nat) (bytes : Bytes) : List Bytes :=
  go (bytes.length / width) bytes []
where
  /-- The first `n` pieces of `rest`, after those collected in reverse. -/
  go : Nat → Bytes → List Bytes → List Bytes
    | 0, _, done => done.reverse
    | n + 1, rest, done => go n (rest.drop width) (rest.take width :: done)

@[simp] theorem length_ofNat (width n : Nat) : (ofNat width n).length = width := by
  induction width generalizing n with
  | zero => rfl
  | succ width ih => simp [ofNat, ih]

theorem toNat_ofNat (width n : Nat) : toNat (ofNat width n) = n % Nat.pow 256 width := by
  induction width generalizing n with
  | zero => simp [ofNat, toNat, Nat.mod_one]
  | succ width ih =>
    simp only [ofNat, toNat, ih, UInt8.toNat_ofNat', Nat.mod_mod]
    rw [Nat.pow_eq, Nat.pow_eq, Nat.pow_succ', Nat.mod_mul]

theorem toNat_lt (bytes : Bytes) : toNat bytes < Nat.pow 256 bytes.length := by
  induction bytes with
  | nil => simp [toNat]
  | cons b rest ih =>
    have : b.toNat < 256 := b.toNat_lt
    simp only [toNat, List.length_cons, Nat.pow_eq, Nat.pow_succ] at ih ⊢
    omega

theorem ofNat_toNat (bytes : Bytes) : ofNat bytes.length (toNat bytes) = bytes := by
  induction bytes with
  | nil => rfl
  | cons b rest ih =>
    have : b.toNat < 256 := b.toNat_lt
    simp only [List.length_cons, ofNat, toNat, Nat.add_mul_mod_self_left,
      Nat.mod_eq_of_lt this, UInt8.ofNat_toNat, List.cons.injEq, true_and]
    rw [Nat.add_mul_div_left _ _ (by decide), Nat.div_eq_of_lt this, Nat.zero_add, ih]

@[simp] theorem length_zeros (n : Nat) : (zeros n).length = n := List.length_replicate

@[simp] theorem length_padTo (width : Nat) (bytes : Bytes) :
    (padTo width bytes).length = max width bytes.length := by
  simp only [padTo, List.length_append, length_zeros]
  omega

@[simp] theorem length_overlay (buffer : Bytes) (offset : Nat) (piece : Bytes) :
    (overlay buffer offset piece).length = max buffer.length (offset + piece.length) := by
  simp only [overlay, List.length_append, length_padTo, List.length_take, List.length_drop]
  omega

@[simp] theorem length_patch (buffer : Bytes) (offset : Nat) (piece : Bytes) :
    (patch buffer offset piece).length = buffer.length := by
  simp only [patch, List.length_append, List.length_take, List.length_drop]
  omega

theorem slice_eq_ok_iff {buffer piece : Bytes} {offset size : Nat} :
    slice buffer offset size = .ok piece ↔
      offset + size ≤ buffer.length ∧ piece = (buffer.drop offset).take size := by
  unfold slice
  split <;> simp [*, eq_comm]

theorem length_of_slice {buffer piece : Bytes} {offset size : Nat}
    (h : slice buffer offset size = .ok piece) : piece.length = size := by
  obtain ⟨hle, rfl⟩ := slice_eq_ok_iff.1 h
  simp only [List.length_take, List.length_drop]
  omega

end Bytes

end PduWire
