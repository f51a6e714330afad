import PduWire.Error

/-! # Sizes and offsets

Sizes are natural numbers. Two bounds of the wire show through: an address is below `2 ^ 64`, and
a size written into a message is a word of 32 bits. -/

namespace PduWire

/-- The largest address. -/
def addressMax : Nat := 0xFFFFFFFFFFFFFFFF

/-- The largest number that a 32-bit word holds. -/
def wordMax : Nat := 0xFFFFFFFF

/-- A sum or product of addresses stops at the largest address. -/
def saturate (n : Nat) : Nat := min n addressMax

/-- A size that is written into a message has to fit a word. -/
def checkWord (n : Nat) : Except Error Nat :=
  if n ≤ wordMax then .ok n else .error (.messageTooLarge n wordMax)

/-- The sum of two addresses, if it is an address. -/
def addAddress (m n : Nat) : Except Error Nat :=
  if m + n ≤ addressMax then .ok (m + n) else .error (.overflow "add")

/-- The difference of two addresses, if it is an address. -/
def subAddress (m n : Nat) : Except Error Nat :=
  if n ≤ m then .ok (m - n) else .error (.overflow "subtract")

/-- Rounds `value` up to the next multiple of `align`, a power of two, by clearing the low bits
of the last value that rounds to it. -/
def alignUp (value align : Nat) : Except Error Nat := do
  let last ← subAddress (← addAddress value align) 1
  let mask ← subAddress align 1
  return (UInt64.ofNat last &&& ~~~UInt64.ofNat mask).toNat

theorem saturate_of_le {n : Nat} (h : n ≤ addressMax) : saturate n = n := Nat.min_eq_left h

theorem saturate_le_iff {n m : Nat} (h : m < addressMax) : saturate n ≤ m ↔ n ≤ m := by
  unfold saturate
  omega

theorem checkWord_eq_ok_iff {n m : Nat} : checkWord n = .ok m ↔ n ≤ wordMax ∧ m = n := by
  unfold checkWord
  split <;> simp [*, eq_comm]

end PduWire
