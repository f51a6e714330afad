import PduWire.Text.Utf8

/-! # Text in a field of fixed size

A text of fixed capacity is stored in the base region and ends at its first NUL. The terminator
counts, so that a capacity of `n` holds at most `n - 1` bytes of text. -/

namespace PduWire

/-- A text meant for a field of this capacity. It is not checked until it is written, so that a
text that does not fit is reported with the field it was meant for. -/
structure FixedText (capacity : Nat) where
  text : String
deriving DecidableEq, Repr

namespace FixedText

/-- Whether a text and its terminator fit the capacity, and no NUL cuts the text short. -/
def check (capacity : Nat) (text : String) : Except Error Unit :=
  let bytes := Utf8.encode text
  if capacity = 0 then
    .error (.invalidSchema "string[0] has no room for its terminator")
  else if capacity ≤ bytes.length then
    .error (.invalidWidth "" s!"string[{capacity}]" (capacity - 1) bytes.length)
  else if 0 ∈ bytes then
    .error (.invalidString "" "embedded NUL byte")
  else
    .ok ()

/-- The text as one of this capacity, if it fits. -/
def ofText (capacity : Nat) (text : String) : Except Error (FixedText capacity) := do
  check capacity text
  return ⟨text⟩

/-- The text followed by zeros up to the capacity. -/
def encode (capacity : Nat) (text : String) : Except Error Bytes := do
  check capacity text
  return Bytes.padTo capacity (Utf8.encode text)

/-- The text before the first NUL, or all of it if there is none. -/
def decode (image : Bytes) : Except Error String :=
  Utf8.decode (image.takeWhile (· ≠ 0))

theorem check_eq_ok_iff {capacity : Nat} {text : String} :
    check capacity text = .ok () ↔
      (Utf8.encode text).length < capacity ∧ 0 ∉ Utf8.encode text := by
  unfold check
  grind

end FixedText

end PduWire
