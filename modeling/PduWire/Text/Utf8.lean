import PduWire.Bytes

/-! # UTF-8

The bytes of a text, and the text of bytes. Where bytes are no text, the fault says where the valid
part ends and how many bytes after it no text can start with. -/

namespace PduWire.Utf8

/-- The bytes of a text. -/
def encode (text : String) : Bytes := text.toUTF8.data.toList

/-- The text that the bytes stand for, if they are well formed. -/
def decode? (bs : Bytes) : Option String := String.fromUTF8? ⟨bs.toArray⟩

/-- What is wrong at byte `index`, the end of the longest well-formed start. -/
inductive Fault where
  /-- The `count` bytes from `index` start no character together with any that could follow. -/
  | invalid (count index : Nat)
  /-- The bytes end inside the character that starts at `index`. -/
  | incomplete (index : Nat)
deriving DecidableEq, Repr

/-- The text shown for a fault. -/
def Fault.text : Fault → String
  | invalid count index => s!"invalid utf-8 sequence of {count} bytes from index {index}"
  | incomplete index => s!"incomplete utf-8 byte sequence from index {index}"

/-- The ranges in which the bytes after `lead` have to lie, none if no character starts with
`lead`. The narrower ranges keep out overlong forms, surrogates and values above U+10FFFF. -/
def tailRanges (lead : UInt8) : Option (List (UInt8 × UInt8)) :=
  let tail : UInt8 × UInt8 := (0x80, 0xBF)
  if lead < 0x80 then some []
  else if lead < 0xC2 then none
  else if lead < 0xE0 then some [tail]
  else if lead = 0xE0 then some [(0xA0, 0xBF), tail]
  else if lead = 0xED then some [(0x80, 0x9F), tail]
  else if lead < 0xF0 then some [tail, tail]
  else if lead = 0xF0 then some [(0x90, 0xBF), tail, tail]
  else if lead < 0xF4 then some [tail, tail, tail]
  else if lead = 0xF4 then some [(0x80, 0x8F), tail, tail]
  else none

/-- The fault of a character at `index` of which `count` bytes are in place and the rest has to lie
in the ranges. -/
def tailFault? (index : Nat) : (count : Nat) → List (UInt8 × UInt8) → Bytes → Option Fault
  | _, [], _ => none
  | _, _ :: _, [] => some (.incomplete index)
  | count, (low, high) :: ranges, b :: rest =>
    if low ≤ b ∧ b ≤ high then tailFault? index (count + 1) ranges rest
    else some (.invalid count index)

/-- The first fault of the bytes, the first of which is at `index`. -/
def fault? (index : Nat) : Bytes → Option Fault
  | [] => none
  | lead :: rest =>
    match tailRanges lead with
    | none => some (.invalid 1 index)
    | some ranges =>
      match tailFault? index 1 ranges rest with
      | some fault => some fault
      | none => fault? (index + 1 + ranges.length) (rest.drop ranges.length)
termination_by bs => bs.length
decreasing_by simp only [List.length_drop, List.length_cons]; omega

/-- The text that the bytes stand for, or where they stop being one. -/
def decode (bs : Bytes) : Except Error String :=
  match decode? bs with
  | some text => .ok text
  | none => .error (.invalidString "" ((fault? 0 bs).getD (.incomplete bs.length)).text)

theorem decode?_encode (text : String) : decode? (encode text) = some text := by
  simp [decode?, encode, String.fromUTF8?, String.fromUTF8, String.toUTF8, text.isValidUTF8]

theorem encode_of_decode? {bs : Bytes} {text : String} (h : decode? bs = some text) :
    encode text = bs := by
  unfold decode? String.fromUTF8? at h
  split at h
  · cases h
    simp [encode, String.toUTF8, String.fromUTF8]
  · contradiction

end PduWire.Utf8
