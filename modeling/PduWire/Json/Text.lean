/-! # Strings in JSON texts

Writing escapes the quote, the backslash and the control characters, and nothing else. Reading
also takes the solidus and any character by its UTF-16 units, two of them for a character beyond
U+FFFF. -/

namespace PduWire.Json

/-- The quote at either end of a string. -/
def quote : Char := '\x22'

/-- The character that starts an escape. -/
def backslash : Char := '\x5c'

/-- The letters of the short escapes, each with the character it stands for. -/
def shortEscapes : List (Char × Char) :=
  [(quote, quote), (backslash, backslash), ('b', '\x08'), ('f', '\x0c'), ('n', '\n'), ('r', '\r'),
    ('t', '\t')]

/-- The value of a hexadecimal digit in either case. -/
def hexValue? (c : Char) : Option Nat :=
  if '0' ≤ c ∧ c ≤ '9' then some (c.toNat - '0'.toNat)
  else if 'a' ≤ c ∧ c ≤ 'f' then some (c.toNat - 'a'.toNat + 10)
  else if 'A' ≤ c ∧ c ≤ 'F' then some (c.toNat - 'A'.toNat + 10)
  else none

/-- The number of four hexadecimal digits at the start of a text, and what follows them. -/
def readUnit : List Char → Option (Nat × List Char)
  | a :: b :: c :: d :: rest => do
    let a ← hexValue? a
    let b ← hexValue? b
    let c ← hexValue? c
    let d ← hexValue? d
    return (((a * 16 + b) * 16 + c) * 16 + d, rest)
  | _ => none

/-- Whether a unit is the first half of a pair. -/
def isHigh (unit : Nat) : Bool := 0xD800 ≤ unit && unit ≤ 0xDBFF

/-- Whether a unit is the second half of a pair. -/
def isLow (unit : Nat) : Bool := 0xDC00 ≤ unit && unit ≤ 0xDFFF

/-- The character of a pair of units. -/
def ofPair (high low : Nat) : Char :=
  .ofNat (0x10000 + (high - 0xD800) * 0x400 + (low - 0xDC00))

/-- The second half of a pair as an escape at the start of a text, and what follows it. -/
def readLow : List Char → Option (Nat × List Char)
  | c :: 'u' :: rest =>
    if c = backslash then (readUnit rest).filter (isLow ·.1) else none
  | _ => none

/-- What an escape stands for: a character, or half a pair that lacks its other half. The text
starts after the backslash. -/
def readEscape : List Char → Option (Option Char × List Char)
  | 'u' :: rest =>
    match readUnit rest with
    | none => none
    | some (unit, rest) =>
      if isHigh unit then
        match readLow rest with
        | some (low, rest) => some (some (ofPair unit low), rest)
        | none => some (none, rest)
      else if isLow unit then some (none, rest)
      else some (some (.ofNat unit), rest)
  | '/' :: rest => some (some '/', rest)
  | c :: rest => (shortEscapes.lookup c).map fun d ↦ (some d, rest)
  | [] => none

/-- The rest of a string whose opening quote and characters `done`, in reverse, have been read,
and what follows it. The string is lost if half a pair is met, but its end is still looked for.
Every step takes one unit of `fuel` and at least one character. -/
def readString : (fuel : Nat) → (done : Option (List Char)) → List Char →
    Option (Option String × List Char)
  | fuel + 1, done, c :: rest =>
    if c = quote then some (done.map fun cs ↦ String.ofList cs.reverse, rest)
    else if c = backslash then
      match readEscape rest with
      | none => none
      | some (some d, rest) => readString fuel (done.map (d :: ·)) rest
      | some (none, rest) => readString fuel none rest
    else if c < ' ' then none
    else readString fuel (done.map (c :: ·)) rest
  | _, _, _ => none

/-- The lower-case hexadecimal digit of a number below sixteen. -/
def hexDigit (n : Nat) : Char := Nat.digitChar n

/-- A character as it stands between the quotes. -/
def escapeChar (c : Char) : List Char :=
  match shortEscapes.find? (·.2 = c) with
  | some (letter, _) => [backslash, letter]
  | none =>
    if c < ' ' then
      [backslash, 'u', '0', '0', hexDigit (c.toNat / 16), hexDigit (c.toNat % 16)]
    else [c]

/-- A string with its quotes. -/
def writeString (s : String) : List Char :=
  quote :: s.toList.flatMap escapeChar ++ [quote]

end PduWire.Json
