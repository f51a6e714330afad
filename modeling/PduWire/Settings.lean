import PduWire.Size
import PduWire.Text.Blank

/-! # Settings

What a deployment may choose: the largest message, and how strictly a header is read. The wire
format itself is not open to choice. -/

namespace PduWire

/-- The limits of one encoder and decoder. -/
structure Settings where
  /-- The largest message accepted in either direction. -/
  maxSize : Nat := 1024 * 1024
  /-- Refuse a buffer that is longer than the message in it. Transport buffers often are. -/
  exactLength : Bool := false
  /-- Refuse a header of another version. -/
  checkVersion : Bool := true
deriving DecidableEq, Repr

namespace Settings

/-- One message to a buffer, the version pinned and a low ceiling. -/
def strict : Settings where
  maxSize := 64 * 1024
  exactLength := true

/-- Loose limits for development and for peers of mixed versions. -/
def relaxed : Settings where
  maxSize := 16 * 1024 * 1024
  checkVersion := false

/-- The number that a text of decimal digits stands for, with or without a leading plus sign. -/
def readDecimal? (text : String) : Option Nat :=
  let digits := match text.toList with
    | '+' :: rest => rest
    | all => all
  if digits.isEmpty || !digits.all Char.isDigit then none
  else some (digits.foldl (fun n d ↦ 10 * n + (d.toNat - '0'.toNat)) 0)

/-- A size, if the text is one and it can be addressed. -/
def readSize? (text : String) : Option Nat :=
  (readDecimal? text).filter (· ≤ addressMax)

/-- A switch, spelled in any of the usual ways, in any case and with blanks around it. -/
def readFlag? (text : String) : Option Bool :=
  let word := String.ofList ((Text.trim text).toList.map Char.toLower)
  if word ∈ ["1", "true", "yes", "on"] then some true
  else if word ∈ ["0", "false", "no", "off"] then some false
  else none

/-- The settings that environment variables ask for. A variable that is absent or has no meaning
leaves the default in place. -/
def ofEnvironment (lookup : String → Option String) : Settings :=
  let standard : Settings := {}
  { maxSize := ((lookup "HAKO_PDU_MAX_SIZE").bind readSize?).getD standard.maxSize
    exactLength := ((lookup "HAKO_PDU_EXACT_LENGTH").bind readFlag?).getD standard.exactLength
    checkVersion := ((lookup "HAKO_PDU_VERIFY_VERSION").bind readFlag?).getD standard.checkVersion }

end Settings

end PduWire
