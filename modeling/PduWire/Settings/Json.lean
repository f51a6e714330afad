import PduWire.Json.Shape
import PduWire.Settings

/-! # Settings as JSON -/

namespace PduWire.Settings

/-- The names of the members, in order. -/
def memberNames : List String := ["max_pdu_size", "require_exact_length", "verify_version"]

/-- The settings that a JSON value describes. What is absent keeps its default. -/
def ofJson? (j : Json) : Option Settings := do
  let [size, exact, version] ← j.fields? memberNames | none
  let standard : Settings := {}
  return {
    maxSize := ← size.elim (some standard.maxSize) Json.asSize?
    exactLength := ← exact.elim (some standard.exactLength) Json.asBool?
    checkVersion := ← version.elim (some standard.checkVersion) Json.asBool? }

/-- The JSON value that describes the settings. -/
def toJson (s : Settings) : Json :=
  .object (memberNames.zip [.ofNat s.maxSize, .bool s.exactLength, .bool s.checkVersion])

end PduWire.Settings
