import PduWire.Schema.Basic

/-! # Layout tables

A schema as text: a line with the name and the size, then a line for each field with its offset,
its name and its kind in columns. Columns are padded by characters. -/

namespace PduWire

/-- The text with blanks before it, up to `width` characters. -/
def padStart (width : Nat) (text : String) : String :=
  String.ofList (List.replicate (width - text.length) ' ') ++ text

/-- The text with blanks after it, up to `width` characters. -/
def padEnd (width : Nat) (text : String) : String :=
  text ++ String.ofList (List.replicate (width - text.length) ' ')

/-- The row of a field. -/
def Field.layout (f : Field) : String :=
  s!"  {padStart 5 (toString f.offset)}  {padEnd 28 f.name} {f.kind.describe}\n"

/-- The layout table of a schema. -/
def Schema.layout (s : Schema) : String :=
  s!"{s.name} ({s.size} bytes)\n" ++ String.join (s.fields.map Field.layout)

end PduWire
