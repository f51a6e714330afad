import PduWire.Json.Number
import PduWire.Json.Text

/-! # Reading JSON

The grammar is strict: no comments, no trailing commas, no leading zeros, no control characters in
strings. What the grammar allows but no value can hold becomes `Json.unusable`. -/

namespace PduWire.Json

/-- The number of arrays and objects that may be nested. -/
def depthLimit : Nat := 127

/-- A text without the blanks at its start. -/
def skipBlanks : List Char → List Char
  | c :: rest => if isBlank c then skipBlanks rest else c :: rest
  | [] => []

/-- What follows `word` at the start of a text. -/
def dropWord : (word : List Char) → List Char → Option (List Char)
  | [], rest => some rest
  | w :: word, c :: rest => if w = c then dropWord word rest else none
  | _ :: _, [] => none

/-- A value other than an array or object at the start of a text, and what follows it. -/
def readLeaf (fuel : Nat) : List Char → Option (Json × List Char)
  | 'n' :: rest => (dropWord ['u', 'l', 'l'] rest).map (null, ·)
  | 't' :: rest => (dropWord ['r', 'u', 'e'] rest).map (bool true, ·)
  | 'f' :: rest => (dropWord ['a', 'l', 's', 'e'] rest).map (bool false, ·)
  | '\x22' :: rest =>
    (readString fuel (some []) rest).map fun (s, rest) ↦ ((s.map string).getD unusable, rest)
  | cs => readNumber cs

/-- The name of a member and the colon after it, and what follows them. -/
def readName (fuel : Nat) (cs : List Char) : Option (Option String × List Char) :=
  match skipBlanks cs with
  | '\x22' :: rest =>
    match readString fuel (some []) rest with
    | none => none
    | some (name, rest) =>
      match skipBlanks rest with
      | ':' :: rest => some (name, rest)
      | _ => none
  | _ => none

/-! ## Nesting past the limit

A value that lies too deep is only read over. Its open arrays and objects are a list, innermost
first, instead of calls. -/

/-- The bracket that opens an array or an object. -/
inductive Bracket where
  | square
  | curly
deriving DecidableEq, Repr

/-- Where the reader stands inside brackets. -/
inductive Place where
  /-- Before a value. -/
  | value
  /-- After an opening bracket. -/
  | opened
  /-- After a value. -/
  | after
deriving DecidableEq, Repr

/-- What follows the value at hand and all that is still open around it. -/
def skipOver : (fuel : Nat) → Place → List Bracket → List Char → Option (List Char)
  | 0, _, _, _ => none
  | _ + 1, .after, [], cs => some cs
  | fuel + 1, place, stack, cs =>
    match place, stack, skipBlanks cs with
    | .opened, .square :: stack, ']' :: rest => skipOver fuel .after stack rest
    | .opened, .square :: stack, cs => skipOver fuel .value (.square :: stack) cs
    | .opened, .curly :: stack, '}' :: rest => skipOver fuel .after stack rest
    | .opened, .curly :: stack, cs =>
      match readName fuel cs with
      | none => none
      | some (_, rest) => skipOver fuel .value (.curly :: stack) rest
    | .after, .square :: stack, ',' :: rest => skipOver fuel .value (.square :: stack) rest
    | .after, .square :: stack, ']' :: rest => skipOver fuel .after stack rest
    | .after, .curly :: stack, ',' :: rest =>
      match readName fuel rest with
      | none => none
      | some (_, rest) => skipOver fuel .value (.curly :: stack) rest
    | .after, .curly :: stack, '}' :: rest => skipOver fuel .after stack rest
    | .value, stack, '[' :: rest => skipOver fuel .opened (.square :: stack) rest
    | .value, stack, '\x7b' :: rest => skipOver fuel .opened (.curly :: stack) rest
    | .value, stack, cs =>
      match readLeaf fuel cs with
      | none => none
      | some (_, rest) => skipOver fuel .after stack rest
    | _, _, _ => none

/-! ## Values -/

/-- An object, unless one of its names is lost. -/
def ofMembers (members : List (Option String × Json)) : Json :=
  match members.mapM fun (name, value) ↦ name.map (·, value) with
  | some members => object members
  | none => unusable

mutual

/-- The value at the start of a text, and what follows it. `depth` is the number of arrays and
objects that may still be opened. -/
def readValue : (fuel depth : Nat) → List Char → Option (Json × List Char)
  | 0, _, _ => none
  | fuel + 1, depth, cs =>
    match depth, skipBlanks cs with
    | 0, '[' :: rest =>
      (skipOver (2 * fuel) .opened [.square] rest).map (unusable, ·)
    | 0, '\x7b' :: rest =>
      (skipOver (2 * fuel) .opened [.curly] rest).map (unusable, ·)
    | depth + 1, '[' :: rest =>
      match skipBlanks rest with
      | ']' :: rest => some (array [], rest)
      | rest => readItems fuel depth [] rest
    | depth + 1, '\x7b' :: rest =>
      match skipBlanks rest with
      | '}' :: rest => some (object [], rest)
      | rest => readMembers fuel depth [] rest
    | _, cs => readLeaf fuel cs

/-- The rest of an array, from an item on, after the items `done` in reverse. -/
def readItems : (fuel depth : Nat) → (done : List Json) → List Char →
    Option (Json × List Char)
  | 0, _, _, _ => none
  | fuel + 1, depth, done, cs =>
    match readValue fuel depth cs with
    | none => none
    | some (item, rest) =>
      match skipBlanks rest with
      | ',' :: rest => readItems fuel depth (item :: done) rest
      | ']' :: rest => some (array (item :: done).reverse, rest)
      | _ => none

/-- The rest of an object, from a name on, after the members `done` in reverse. -/
def readMembers : (fuel depth : Nat) → (done : List (Option String × Json)) → List Char →
    Option (Json × List Char)
  | 0, _, _, _ => none
  | fuel + 1, depth, done, cs =>
    match readName fuel cs with
    | none => none
    | some (name, rest) =>
      match readValue fuel depth rest with
      | none => none
      | some (value, rest) =>
        match skipBlanks rest with
        | ',' :: rest => readMembers fuel depth ((name, value) :: done) rest
        | '}' :: rest => some (ofMembers ((name, value) :: done).reverse, rest)
        | _ => none

end

/-- The value at the start of a text, and what follows it. Every character takes at most two steps
of the reader. -/
def readFrom (text : String) : Option (Json × List Char) :=
  let cs := text.toList
  readValue (2 * cs.length + 2) depthLimit cs

/-- The value that a text holds, with blanks around it at most. -/
def parse? (text : String) : Option Json :=
  match readFrom text with
  | some (value, rest) => if (skipBlanks rest).isEmpty then some value else none
  | none => none

end PduWire.Json
