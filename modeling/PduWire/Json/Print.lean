import PduWire.Json.Basic
import PduWire.Json.Text

/-! # Writing JSON

Texts of one value differ in their blanks only. Compact text has none; pretty text gives each item
and member a line of its own. -/

namespace PduWire.Json

/-- The characters of a number. -/
def Number.chars : Number → List Char
  | .integer n => Decimal.intChars n
  | .single bits => Binary.single.chars .single bits.toNat
  | .double bits => Binary.double.chars .double bits.toNat

/-- The characters of a value that holds no others. What is unusable has no text but that of
`null`. -/
def leafChars : Json → List Char
  | bool true => ['t', 'r', 'u', 'e']
  | bool false => ['f', 'a', 'l', 's', 'e']
  | number n => n.chars
  | string s => writeString s
  | null | array _ | object _ | unusable => ['n', 'u', 'l', 'l']

/-- Where the blanks of a text stand: before each item and member of a level and before the bracket
that closes it, and behind the colon of a member. -/
structure Layout where
  line : (level : Nat) → List Char
  colon : List Char
  isBlank_line : ∀ level, ∀ c ∈ line level, isBlank c = true
  isBlank_colon : ∀ c ∈ colon, isBlank c = true

/-- No blanks at all. -/
def Layout.compact : Layout where
  line _ := []
  colon := []
  isBlank_line _ _ h := by cases h
  isBlank_colon _ h := by cases h

/-- A line for each item and member, indented by two blanks a level. -/
def Layout.pretty : Layout where
  line level := '\n' :: List.replicate (2 * level) ' '
  colon := [' ']
  isBlank_line level := by
    refine List.forall_mem_cons.2 ⟨rfl, fun c hc ↦ ?_⟩
    rw [List.eq_of_mem_replicate hc]
    rfl
  isBlank_colon := List.forall_mem_singleton.2 rfl

mutual

/-- The characters of a value at a level. An empty array or object has no blanks inside. -/
def chars (layout : Layout) (level : Nat) : Json → List Char
  | array [] => ['[', ']']
  | array (item :: rest) =>
    '[' :: itemsChars layout (level + 1) (item :: rest) ++ layout.line level ++ [']']
  | object [] => ['\x7b', '\x7d']
  | object (m :: rest) =>
    '\x7b' :: membersChars layout (level + 1) (m :: rest) ++ layout.line level ++ ['\x7d']
  | null => leafChars null
  | bool b => leafChars (bool b)
  | number n => leafChars (number n)
  | string s => leafChars (string s)
  | unusable => leafChars unusable

/-- The items of an array with commas between them. -/
def itemsChars (layout : Layout) (level : Nat) : List Json → List Char
  | [] => []
  | [item] => layout.line level ++ item.chars layout level
  | item :: rest =>
    layout.line level ++ item.chars layout level ++ ',' :: itemsChars layout level rest

/-- The members of an object with commas between them. -/
def membersChars (layout : Layout) (level : Nat) : List (String × Json) → List Char
  | [] => []
  | [(name, value)] =>
    layout.line level ++ writeString name ++ ':' :: layout.colon ++ value.chars layout level
  | (name, value) :: rest =>
    layout.line level ++ writeString name ++ ':' :: layout.colon ++ value.chars layout level ++
      ',' :: membersChars layout level rest

end

/-- The compact text of a value. -/
def compact (j : Json) : String := String.ofList (j.chars .compact 0)

/-- The pretty text of a value. -/
def pretty (j : Json) : String := String.ofList (j.chars .pretty 0)

end PduWire.Json
