import PduWire.Json.Basic
import PduWire.Size

/-! # Shapes of JSON values

What a reader of a domain type asks of a JSON value. A record may be an object, in any order and
with further members, or an array of its fields in order. -/

namespace PduWire.Json

/-- The integer from `low` to `high`. -/
def asInt? (low high : Int) : Json → Option Int
  | number (.integer n) => if low ≤ n ∧ n ≤ high then some n else none
  | _ => none

/-- The natural number up to `limit`. -/
def asNat? (limit : Nat) (j : Json) : Option Nat := (j.asInt? 0 limit).map (·.toNat)

/-- A size or an offset. -/
def asSize? (j : Json) : Option Nat := j.asNat? addressMax

/-- The truth value. -/
def asBool? : Json → Option Bool
  | bool b => some b
  | _ => none

/-- The string. -/
def asString? : Json → Option String
  | string s => some s
  | _ => none

/-- The items of an array. -/
def asArray? : Json → Option (List Json)
  | array items => some items
  | _ => none

/-- The value of a member, none if it is absent. A repeated name is refused. -/
def member? (members : List (String × Json)) (name : String) : Option (Option Json) :=
  match members.filter (·.1 = name) with
  | [] => some none
  | [(_, value)] => some (some value)
  | _ => none

/-- The values of the named fields, none for each that is absent. Other members are ignored, and
an array may leave out its last fields. -/
def fields? (names : List String) : Json → Option (List (Option Json))
  | object members => names.mapM (member? members)
  | array items =>
    if items.length ≤ names.length then
      some (items.map some ++ List.replicate (names.length - items.length) none)
    else none
  | _ => none

/-- The values of the named fields, all of them present. -/
def record? (names : List String) (j : Json) : Option (List Json) := do
  (← j.fields? names).mapM id

/-- A choice with its content: an object with a single member. -/
def choice? : Json → Option (String × Json)
  | object [(name, value)] => some (name, value)
  | _ => none

/-- The value of a field that comes before all others, and the record of those: the member `name`
of an object without that member, or the first item of an array without it. -/
def tagged? (name : String) : Json → Option (Json × Json)
  | object members => do
    let tag ← (← member? members name)
    return (tag, object (members.filter (·.1 ≠ name)))
  | array (tag :: rest) => some (tag, array rest)
  | _ => none

end PduWire.Json
