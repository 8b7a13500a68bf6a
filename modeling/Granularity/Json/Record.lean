import Granularity.Json.Number
import Granularity.Json.Spelling

/-!
Reading lists and records from JSON.

A record is written as an object with its fields in any order, or as an array with its fields in
the order of their declaration.  In an object the members of other names are passed over, and a
field may stand only once.
-/

namespace Granularity.Json

/-- The items of an array, each read by the same reader. -/
def listOf? {α : Type} (item? : Json → Option α) : Json → Option (List α)
  | array items => items.mapM item?
  | _ => none

/-- The members of an object with the texts of their keys, if every key has one. -/
def readKeys? (members : List (List Char × Json)) : Option (List (String × Json)) :=
  members.mapM fun (key, value) => (unspell? key).map fun text => (String.ofList text, value)

/-- The value of the only member of this name; nothing if there is none, and a failure if there are
several. -/
def member? (members : List (String × Json)) (name : String) : Option (Option Json) :=
  match members.filter fun (key, _) => key == name with
  | [] => some none
  | [(_, value)] => some (some value)
  | _ => none

/-- The values of some fields, where fields may be missing: any of them in an object, the last ones
in an array. -/
def fields? (names : List String) : Json → Option (List (Option Json))
  | object members =>
      match readKeys? members with
      | none => none
      | some members => names.mapM (member? members)
  | array items =>
      if items.length ≤ names.length then
        some (items.map some ++ List.replicate (names.length - items.length) none)
      else none
  | _ => none

/-- The values of some fields, none missing. -/
def record? (names : List String) (json : Json) : Option (List Json) :=
  (fields? names json).bind fun values => values.mapM id

/-- The object with these members. -/
def ofMembers (members : List (String × Json)) : Json :=
  object (members.map fun (key, value) => (spell key.toList, value))

end Granularity.Json
