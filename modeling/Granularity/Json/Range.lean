import Granularity.Json.Number
import Granularity.Json.Spelling

/-!
Values that can be taken as a whole.

A reader that takes a document in before it knows what to look for has to make sense of all of it:
every string and key has to stand for a text, every number has to be in the range of doubles, and
the nesting must not be too deep.
-/

namespace Granularity.Json

mutual

/-- Every string and key stands for a text, and every number is in range. -/
def isMeaningful : Json → Bool
  | null => true
  | bool _ => true
  | number literal => inRange literal
  | string spelling => (unspell? spelling).isSome
  | array items => areMeaningful items
  | object members => membersMeaningful members

/-- Every item is meaningful. -/
def areMeaningful : List Json → Bool
  | [] => true
  | item :: items => item.isMeaningful && areMeaningful items

/-- Every key and every value is meaningful. -/
def membersMeaningful : List (List Char × Json) → Bool
  | [] => true
  | (key, value) :: members =>
      (unspell? key).isSome && value.isMeaningful && membersMeaningful members

end

mutual

/-- How many arrays and objects are nested in each other at most. -/
def nesting : Json → Nat
  | null | bool _ | number _ | string _ => 0
  | array items => nestingOfItems items + 1
  | object members => nestingOfMembers members + 1

/-- The deepest nesting among some items. -/
def nestingOfItems : List Json → Nat
  | [] => 0
  | item :: items => max item.nesting (nestingOfItems items)

/-- The deepest nesting among the values of some members. -/
def nestingOfMembers : List (List Char × Json) → Nat
  | [] => 0
  | (_, value) :: members => max value.nesting (nestingOfMembers members)

end

/-- The deepest nesting that a reader of whole documents follows. -/
def nestingLimit : Nat := 127

/-- A reader of whole documents can take the value in. -/
def isTakeable (json : Json) : Bool :=
  json.isMeaningful && json.nesting ≤ nestingLimit

end Granularity.Json
