import Granularity.Json.Record
import Granularity.Json.Writer
import Granularity.Refusal

/-!
Modes, names and locks as JSON.

A mode is written as its name in capitals, a name as the array of its segments, and a lock as a
record.  Reading a name checks it as any list of segments is checked.
-/

namespace Granularity

namespace Mode

/-- A mode as JSON. -/
def toJson (mode : Mode) : Json :=
  Json.ofText mode.text

/-- The mode with exactly this name, capitals and all. -/
def named? (word : String) : Option Mode :=
  all.find? fun mode => mode.text == word

/-- The mode that a value stands for: its name, or an object whose only key is the name, with a void
value. -/
def ofJson? (isVoid : Json → Bool) : Json → Option Mode
  | .string spelling => (Json.text? (.string spelling)).bind named?
  | .object [(key, value)] =>
      if isVoid value then (Json.text? (.string key)).bind named? else none
  | _ => none

end Mode

/-- Only `null` is void. -/
def Json.isNull : Json → Bool
  | .null => true
  | _ => false

namespace ResourceName

/-- A name as JSON. -/
def toJson (name : ResourceName) : Json :=
  .array (name.segments.map Json.ofText)

/-- The name that a value stands for. -/
def ofJson? (json : Json) : Option ResourceName :=
  match Json.listOf? Json.text? json with
  | none => none
  | some segments => (ofSegments segments).toOption

end ResourceName

namespace Lock

/-- A lock as JSON. -/
def toJson (lock : Lock) : Json :=
  Json.ofMembers
    [("name", lock.name.toJson), ("lock_type", lock.mode.toJson),
     ("transaction", Json.ofWord lock.owner)]

/-- The lock that a value stands for. -/
def ofJson? (json : Json) : Option Lock :=
  match Json.record? ["name", "lock_type", "transaction"] json with
  | some [name, mode, owner] => do
      let name ← ResourceName.ofJson? name
      let mode ← Mode.ofJson? Json.isNull mode
      let owner ← Json.word? owner
      return ⟨name, mode, owner⟩
  | _ => none

end Lock

end Granularity
