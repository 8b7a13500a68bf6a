import Granularity.Document.Lock
import Granularity.Event
import Granularity.Json.Range

/-!
Events as JSON, and the lines that report them.

An event is a record whose first field is its kind; the other fields depend on the kind.  The kind
may stand anywhere in an object, so a document is taken in as a whole before it is read.
-/

namespace Granularity

namespace EventKind

/-- The fields of an event of some kind, after the kind itself. -/
def fieldNames : EventKind → List String
  | release => ["transaction", "name"]
  | exchange => ["transaction", "name", "lock_type", "released"]
  | acquire | promote | blocked | granted => ["transaction", "name", "lock_type"]

end EventKind

/-- In a document taken in as a whole, an empty object is as void as `null`. -/
def Json.isVoid : Json → Bool
  | .null => true
  | .object [] => true
  | _ => false

namespace Event

/-- An event as JSON. -/
def toJson (event : Event) : Json :=
  let head (owner : TransactionId) (name : ResourceName) : List (String × Json) :=
    [("kind", Json.ofText event.kind.text), ("transaction", Json.ofWord owner),
     ("name", name.toJson)]
  match event with
  | acquire owner name mode | promote owner name mode | blocked owner name mode
  | granted owner name mode => Json.ofMembers (head owner name ++ [("lock_type", mode.toJson)])
  | release owner name => Json.ofMembers (head owner name)
  | exchange owner name mode released =>
      Json.ofMembers (head owner name ++
        [("lock_type", mode.toJson), ("released", .array (released.map ResourceName.toJson))])

/-- The kind of the event that a value stands for, and what holds its other fields. -/
def kindOf? : Json → Option (EventKind × Json)
  | .object members =>
      match Json.record? ["kind"] (.object members) with
      | some [kind] => do
          let kind ← (Json.text? kind).bind EventKind.ofText?
          return (kind, .object members)
      | _ => none
  | .array (kind :: rest) => do
      let kind ← (Json.text? kind).bind EventKind.ofText?
      return (kind, .array rest)
  | _ => none

/-- The event of some kind with these fields. -/
def ofFields? (kind : EventKind) (fields : List Json) : Option Event :=
  match kind, fields with
  | .release, [owner, name] => do
      return .release (← Json.word? owner) (← ResourceName.ofJson? name)
  | .exchange, [owner, name, mode, released] => do
      return .exchange (← Json.word? owner) (← ResourceName.ofJson? name)
        (← Mode.ofJson? Json.isVoid mode) (← Json.listOf? ResourceName.ofJson? released)
  | kind, [owner, name, mode] => do
      let owner ← Json.word? owner
      let name ← ResourceName.ofJson? name
      let mode ← Mode.ofJson? Json.isVoid mode
      match kind with
      | .acquire => some (.acquire owner name mode)
      | .promote => some (.promote owner name mode)
      | .blocked => some (.blocked owner name mode)
      | .granted => some (.granted owner name mode)
      | .release | .exchange => none
  | _, _ => none

/-- The event that a value stands for. -/
def ofJson? (json : Json) : Option Event :=
  if json.isTakeable then
    match kindOf? json with
    | none => none
    | some (kind, rest) => (Json.record? kind.fieldNames rest).bind (ofFields? kind)
  else none

/-- An event as a JSON text. -/
def document (event : Event) : String :=
  event.toJson.text

/-- The line that reports an event. -/
def line (event : Event) : String :=
  "[LOCK] " ++ event.kind.text ++ " " ++ event.document

end Event

end Granularity
