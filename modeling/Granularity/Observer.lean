import Granularity.Document.Event
import Granularity.Journal

/-!
What observers make of a journal.

A log shows the remarks of a journal with their levels, and the events too if it is asked for them.
Listeners subscribe to one kind of event each and get the JSON text of every event of that kind.
-/

namespace Granularity

/-- The line of a log for a notice; events show only in logs that ask for them. -/
def Notice.logLine? (showEvents : Bool) : Notice → Option String
  | .remark said => some (said.level.text ++ " " ++ said.text)
  | .event happened =>
      if showEvents then some (Level.info.text ++ " " ++ happened.line) else none

/-- The lines of a log. -/
def Notice.logLines (showEvents : Bool) (notices : List Notice) : List String :=
  notices.filterMap (logLine? showEvents)

/-- What a log says when the buffer that it writes to was left unusable by a writer that broke off.
Here lines are a function of the notices and nobody breaks off, so the wording is all there is. -/
def Log.bufferPoisoned : String :=
  "log observer buffer poisoned"

/-- Something handed to a listener: its place in the list of listeners, and the event's text. -/
structure Delivery where
  listener : Nat
  payload : String
deriving DecidableEq, Repr

namespace Delivery

/-- Deliveries are listed by listener, and by text for one listener. -/
def precedes (first second : Delivery) : Bool :=
  (compareLex (compareOn listener) (compareOn payload) first second).isLE

/-- What some listeners, given by the kinds that they subscribe to, get of some events. -/
def all (kinds : List String) (events : List Event) : List Delivery :=
  let deliveries := kinds.zipIdx.flatMap fun (kind, listener) =>
    (events.filter fun event => event.kind.text == kind).map fun event =>
      ⟨listener, event.document⟩
  deliveries.mergeSort precedes

end Delivery

end Granularity
