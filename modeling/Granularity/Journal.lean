import Granularity.Event

/-!
The journal of a lock table: its events, with remarks between them.

Remarks say what the table and the planner do, for readers of a log; events are for programs.  Both
stand in the order in which they happen.
-/

namespace Granularity

/-- How much a remark matters. -/
inductive Level where
  | info
  | debug
  | trace
deriving DecidableEq, Repr

/-- The written form of a level. -/
def Level.text : Level → String
  | info => "INFO"
  | debug => "DEBUG"
  | trace => "TRACE"

/-- Where in a queue a request is put. -/
inductive QueueEnd where
  | front
  | back
deriving DecidableEq, Repr

/-- The written form of a queue's end. -/
def QueueEnd.text : QueueEnd → String
  | front => "front"
  | back => "back"

/-- Something worth saying while a call or a plan runs. -/
inductive Remark where
  /-- A lock was free to take. -/
  | grantedLock (lock : Lock)
  /-- An exchange was free to take. -/
  | grantedRequest (request : Request)
  /-- A promotion was free to take. -/
  | promoted (held : Mode) (lock : Lock)
  /-- A lock was given up. -/
  | released (lock : Lock)
  /-- A request has to wait. -/
  | queueing (request : Request) (side : QueueEnd)
  /-- A waiting request is being granted. -/
  | serving (request : Request)
  /-- The owner of a granted request is about to be woken. -/
  | woke (lock : Lock)
  /-- A promotion to `SIX` gives up the locks for reading beneath. -/
  | promotingToSIX (name : ResourceName) (owner : TransactionId) (below : Nat)
  /-- A subtree's locks are replaced by one. -/
  | escalating (name : ResourceName) (held target : Mode) (owner : TransactionId)
  /-- The planner has work to do. -/
  | ensuring (wanted : Mode) (name : ResourceName) (owner : TransactionId)
      (explicit effective : Mode)
  /-- A transaction gives up everything. -/
  | releasingAll (count : Nat) (owner : TransactionId)
deriving DecidableEq, Repr

namespace Remark

/-- Grants from a queue are traced, all else is for debugging. -/
def level : Remark → Level
  | serving _ => .trace
  | _ => .debug

/-- The wording of a remark. -/
def text : Remark → String
  | grantedLock lock => s!"granted {lock}"
  | grantedRequest request => s!"granted {request}"
  | promoted held lock => s!"promoted {held} -> {lock}"
  | released lock => s!"released {lock}"
  | queueing request side =>
      s!"queueing {request} at the {side.text} of {request.lock.name}"
  | serving request => s!"granting queued {request}"
  | woke lock => s!"woke transaction {lock.owner} with {lock}"
  | promotingToSIX name owner below =>
      s!"promoting {name} to SIX for transaction {owner}, releasing {below} lock(s) below"
  | escalating name held target owner =>
      s!"escalating {name} from {held} to {target} for transaction {owner}"
  | ensuring wanted name owner explicit effective =>
      s!"ensuring {wanted} on {name} for transaction {owner} " ++
        s!"(explicit {explicit}, effective {effective})"
  | releasingAll count owner => s!"releasing {count} lock(s) of transaction {owner}"

end Remark

/-- One line of the journal. -/
inductive Notice where
  | event (happened : Event)
  | remark (said : Remark)
deriving DecidableEq, Repr

namespace Notice

/-- The event of a notice that is one. -/
def event? : Notice → Option Event
  | .event happened => some happened
  | .remark _ => none

/-- The events among some notices, in order. -/
def events (notices : List Notice) : List Event :=
  notices.filterMap event?

end Notice

end Granularity
