import Granularity.System

/-!
Sessions: several transactions that take turns at one manager.

Every transaction runs one plan at a time.  A plan that is suspended stays parked until the flag of
its transaction is down, and its transaction is busy until then.  Settling a session carries on
with the parked plans whose flag is down, lowest transaction first, until every plan that is still
parked is blocked; what a plan does when it is carried on may let others go on.

A plan asks for at most one lock on each name of its path and two more on the last one, so the
number of contexts bounds how often it can be suspended.
-/

namespace Granularity

/-- A manager with the plans of its suspended transactions. -/
structure Session where
  system : System
  /-- The handle that a new transaction gets. -/
  newHandle : Handle
  /-- What suspended transactions still have to do. -/
  parked : Std.ExtTreeMap TransactionId Plan

/-- What comes of handing in a plan. -/
inductive Reply where
  /-- The plan is finished. -/
  | returned (result : Except Refusal Unit)
  /-- The transaction is suspended. -/
  | pending
  /-- The transaction is still suspended in an earlier plan, and nothing was done. -/
  | busy

namespace Session

/-- A session in which nothing has happened. -/
def fresh (config : Config) (newHandle : Handle) : Session :=
  ⟨.fresh config, newHandle, ∅⟩

/-- The session with a transaction that has a handle. -/
def enrol (session : Session) (owner : TransactionId) : Session :=
  { session with system := session.system.enrol owner session.newHandle }

/-- The transaction is suspended in a plan. -/
def isPending (session : Session) (owner : TransactionId) : Bool :=
  session.parked.contains owner

/-- Hand in a plan of a transaction. -/
def submit (session : Session) (owner : TransactionId) (plan : Plan) : Reply × Session :=
  let session := session.enrol owner
  if session.isPending owner then (.busy, session)
  else
    match session.system.run owner plan with
    | (.finished result, system) => (.returned result, { session with system := system })
    | (.suspended rest, system) =>
        (.pending, { session with system := system, parked := session.parked.insert owner rest })

/-- The lowest transaction that is parked with its flag down. -/
def ready? (session : Session) : Option (TransactionId × Plan) :=
  session.parked.toList.find? fun (owner, _) => !session.system.isBlocked owner

/-- Carry on with ready plans, at most so many times, and list what the finished ones returned. -/
def settleFor : Nat → Session → List (TransactionId × Except Refusal Unit) × Session
  | 0, session => ([], session)
  | most + 1, session =>
      match session.ready? with
      | none => ([], session)
      | some (owner, rest) =>
          match session.system.resume owner rest with
          | (.finished result, system) =>
              let (later, final) := settleFor most
                { session with system := system, parked := session.parked.erase owner }
              ((owner, result) :: later, final)
          | (.suspended rest, system) =>
              settleFor most
                { session with system := system, parked := session.parked.insert owner rest }

/-- Carry on with parked plans until all that are left are blocked, and list what the finished ones
returned, lowest transaction first. -/
def settle (session : Session) : List (TransactionId × Except Refusal Unit) × Session :=
  let most := session.parked.size * (session.system.store.contexts.nodes.length + 3)
  let (results, settled) := settleFor most session
  (results.mergeSort fun first second => first.1 ≤ second.1, settled)

/-- Give the handle of a transaction a signal. -/
def signal (session : Session) (owner : TransactionId) (given : Signal) : Session :=
  let session := session.enrol owner
  { session with
    system := { session.system with
      handles := session.system.handles.modify owner fun handle => handle.after given } }

/-- The session with other contexts, as look-ups leave it. -/
def withContexts (session : Session) (contexts : ContextTree) : Session :=
  { session with
    system := { session.system with store := { session.system.store with contexts := contexts } } }

end Session

end Granularity
