import Granularity.Handle
import Granularity.Planner

/-!
A lock manager at work: the stored state, the handles of its transactions, and its journal.

An operation runs in three parts.  Its section changes the table; then the owners of the requests
granted in it are woken; then, if the section parked the operation's own request, the caller is
blocked.  A plan runs until it is finished or its caller is suspended, and a suspended plan is
carried on from where it stopped.
-/

namespace Granularity

/-- A lock manager with its transactions. -/
structure System where
  store : Store
  /-- The handle of every transaction known so far. -/
  handles : Std.ExtTreeMap TransactionId Handle
  /-- Everything that has happened, oldest first. -/
  journal : List Notice
deriving DecidableEq

/-- How far an operation got. -/
inductive Outcome where
  | returned
  | refused (refusal : Refusal)
  | suspended
deriving DecidableEq, Repr

/-- How far a plan got. -/
inductive Progress where
  | finished (result : Except Refusal Unit)
  | suspended (rest : Plan)

namespace System

/-- A manager without transactions in which nothing has happened. -/
def fresh (config : Config) : System :=
  ⟨.fresh config, ∅, []⟩

/-- The manager with a handle for a transaction; a handle that is there already stays. -/
def enrol (system : System) (owner : TransactionId) (handle : Handle) : System :=
  { system with handles := system.handles.insertIfNew owner handle }

/-- The transactions whose flag is up, in ascending order. -/
def blocked (system : System) : List TransactionId :=
  (system.handles.toList.filter fun (_, handle) => handle.blocked).map Prod.fst

/-- The transaction's flag is up. -/
def isBlocked (system : System) (owner : TransactionId) : Bool :=
  match system.handles[owner]? with
  | some handle => handle.blocked
  | none => false

/-- Add to the journal. -/
def note (system : System) (notices : List Notice) : System :=
  { system with journal := system.journal ++ notices }

/-- Wake the owners of some requests, one by one. -/
def wake (system : System) (served : List Request) : System :=
  { system with
    handles := served.foldl
      (fun handles request => handles.modify request.waiter Handle.unblock) system.handles }

/-- Block a transaction that waits; it is suspended unless its flag is down again. -/
def block (system : System) (owner : TransactionId) : Outcome × System :=
  match system.handles[owner]? with
  | none => (.returned, system)
  | some handle =>
      match handle.block? with
      | none => (.suspended, system)
      | some after => (.returned, { system with handles := system.handles.insert owner after })

/-- Take over what a call has done in its section; a parked caller raises its flag. -/
def enter (system : System) (owner : TransactionId) (done : Section) : System :=
  { store := { system.store with table := done.table }
    handles :=
      if done.parked then system.handles.modify owner Handle.prepareBlock else system.handles
    journal := system.journal ++ done.notices }

/-- Carry out a call: its section, the wake-ups, and the wait if it was parked. -/
def carryOut (system : System) (owner : TransactionId) (call : Call) : Outcome × System :=
  match system.store.table.call owner call with
  | .error refusal => (.refused refusal, system)
  | .ok done =>
      let after := (system.enter owner done).wake done.served
      if done.parked then after.block owner else (.returned, after)

/-- Perform an operation of a transaction. -/
def perform (system : System) (owner : TransactionId) (operation : Operation) :
    Outcome × System :=
  match operation.decide system.store owner with
  | .error refusal => (.refused refusal, system)
  | .ok .stay => (.returned, system)
  | .ok (.make remark call) =>
      (system.note (remark.toList.map Notice.remark)).carryOut owner call

/-- Run a plan of a transaction until it is finished or the transaction is suspended. -/
def run (owner : TransactionId) : Plan → System → Progress × System
  | .done, system => (.finished (.ok ()), system)
  | .fail refusal, system => (.finished (.error refusal), system)
  | .look next, system => run owner (next system.store) system
  | .say remark next, system => run owner next (system.note [.remark remark])
  | .perform operation next, system =>
      match system.perform owner operation with
      | (.returned, after) => run owner next after
      | (.refused refusal, after) => (.finished (.error refusal), after)
      | (.suspended, after) => (.suspended next, after)

/-- Carry on with a suspended plan, once the flag is down. -/
def resume (system : System) (owner : TransactionId) (rest : Plan) : Progress × System :=
  match system.block owner with
  | (.returned, after) => run owner rest after
  | (.refused refusal, after) => (.finished (.error refusal), after)
  | (.suspended, after) => (.suspended rest, after)

end System

end Granularity
