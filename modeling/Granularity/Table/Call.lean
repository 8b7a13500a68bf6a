import Granularity.Journal
import Granularity.Refusal
import Granularity.Table.Service

/-!
The calls on the lock table.

A call is checked first and refused without a trace when a check fails.  A call that passes is
carried out as one section: it changes the table, notes what happens, and either is done or leaves
its request in a queue.  The owners of the requests granted on the way are woken after the section.

* `acquire` is granted at once only if nobody waits for the resource; else it joins the back.
* `promote` and `exchange` need only room, and join the front if there is none.
* `release` always succeeds and serves the queue that it leaves behind.

The table knows nothing of hierarchies: every name is a resource of its own.
-/

namespace Granularity

/-- A call on the lock table by some transaction. -/
inductive Call where
  /-- Take a lock on a name. -/
  | acquire (name : ResourceName) (mode : Mode)
  /-- Give up the lock on a name. -/
  | release (name : ResourceName)
  /-- Exchange the mode held on a name for one that covers it. -/
  | promote (name : ResourceName) (mode : Mode)
  /-- Take a lock on a name and give up the locks on others in one step. -/
  | exchange (name : ResourceName) (mode : Mode) (released : List ResourceName)
deriving DecidableEq, Repr

/-- The name that a call is about. -/
def Call.name : Call → ResourceName
  | acquire name _ | release name | promote name _ | exchange name _ _ => name

/-- What a call that passed its checks has done. -/
structure Section where
  table : Table
  notices : List Notice
  /-- The call's own request waits in a queue. -/
  parked : Bool
  /-- The waiting requests granted on the way, in order. -/
  served : List Request

namespace Table

/-- Put a request at an end of the queue of its resource. -/
def enqueue (table : Table) (request : Request) (side : QueueEnd) : Table :=
  let queue := table.queueOf request.lock.name
  table.setQueue request.lock.name
    (match side with
    | .front => request :: queue
    | .back => queue ++ [request])

/-- The section of a call that has to wait. -/
def park (table : Table) (call : Event) (request : Request) (side : QueueEnd) : Section where
  table := table.enqueue request side
  notices :=
    [.event call, .remark (.queueing request side),
     .event (.blocked request.lock.owner request.lock.name request.lock.mode)]
  parked := true
  served := []

/-- The notices of requests that were granted from queues: all are traced while they are granted,
and announced one by one afterwards. -/
def serviceNotices (served : List Request) : List Notice :=
  served.map (fun request => .remark (.serving request)) ++
    served.flatMap fun request =>
      [.remark (.woke request.lock),
       .event (.granted request.lock.owner request.lock.name request.lock.mode)]

/-- Take a lock. -/
def acquire (table : Table) (owner : TransactionId) (name : ResourceName) (mode : Mode) :
    Except Refusal Section :=
  let held := table.modeOf owner name
  if held ≠ .NL then .error (.duplicateLock owner name held)
  else if mode = .NL then .error (.nothingToAcquire name)
  else
    let call := Event.acquire owner name mode
    let lock : Lock := ⟨name, mode, owner⟩
    let entry := table.entry name
    if entry.queue.isEmpty && entry.hasRoomFor mode owner then
      .ok
        { table := table.grant lock
          notices := [.event call, .remark (.grantedLock lock)]
          parked := false
          served := [] }
    else .ok (table.park call ⟨owner, lock, []⟩ .back)

/-- Give up a lock and serve the queue of its resource. -/
def release (table : Table) (owner : TransactionId) (name : ResourceName) :
    Except Refusal Section :=
  if table.modeOf owner name = .NL then .error (.noLockHeld owner name)
  else
    match table.remove owner name with
    | none => .error (.noLockHeld owner name)
    | some (lock, fewer) =>
        let (final, served) := fewer.drain [name]
        .ok
          { table := final
            notices :=
              [.event (.release owner name), .remark (.released lock)] ++ serviceNotices served
            parked := false
            served := served }

/-- Exchange a held mode for one that covers it. -/
def promote (table : Table) (owner : TransactionId) (name : ResourceName) (mode : Mode) :
    Except Refusal Section :=
  let held := table.modeOf owner name
  if held = .NL then .error (.noLockHeld owner name)
  else if held = mode then .error (.duplicateLock owner name held)
  else if ¬ Mode.covers mode held then .error (.notAPromotion held name mode)
  else
    let call := Event.promote owner name mode
    let lock : Lock := ⟨name, mode, owner⟩
    if (table.entry name).hasRoomFor mode owner then
      .ok
        { table := table.grant lock
          notices := [.event call, .remark (.promoted held lock)]
          parked := false
          served := [] }
    else .ok (table.park call ⟨owner, lock, []⟩ .front)

/-- A transaction's locks on some names, or the refusal of the first name without one. -/
def locksOn (table : Table) (owner : TransactionId) :
    List ResourceName → Except Refusal (List Lock)
  | [] => .ok []
  | name :: names =>
      match table.lockOf? owner name with
      | none => .error (.noLockHeld owner name)
      | some lock => (table.locksOn owner names).map (lock :: ·)

/-- Take a lock and give up the locks on the listed names, each once, in one step.  A lock already
held on `name` may be exchanged only if `name` is listed too. -/
def exchange (table : Table) (owner : TransactionId) (name : ResourceName) (mode : Mode)
    (released : List ResourceName) : Except Refusal Section :=
  let names := released.eraseDups
  let held := table.modeOf owner name
  if held ≠ .NL ∧ name ∉ names then .error (.duplicateLock owner name held)
  else
    match table.locksOn owner names with
    | .error refusal => .error refusal
    | .ok locks =>
        if mode = .NL then .error (.nothingToAcquire name)
        else
          let call := Event.exchange owner name mode names
          let request : Request := ⟨owner, ⟨name, mode, owner⟩, locks⟩
          if (table.entry name).hasRoomFor mode owner then
            let (granted, freed) := table.apply request
            let (final, served) := granted.drain freed
            .ok
              { table := final
                notices :=
                  [.event call, .remark (.grantedRequest request)] ++ serviceNotices served
                parked := false
                served := served }
          else .ok (table.park call request .front)

/-- Carry out a call of a transaction. -/
def call (table : Table) (owner : TransactionId) : Call → Except Refusal Section
  | .acquire name mode => table.acquire owner name mode
  | .release name => table.release owner name
  | .promote name mode => table.promote owner name mode
  | .exchange name mode released => table.exchange owner name mode released

end Table

end Granularity
