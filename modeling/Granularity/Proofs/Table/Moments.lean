import Granularity.Proofs.Table.Passed

/-!
The tables that a call passes through.

A call grants its own request, or takes its own lock off, and then serves queues; each request that
it grants takes off the locks that the request lists, one after the other.  `Table.GrantsAt` and
`Table.TakesAt` say on which tables this is done.  All of them are sound, not only the one that the
call leaves.
-/

namespace Granularity.Table

/-- While the releases of `request` are carried out, beginning with `table`, the turn comes to the
release of a lock; the table is `moment` by then. -/
inductive ReleasesAt (table : Table) (request : Request) : Table → Lock → Prop where
  | release {earlier later : List Lock} {lock : Lock}
      (listed : request.released = earlier ++ lock :: later)
      (apart : lock.name ≠ request.lock.name) :
      ReleasesAt table request
        (earlier.foldl (applyRelease request.lock.name) (table, [])).1 lock

/-- Once a call has done its own part, it serves some resources, beginning with the table `start`. -/
inductive ServesFrom (table : Table) (owner : TransactionId) (call : Call) :
    (start : Table) → List ResourceName → Prop where
  | released {name : ResourceName} {lock : Lock} {fewer : Table} (called : call = .release name)
      (removed : table.remove owner name = some (lock, fewer)) :
      ServesFrom table owner call fewer [name]
  | granted {request : Request} {side : QueueEnd} (poses : table.Poses owner call request side)
      (admits : table.Admits request side) :
      ServesFrom table owner call (table.apply request).1 (table.freedBy request)

/-- While a call is carried out, a request is granted on the table `moment`: the call's own, or one
that has just left the front of its queue. -/
inductive GrantsAt (table : Table) (owner : TransactionId) (call : Call) :
    Request → (moment : Table) → Prop where
  | own {request : Request} {side : QueueEnd} (poses : table.Poses owner call request side)
      (admits : table.Admits request side) : GrantsAt table owner call request table
  | queued {start middle : Table} {names : List ResourceName} {earlier later rest : List Request}
      {request : Request} {name : ResourceName} (serves : table.ServesFrom owner call start names)
      (order : (start.drain names).2 = earlier ++ request :: later)
      (before : Served start earlier middle) (front : middle.queueOf name = request :: rest) :
      GrantsAt table owner call request (middle.setQueue name rest)

/-- While a call is carried out, the lock of a transaction on a name is taken off the table
`moment`, if there is one: by the call itself, or among the releases of a request that is granted. -/
inductive TakesAt (table : Table) (owner : TransactionId) (call : Call) :
    (moment : Table) → TransactionId → ResourceName → Prop where
  | own {name : ResourceName} (called : call = .release name) : TakesAt table owner call table owner name
  | given {request : Request} {granted moment : Table} {lock : Lock}
      (grants : table.GrantsAt owner call request granted)
      (releases : granted.ReleasesAt request moment lock) :
      TakesAt table owner call moment lock.owner lock.name

namespace Sound

variable {table : Table} (sound : table.Sound)
include sound

theorem releasesAt {request : Request} {moment : Table} {lock : Lock}
    (releases : table.ReleasesAt request moment lock) : moment.Sound := by
  cases releases with
  | release =>
      exact releases_induction (motive := fun after _ => after.Sound) request.lock.name
        (fun _ _ before => before) (fun _ _ _ _ _ _ _ taken before => before.remove taken)
        _ table [] sound

theorem servesFrom {owner : TransactionId} {call : Call} {start : Table}
    {names : List ResourceName} (serves : table.ServesFrom owner call start names) :
    start.Sound := by
  cases serves with
  | released _ removed => exact sound.remove removed
  | granted poses admits => exact sound.apply poses.locked admits.1

theorem grantsAt {owner : TransactionId} {call : Call} {request : Request} {moment : Table}
    (grants : table.GrantsAt owner call request moment) : moment.Sound := by
  cases grants with
  | own => exact sound
  | queued serves _ before front =>
      exact ((sound.servesFrom serves).served before).setQueue_rest front

/-- Every table from which a call takes a lock is sound. -/
theorem takesAt {owner other : TransactionId} {call : Call} {moment : Table} {name : ResourceName}
    (takes : table.TakesAt owner call moment other name) : moment.Sound := by
  cases takes with
  | own => exact sound
  | given grants releases => exact (sound.grantsAt grants).releasesAt releases

end Sound

end Granularity.Table
