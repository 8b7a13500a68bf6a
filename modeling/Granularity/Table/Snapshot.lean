import Granularity.Table.Basic

/-!
Copies of a lock table at one moment.

A snapshot lists the resources on which somebody holds or waits for a lock, in ascending order of
names, and the granted locks again by transaction, in ascending order of transactions.
-/

namespace Granularity

/-- The granted and the wanted locks of one resource. -/
structure ResourceSnapshot where
  name : ResourceName
  /-- Granted locks, oldest first. -/
  granted : List Lock
  /-- Wanted locks, front of the queue first. -/
  waiting : List Lock
deriving DecidableEq, Repr

/-- A copy of a whole table. -/
structure Snapshot where
  resources : List ResourceSnapshot
  transactions : Std.ExtTreeMap TransactionId (List Lock)
deriving DecidableEq

namespace Snapshot

/-- The part of a snapshot about one resource, if the snapshot lists it. -/
def resource? (snapshot : Snapshot) (name : ResourceName) : Option ResourceSnapshot :=
  snapshot.resources.find? fun resource => resource.name == name

end Snapshot

/-- The copy of a table's present state. -/
def Table.snapshot (table : Table) : Snapshot where
  resources := table.entries.toList.map fun (name, entry) =>
    ⟨name, entry.granted, entry.queue.map Request.lock⟩
  transactions := table.holdings.stored

end Granularity
