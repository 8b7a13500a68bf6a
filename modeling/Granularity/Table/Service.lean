import Granularity.Table.Basic

/-!
Serving the queues of resources that have lost a lock.

A queue is served from the front, and service stops at the first request that finds no room.
Granting a request carries out the releases that it lists, and every resource released that way is
served in its turn, after those that already wait for service.

Each round of service takes one resource from the list of those to serve, and a resource is put on
it again only by a release that a granted request lists.  So the resources on the list together with
the releases listed in all queues bound the number of rounds.
-/

namespace Granularity.Table

/-- Carry out one release of a request, adding to the resources that have lost a lock.  A lock on
the request's own name is left for the grant to replace, but its waiters may find room. -/
def applyRelease (name : ResourceName) (state : Table × List ResourceName) (released : Lock) :
    Table × List ResourceName :=
  let (table, freed) := state
  if released.name = name then (table, freed ++ [released.name])
  else
    match table.remove released.owner released.name with
    | none => (table, freed)
    | some (_, fewer) => (fewer, freed ++ [released.name])

/-- Carry out the releases of a request and grant its lock.  The second part lists the resources
that have lost a lock. -/
def apply (table : Table) (request : Request) : Table × List ResourceName :=
  let (fewer, freed) := request.released.foldl (applyRelease request.lock.name) (table, [])
  (fewer.grant request.lock, freed)

/-- What service has done. -/
structure Service where
  table : Table
  /-- The requests granted, in order. -/
  served : List Request
  /-- The resources that lost a lock while requests were granted. -/
  freed : List ResourceName

/-- Serve the front of a queue as long as there is room; `queue` is what waits for `name`. -/
def serveQueue (name : ResourceName) : List Request → Table → Service
  | [], table => ⟨table, [], []⟩
  | request :: rest, table =>
      if (table.entry name).hasRoom request then
        let (granted, freed) := (table.setQueue name rest).apply request
        let later := serveQueue name rest granted
        ⟨later.table, request :: later.served, freed ++ later.freed⟩
      else ⟨table, [], []⟩

/-- Serve the queue of one resource. -/
def serve (table : Table) (name : ResourceName) : Service :=
  serveQueue name (table.queueOf name) table

/-- Serve resources for at most `rounds` rounds, those freed on the way after the rest. -/
def drainFor : Nat → List ResourceName → Table → Table × List Request
  | _, [], table => (table, [])
  | 0, _ :: _, table => (table, [])
  | rounds + 1, name :: names, table =>
      let service := table.serve name
      let (final, later) := drainFor rounds (names ++ service.freed) service.table
      (final, service.served ++ later)

/-- The number of releases that some requests list. -/
def releasesListed : List Request → Nat
  | [] => 0
  | request :: rest => request.released.length + releasesListed rest

/-- The number of releases listed by all waiting requests. -/
def pendingReleases (table : Table) : Nat :=
  table.entries.toList.foldr (fun (_, entry) total => releasesListed entry.queue + total) 0

/-- Serve some resources and all that are freed on the way.  The second part lists the requests
granted, in order. -/
def drain (table : Table) (names : List ResourceName) : Table × List Request :=
  drainFor (names.length + table.pendingReleases) names table

end Granularity.Table
