import Granularity.Proofs.Table.Served
import Mathlib.Algebra.BigOperators.Group.Finset.Basic

/-!
Enough rounds to serve every resource that loses a lock.

`Table.drain` allows as many rounds as there are resources to serve and releases listed in queues.
A round takes one resource off the list and puts on at most the releases of the requests that it
grants, which are no longer in a queue; so the allowance never runs out before the list is empty,
and `Table.drain_cons` takes one round after the other without counting them.
-/

namespace Granularity.Table

variable {table : Table}

/-! ### Adding up over the queues -/

/-- A number for every queue, added up over all resources. -/
def overQueues (weight : List Request → Nat) (table : Table) : Nat :=
  table.entries.toList.foldr (fun stored total => weight stored.2.queue + total) 0

theorem pendingReleases_eq (table : Table) :
    table.pendingReleases = table.overQueues releasesListed := rfl

/-- The number of requests that wait. -/
def waitingRequests (table : Table) : Nat :=
  table.overQueues List.length

theorem overQueues_eq_foldr (weight : List Request → Nat) (table : Table) :
    table.overQueues weight =
      (table.entries.toList.map fun pair => weight pair.2.queue).foldr (· + ·) 0 := by
  rw [List.foldr_map]
  rfl

theorem entries_keys_nodup (table : Table) : (table.entries.toList.map Prod.fst).Nodup := by
  have distinct := Std.ExtTreeMap.distinct_keys_toList (t := table.entries.stored)
  rw [List.Nodup, List.pairwise_map]
  refine distinct.imp fun apart same => apart ?_
  rw [same]
  exact Std.ReflCmp.compare_self

theorem queueOf_of_mem_entries {name : ResourceName} {entry : Entry}
    (stored : (name, entry) ∈ table.entries.toList) : table.queueOf name = entry.queue := by
  rw [queueOf, Table.entry, (Sparse.mem_toList.mp stored).1]

theorem mem_entries_of_queueOf_ne_nil {name : ResourceName} (waiting : table.queueOf name ≠ []) :
    name ∈ table.entries.toList.map Prod.fst := by
  refine List.mem_map.mpr ⟨(name, table.entry name), Sparse.mem_toList.mpr ⟨rfl, ?_⟩, rfl⟩
  intro nobody
  apply waiting
  rw [queueOf, nobody]
  rfl

section

variable (weight : List Request → Nat) (nobody : weight [] = 0)
include nobody

/-- It is enough to add up over any names that include every resource with somebody waiting. -/
theorem overQueues_eq_sum (names : Finset ResourceName)
    (all : ∀ name, table.queueOf name ≠ [] → name ∈ names) :
    table.overQueues weight = ∑ name ∈ names, weight (table.queueOf name) := by
  have listed : table.overQueues weight =
      ∑ name ∈ (table.entries.toList.map Prod.fst).toFinset, weight (table.queueOf name) := by
    rw [List.sum_toFinset _ table.entries_keys_nodup, overQueues_eq_foldr,
      ← List.sum_eq_foldr, List.map_map]
    refine congrArg List.sum (List.map_congr_left fun pair stored => ?_)
    obtain ⟨name, entry⟩ := pair
    rw [Function.comp_apply, queueOf_of_mem_entries stored]
  rw [listed, ← Finset.sum_filter_ne_zero, ← Finset.sum_filter_ne_zero (s := names)]
  refine Finset.sum_congr (Finset.ext fun name => ?_) fun _ _ => rfl
  rw [Finset.mem_filter, Finset.mem_filter, List.mem_toFinset]
  refine and_congr_left fun some => ?_
  have waiting : table.queueOf name ≠ [] := by
    intro empty
    rw [empty] at some
    exact some nobody
  exact ⟨fun _ => all name waiting, fun _ => mem_entries_of_queueOf_ne_nil waiting⟩

/-- Only the queues decide the sum. -/
theorem overQueues_congr {other : Table} (same : ∀ name, other.queueOf name = table.queueOf name) :
    other.overQueues weight = table.overQueues weight := by
  have all : ∀ name, table.queueOf name ≠ [] →
      name ∈ (table.entries.toList.map Prod.fst).toFinset :=
    fun name waiting => List.mem_toFinset.mpr (mem_entries_of_queueOf_ne_nil waiting)
  rw [overQueues_eq_sum weight nobody _ all,
    @overQueues_eq_sum other weight nobody _ fun name waiting => all name (same name ▸ waiting)]
  exact Finset.sum_congr rfl fun name _ => by rw [same]

/-- A request that leaves the front of its queue changes the sum by what it changes there. -/
theorem overQueues_next {name : ResourceName} {request : Request} {rest : List Request}
    (queued : table.queueOf name = request :: rest) :
    ((table.setQueue name rest).apply request).1.overQueues weight + weight (request :: rest) =
      table.overQueues weight + weight rest := by
  have all : ∀ other, table.queueOf other ≠ [] →
      other ∈ (table.entries.toList.map Prod.fst).toFinset :=
    fun other waiting => List.mem_toFinset.mpr (mem_entries_of_queueOf_ne_nil waiting)
  have member : name ∈ (table.entries.toList.map Prod.fst).toFinset :=
    all name (by simp [queued])
  have after : ∀ other, (table.setQueue name rest).queueOf other ≠ [] →
      other ∈ (table.entries.toList.map Prod.fst).toFinset := by
    intro other waiting
    rw [queueOf_setQueue] at waiting
    split at waiting
    · next same => exact same ▸ member
    · exact all other waiting
  rw [overQueues_congr weight nobody fun other =>
      @queueOf_apply (table.setQueue name rest) request other,
    overQueues_eq_sum weight nobody _ after, overQueues_eq_sum weight nobody _ all,
    ← Finset.add_sum_erase _ _ member, ← Finset.add_sum_erase _ _ member]
  have others : ∀ other ∈ (table.entries.toList.map Prod.fst).toFinset.erase name,
      weight ((table.setQueue name rest).queueOf other) = weight (table.queueOf other) := by
    intro other elsewhere
    rw [queueOf_setQueue, if_neg (Finset.ne_of_mem_erase elsewhere).symm]
  rw [Finset.sum_congr rfl others, queueOf_setQueue, if_pos rfl, queued]
  omega

end

/-- A request that leaves the front of its queue takes its releases along. -/
theorem pendingReleases_next {name : ResourceName} {request : Request} {rest : List Request}
    (queued : table.queueOf name = request :: rest) :
    ((table.setQueue name rest).apply request).1.pendingReleases + request.released.length =
      table.pendingReleases := by
  have next := overQueues_next releasesListed rfl queued
  rw [releasesListed] at next
  rw [pendingReleases_eq, pendingReleases_eq]
  omega

/-- One request fewer waits once the front of a queue has been granted. -/
theorem waitingRequests_next {name : ResourceName} {request : Request} {rest : List Request}
    (queued : table.queueOf name = request :: rest) :
    ((table.setQueue name rest).apply request).1.waitingRequests + 1 = table.waitingRequests := by
  have next := overQueues_next List.length rfl queued
  rw [List.length_cons] at next
  rw [waitingRequests, waitingRequests]
  omega

/-! ### The allowance lasts -/

theorem length_freed_le (name : ResourceName) :
    ∀ (released : List Lock) (table : Table) (freed : List ResourceName),
      (released.foldl (applyRelease name) (table, freed)).2.length ≤
        freed.length + released.length
  | [], _, freed => by simp
  | first :: rest, table, freed => by
      rw [List.foldl_cons, List.length_cons]
      rcases applyRelease_cases table name freed first with
        ⟨_, same⟩ | ⟨_, _, same⟩ | ⟨_, _, fewer, _, same⟩
      · rw [same]
        have bound := length_freed_le name rest table (freed ++ [name])
        rw [List.length_append, List.length_singleton] at bound
        omega
      · rw [same]
        have bound := length_freed_le name rest table freed
        omega
      · rw [same]
        have bound := length_freed_le name rest fewer (freed ++ [first.name])
        rw [List.length_append, List.length_singleton] at bound
        omega

/-- A resource is freed for each release listed, at most. -/
theorem length_freedBy_le (table : Table) (request : Request) :
    (table.freedBy request).length ≤ request.released.length := by
  have bound := length_freed_le request.lock.name request.released table []
  rw [List.length_nil, Nat.zero_add] at bound
  exact bound

/-- Serving a queue frees no more resources than it takes releases out of the queues. -/
theorem freed_add_pending_le (name : ResourceName) :
    ∀ (queue : List Request) (table : Table), table.queueOf name = queue →
      (serveQueue name queue table).freed.length +
        (serveQueue name queue table).table.pendingReleases ≤ table.pendingReleases
  | [], table, _ => by simp [serveQueue]
  | request :: rest, table, queued => by
      by_cases room : (table.entry name).hasRoom request = true
      · rw [serveQueue_of_room room]
        have next := pendingReleases_next queued
        have freed := length_freedBy_le (table.setQueue name rest) request
        have later := freed_add_pending_le name rest _ (@queueOf_next table name request rest)
        simp only [List.length_append]
        omega
      · rw [serveQueue_of_no_room room]
        simp

/-! ### Round after round -/

/-- Rounds beyond the allowance make no difference. -/
theorem drainFor_congr : ∀ (rounds more : Nat) (names : List ResourceName) (table : Table),
    names.length + table.pendingReleases ≤ rounds → names.length + table.pendingReleases ≤ more →
    drainFor rounds names table = drainFor more names table
  | _, _, [], table, _, _ => by rw [drainFor, drainFor]
  | 0, _, _ :: _, _, bound, _ => by
      rw [List.length_cons] at bound
      omega
  | _, 0, _ :: _, _, _, bound => by
      rw [List.length_cons] at bound
      omega
  | rounds + 1, more + 1, name :: names, table, bound, moreBound => by
      have shrinks := freed_add_pending_le name (table.queueOf name) table rfl
      rw [← serve] at shrinks
      rw [List.length_cons] at bound moreBound
      rw [drainFor, drainFor, drainFor_congr rounds more _ (table.serve name).table]
      · rw [List.length_append]
        omega
      · rw [List.length_append]
        omega

/-- Serving resources begins with one round for the first; what it frees is served after the
others. -/
theorem drain_cons (table : Table) (name : ResourceName) (names : List ResourceName) :
    table.drain (name :: names) =
      let service := table.serve name
      let later := service.table.drain (names ++ service.freed)
      (later.1, service.served ++ later.2) := by
  have shrinks := freed_add_pending_le name (table.queueOf name) table rfl
  rw [← serve] at shrinks
  have allowance : (name :: names).length + table.pendingReleases =
      names.length + table.pendingReleases + 1 := by
    rw [List.length_cons]
    omega
  rw [drain, allowance, drainFor, drainFor_congr _
    ((names ++ (table.serve name).freed).length + (table.serve name).table.pendingReleases)]
  · rfl
  · rw [List.length_append]
    omega
  · exact Nat.le_refl _

end Granularity.Table
