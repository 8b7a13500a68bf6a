import Granularity.Proofs.Table.Rounds

/-!
The loop that serves queues.

`Table.drain` serves in whole rounds, each of which follows one queue as far as it goes.  Seen more
closely, service is a loop over a list of resources: it takes up the next resource, grants the
request at the front of the queue as long as there is room, and leaves the resource.  A request that
is granted puts the resources that it frees at the end of the list, even those already left.
`Draining` is the state of this loop, with a log of the requests granted.

Every step lowers `Draining.stepsLeft`, so the loop stops; no step changes what the rounds would
still make of the state, so the loop stops with what `Table.drain` gives; and every step keeps the
log and the queues balanced.  None of this asks for a sound table: the queues may hold anything.
-/

namespace Granularity

/-- A request granted from a queue. -/
structure Grant where
  /-- The resource in whose queue the request stood. -/
  name : ResourceName
  request : Request
  /-- The table just before, the request still being at the front of the queue. -/
  moment : Table

/-- The place of a request in its queue, counted from the back: places do not change while the queue
is served from the front. -/
def Grant.place (grant : Grant) : ResourceName × Nat :=
  (grant.name, (grant.moment.queueOf grant.name).length)

/-- The state of the loop. -/
structure Draining where
  table : Table
  /-- The resource whose queue is being served, if any. -/
  current : Option ResourceName
  /-- The resources to serve after that, in order. -/
  names : List ResourceName
  /-- The requests granted so far, in order. -/
  log : List Grant

namespace Draining

/-- The loop is about to begin. -/
def start (table : Table) (names : List ResourceName) : Draining :=
  ⟨table, none, names, []⟩

/-- The next step of the loop; there is none once all resources have been served. -/
def next (state : Draining) : Option Draining :=
  match state.current with
  | none =>
      match state.names with
      | [] => none
      | name :: names => some { state with current := some name, names := names }
  | some name =>
      match state.table.queueOf name with
      | [] => some { state with current := none }
      | request :: rest =>
          if (state.table.entry name).hasRoom request then
            let (granted, freed) := (state.table.setQueue name rest).apply request
            some
              { table := granted
                current := some name
                names := state.names ++ freed
                log := state.log ++ [⟨name, request, state.table⟩] }
          else some { state with current := none }

/-- The state after a number of steps, or sooner if the loop stops. -/
def after : Nat → Draining → Draining
  | 0, state => state
  | steps + 1, state =>
      match state.next with
      | none => state
      | some further => after steps further

/-- The requests granted from the queue of a resource, in order. -/
def grantedFrom (state : Draining) (name : ResourceName) : List Grant :=
  state.log.filter fun grant => grant.name == name

/-! ### Steps -/

/-- What a step does. -/
inductive Step : Draining → Draining → Prop where
  | turn {table : Table} {name : ResourceName} {names : List ResourceName} {log : List Grant} :
      Step ⟨table, none, name :: names, log⟩ ⟨table, some name, names, log⟩
  | grant {table : Table} {name : ResourceName} {names : List ResourceName} {log : List Grant}
      {request : Request} {rest : List Request} (queued : table.queueOf name = request :: rest)
      (room : (table.entry name).hasRoom request = true) :
      Step ⟨table, some name, names, log⟩
        ⟨((table.setQueue name rest).apply request).1, some name,
          names ++ (table.setQueue name rest).freedBy request, log ++ [⟨name, request, table⟩]⟩
  | leave {table : Table} {name : ResourceName} {names : List ResourceName} {log : List Grant}
      (nobody : table.serve name = ⟨table, [], []⟩) :
      Step ⟨table, some name, names, log⟩ ⟨table, none, names, log⟩

theorem step_of_next {state further : Draining} (stepped : state.next = some further) :
    Step state further := by
  obtain ⟨table, current, names, log⟩ := state
  cases current with
  | none =>
      cases names with
      | nil => cases stepped
      | cons name names =>
          cases stepped
          exact .turn
  | some name =>
      rw [next] at stepped
      cases queued : table.queueOf name with
      | nil =>
          simp only [queued, Option.some.injEq] at stepped
          subst stepped
          exact .leave (by rw [Table.serve, queued, Table.serveQueue])
      | cons request rest =>
          simp only [queued] at stepped
          split at stepped
          · next room =>
              cases stepped
              exact .grant queued room
          · next full =>
              cases stepped
              exact .leave (by rw [Table.serve, queued, Table.serveQueue_of_no_room full])

/-- The loop stops when no resource is left to serve. -/
theorem next_eq_none {state : Draining} :
    state.next = none ↔ state.current = none ∧ state.names = [] := by
  obtain ⟨table, current, names, log⟩ := state
  cases current with
  | none => cases names <;> simp [next]
  | some name =>
      rw [next]
      cases queued : table.queueOf name with
      | nil => simp [queued]
      | cons request rest =>
          simp only [queued, reduceCtorEq, false_and, iff_false]
          split <;> simp

/-- What every step keeps, all steps together keep. -/
theorem after_induction {motive : Draining → Prop}
    (step : ∀ state further, Step state further → motive state → motive further) :
    ∀ (steps : Nat) (state : Draining), motive state → motive (state.after steps)
  | 0, _, begun => begun
  | steps + 1, state, begun => by
      rw [after]
      cases stepped : state.next with
      | none => exact begun
      | some further =>
          exact after_induction step steps further (step _ _ (step_of_next stepped) begun)

/-! ### The loop stops -/

/-- A bound on the steps that are left.  A resource on the list costs two steps, one to take it up
and one to leave it, and may be put there by each release that waits; a request costs one. -/
def stepsLeft (state : Draining) : Nat :=
  state.current.toList.length + 2 * (state.names.length + state.table.pendingReleases) +
    state.table.waitingRequests

theorem Step.stepsLeft_lt {state further : Draining} (step : Step state further) :
    further.stepsLeft < state.stepsLeft := by
  cases step with
  | turn =>
      simp only [stepsLeft, Option.toList_none, Option.toList_some, List.length_nil,
        List.length_cons]
      omega
  | @grant table name names log request rest queued room =>
      -- The releases of the request leave the queue with it, and free at most as many resources.
      have releases := Table.pendingReleases_next queued
      have requests := Table.waitingRequests_next queued
      have freed := Table.length_freedBy_le (table.setQueue name rest) request
      simp only [stepsLeft, List.length_append]
      omega
  | leave =>
      simp only [stepsLeft, Option.toList_none, Option.toList_some, List.length_nil,
        List.length_cons]
      omega

/-- Within that bound the loop stops, whatever the queues hold. -/
theorem next_after_eq_none : ∀ (steps : Nat) (state : Draining), state.stepsLeft ≤ steps →
    (state.after steps).next = none
  | 0, state, bound => by
      rw [after]
      cases stepped : state.next with
      | none => rfl
      | some further =>
          have lower := (step_of_next stepped).stepsLeft_lt
          omega
  | steps + 1, state, bound => by
      rw [after]
      cases stepped : state.next with
      | none => exact stepped
      | some further =>
          have lower := (step_of_next stepped).stepsLeft_lt
          exact next_after_eq_none steps further (by omega)

/-! ### The loop does what the rounds do -/

/-- What is left to do, done in whole rounds. -/
def finished (state : Draining) : Table × List Request :=
  let rounds := state.table.drain (state.current.toList ++ state.names)
  (rounds.1, state.log.map Grant.request ++ rounds.2)

/-- A step of the loop anticipates the rounds. -/
theorem Step.finished_eq {state further : Draining} (step : Step state further) :
    further.finished = state.finished := by
  cases step with
  | turn => rfl
  | @grant table name names log request rest queued room =>
      have round : table.serve name =
          let later := (((table.setQueue name rest).apply request).1).serve name
          ⟨later.table, request :: later.served,
            (table.setQueue name rest).freedBy request ++ later.freed⟩ := by
        rw [Table.serve, queued, Table.serveQueue_of_room room, Table.serve, Table.queueOf_next]
      simp only [finished, Option.toList_some, Table.drain_cons, round, List.map_append,
        List.map_singleton, List.append_assoc, List.cons_append, List.nil_append]
  | leave nobody =>
      simp only [finished, Option.toList_some, Option.toList_none, List.singleton_append,
        List.nil_append, Table.drain_cons, nobody, List.append_nil]

theorem finished_of_stopped {state : Draining} (stopped : state.next = none) :
    state.finished = (state.table, state.log.map Grant.request) := by
  obtain ⟨nowhere, nothing⟩ := next_eq_none.mp stopped
  simp only [finished, nowhere, nothing, Option.toList_none, List.append_nil, Table.drain_nil]

/-! ### The log accounts for the queues -/

/-- The log of a loop that began with `table` agrees with the queues. -/
structure Balanced (table : Table) (state : Draining) : Prop where
  /-- What has left a queue has been granted in its order, and all else still waits. -/
  queues : ∀ name,
    table.queueOf name = (state.grantedFrom name).map Grant.request ++ state.table.queueOf name
  /-- Whatever was granted stood in its queue from the beginning, and in front by then. -/
  front : ∀ grant ∈ state.log, ∃ ahead behind,
    table.queueOf grant.name = ahead ++ grant.request :: behind ∧
      grant.moment.queueOf grant.name = grant.request :: behind
  room : ∀ grant ∈ state.log, (grant.moment.entry grant.name).hasRoom grant.request = true
  /-- Whoever has been granted no longer waits. -/
  gone : ∀ grant ∈ state.log,
    (state.table.queueOf grant.name).length < (grant.moment.queueOf grant.name).length
  once : (state.log.map Grant.place).Nodup

theorem balanced_start (table : Table) (names : List ResourceName) :
    (start table names).Balanced table := by
  constructor <;> simp [start, grantedFrom]

/-- The log stays in balance when the request at the front of a queue is granted. -/
theorem Balanced.grant {begun table : Table} {name : ResourceName} {names : List ResourceName}
    {log : List Grant} {request : Request} {rest : List Request}
    (balanced : Balanced begun ⟨table, some name, names, log⟩)
    (queued : table.queueOf name = request :: rest)
    (room : (table.entry name).hasRoom request = true) :
    Balanced begun ⟨((table.setQueue name rest).apply request).1, some name,
      names ++ (table.setQueue name rest).freedBy request, log ++ [⟨name, request, table⟩]⟩ where
  queues other := by
    have before := balanced.queues other
    rw [grantedFrom] at before ⊢
    rw [List.filter_append, List.map_append, Table.queueOf_apply, Table.queueOf_setQueue]
    by_cases same : name = other
    · subst same
      rw [queued] at before
      simpa using before
    · simpa [same] using before
  front := by
    have before := balanced.queues name
    rw [queued] at before
    exact List.forall_mem_append.mpr
      ⟨balanced.front, List.forall_mem_singleton.mpr ⟨_, rest, before, queued⟩⟩
  room := List.forall_mem_append.mpr ⟨balanced.room, List.forall_mem_singleton.mpr room⟩
  gone := by
    refine List.forall_mem_append.mpr ⟨fun grant earlier => ?_, List.forall_mem_singleton.mpr ?_⟩
    · have fewer := (Table.queueOf_next_sublist queued grant.name).length_le
      exact Nat.lt_of_le_of_lt fewer (balanced.gone grant earlier)
    · rw [Table.queueOf_next, queued, List.length_cons]
      exact Nat.lt_succ_self rest.length
  once := by
    rw [List.map_append, List.map_singleton, List.nodup_append_comm, List.singleton_append,
      List.nodup_cons]
    refine ⟨fun again => ?_, balanced.once⟩
    obtain ⟨grant, earlier, place⟩ := List.mem_map.mp again
    -- The queue is shorter by now than it was when that place was served.
    have shorter := balanced.gone grant earlier
    obtain ⟨sameName, sameLength⟩ := Prod.mk.inj place
    rw [sameLength, sameName] at shorter
    exact Nat.lt_irrefl _ shorter

theorem Step.balanced {table : Table} {state further : Draining} (step : Step state further)
    (balanced : state.Balanced table) : further.Balanced table := by
  cases step with
  | turn => exact ⟨balanced.queues, balanced.front, balanced.room, balanced.gone, balanced.once⟩
  | grant queued room => exact balanced.grant queued room
  | leave => exact ⟨balanced.queues, balanced.front, balanced.room, balanced.gone, balanced.once⟩

/-- Whatever a table's queues hold and whichever resources are to be served, the loop stops, and
`Table.drain` gives the table that it leaves and the requests that it has granted.  From each queue
it has granted the requests at the front, in order, and left all others; no place in a queue has
been served twice; and each request, which stood in front of its queue by then, was compatible with
every lock that another transaction held on the resource.

The moment of a grant is taken before the releases of the request, which only take locks away.  A
request counts for the resource in whose queue it stands; calls queue it nowhere but at the resource
that it names. -/
theorem stops_having_served_prefixes (table : Table) (names : List ResourceName) :
    let last := (start table names).after
      (2 * (names.length + table.pendingReleases) + table.waitingRequests)
    last.next = none ∧
      table.drain names = (last.table, last.log.map Grant.request) ∧
      (∀ name, table.queueOf name =
        (last.grantedFrom name).map Grant.request ++ (table.drain names).1.queueOf name) ∧
      (last.log.map Grant.place).Nodup ∧
      ∀ grant ∈ last.log,
        (∃ ahead behind, table.queueOf grant.name = ahead ++ grant.request :: behind ∧
          grant.moment.queueOf grant.name = grant.request :: behind) ∧
        ∀ lock ∈ (grant.moment.entry grant.name).granted, lock.owner ≠ grant.request.lock.owner →
          Mode.compatible grant.request.lock.mode lock.mode = true := by
  intro last
  have stopped : last.next = none := by
    refine next_after_eq_none _ _ ?_
    rw [stepsLeft, start, Option.toList_none, List.length_nil, Nat.zero_add]
  have finished : table.drain names = (last.table, last.log.map Grant.request) := by
    rw [← finished_of_stopped stopped]
    refine after_induction (motive := fun state => table.drain names = state.finished)
      (fun _ _ step same => same.trans step.finished_eq.symm) _ _ ?_
    rfl
  have balanced : last.Balanced table :=
    after_induction (motive := Balanced table) (fun _ _ step => step.balanced) _ _
      (balanced_start table names)
  refine ⟨stopped, finished, ?_, balanced.once, fun grant member => ?_⟩
  · rw [finished]
    exact balanced.queues
  · have room := balanced.room grant member
    exact ⟨balanced.front grant member, Entry.hasRoomFor_iff.mp room⟩

-- The accounts are given up after their queue has been left, so the queue is taken up again.
example :
    let accounts : ResourceName := ⟨"accounts", []⟩
    let orders : ResourceName := ⟨"orders", []⟩
    let held := (Table.empty.grant ⟨accounts, .S, 1⟩).grant ⟨orders, .X, 2⟩
    let table := ((held.enqueue ⟨2, ⟨accounts, .IS, 2⟩, [⟨orders, .X, 2⟩]⟩ .back).enqueue
      ⟨3, ⟨accounts, .IX, 3⟩, []⟩ .back).enqueue ⟨1, ⟨orders, .X, 1⟩, [⟨accounts, .S, 1⟩]⟩ .back
    let last := (start table [accounts]).after 9
    last.next = none ∧ last.log.map Grant.name = [accounts, orders, accounts] ∧
      last.log.map (fun grant => grant.request.lock.owner) = [2, 1, 3] := by
  decide

end Draining

end Granularity
