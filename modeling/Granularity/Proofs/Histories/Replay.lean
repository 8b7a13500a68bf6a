import Granularity.Proofs.Calls

/-!
The table that some events tell of.

`Table.replay` builds a table from events alone.  It decides nothing: whether a call was granted or
had to wait is told by what follows it, and which waiting requests have been granted, and in which
order, by the events of their granting.  The events that calls leave behind tell the whole table,
with its lists and queues in order; so nothing happens to the table that no event tells.

The grants from queues are announced when all of them have been made.  This loses nothing, because
they are made one after the other in the order in which they are announced.
-/

namespace Granularity

/-- The event that reports a call which has passed its checks. -/
def Call.event (owner : TransactionId) : Call → Event
  | .acquire name mode => .acquire owner name mode
  | .release name => .release owner name
  | .promote name mode => .promote owner name mode
  | .exchange name mode released => .exchange owner name mode released.eraseDups

/-- The event of having to wait for a lock. -/
def Lock.blocked (lock : Lock) : Event :=
  .blocked lock.owner lock.name lock.mode

/-- The event of being granted a lock after waiting for it. -/
def Lock.granted (lock : Lock) : Event :=
  .granted lock.owner lock.name lock.mode

/-- The events go on with something else than a wait. -/
def Event.NoWait (events : List Event) : Prop :=
  ∀ owner name mode later, events ≠ .blocked owner name mode :: later

/-- The request that a reported call came down to, and the end of the queue at which it waits if it
has to.  The locks to give up are those that the table has on the names listed. -/
def Event.request? (table : Table) : Event → Option (Request × QueueEnd)
  | .acquire owner name mode => some (⟨owner, ⟨name, mode, owner⟩, []⟩, .back)
  | .promote owner name mode => some (⟨owner, ⟨name, mode, owner⟩, []⟩, .front)
  | .exchange owner name mode released =>
      match table.locksOn owner released with
      | .ok locks => some (⟨owner, ⟨name, mode, owner⟩, locks⟩, .front)
      | .error _ => none
  | .release .. | .blocked .. | .granted .. => none

theorem events_append (earlier later : List Notice) :
    Notice.events (earlier ++ later) = Notice.events earlier ++ Notice.events later :=
  List.filterMap_append

namespace Table

/-- The table that some events lead to, unless they make no sense.  A call that is followed at once
by a wait joins the queue, and otherwise takes effect; a release takes the lock off; and a grant is
that of the request at the front of the queue, which it has to match. -/
def replay : List Event → Table → Option Table
  | [], table => some table
  | call :: .blocked owner name mode :: later, table =>
      match call.request? table with
      | none => none
      | some (request, side) =>
          if request.lock = ⟨name, mode, owner⟩ then replay later (table.enqueue request side)
          else none
  | .release owner name :: later, table =>
      match table.remove owner name with
      | none => none
      | some (_, fewer) => replay later fewer
  | .granted owner name mode :: later, table =>
      match table.queueOf name with
      | [] => none
      | request :: waiting =>
          if request.lock = ⟨name, mode, owner⟩ then
            replay later ((table.setQueue name waiting).apply request).1
          else none
  | call :: later, table =>
      match call.request? table with
      | none => none
      | some (request, _) => replay later (table.apply request).1

/-! ### The events of a call -/

theorem events_serviceNotices (served : List Request) :
    Notice.events (serviceNotices served) = served.map fun request => request.lock.granted := by
  have traced : Notice.events (served.map fun request => .remark (.serving request)) = [] := by
    rw [Notice.events, List.filterMap_map, List.filterMap_eq_nil_iff]
    exact fun _ _ => rfl
  rw [Notice.events] at traced ⊢
  rw [serviceNotices, List.filterMap_append, traced, List.nil_append, List.filterMap_flatMap]
  exact List.flatMap_pure_eq_map _ served

/-- A call that passes is reported first, and then either its wait or the grants that it has led
to, in order. -/
theorem events_call {table : Table} {owner : TransactionId} {call : Call} {done : Section}
    (passed : table.call owner call = .ok done) :
    Notice.events done.notices = call.event owner ::
      if done.parked then [(call.lock owner).blocked]
      else done.served.map fun request => request.lock.granted := by
  cases call with
  | acquire name mode =>
      simp only [Table.call, acquire] at passed
      split at passed
      · cases passed
      · split at passed
        · cases passed
        · split at passed
          · cases passed
            rfl
          · cases passed
            rfl
  | release name =>
      simp only [Table.call, release] at passed
      split at passed
      · cases passed
      · split at passed
        · cases passed
        · cases passed
          exact congrArg (.release owner name :: ·) (events_serviceNotices _)
  | promote name mode =>
      simp only [Table.call, promote] at passed
      split at passed
      · cases passed
      · split at passed
        · cases passed
        · split at passed
          · cases passed
          · split at passed
            · cases passed
              rfl
            · cases passed
              rfl
  | exchange name mode released =>
      simp only [Table.call, exchange] at passed
      split at passed
      · cases passed
      · split at passed
        · cases passed
        · split at passed
          · cases passed
          · split at passed
            · cases passed
              exact congrArg (.exchange owner name mode released.eraseDups :: ·)
                (events_serviceNotices _)
            · cases passed
              rfl

variable {table : Table} {owner : TransactionId} {call : Call}

/-- The request of a call is read off its event. -/
theorem Poses.request?_event {request : Request} {side : QueueEnd}
    (poses : table.Poses owner call request side) :
    (call.event owner).request? table = some (request, side) := by
  cases poses with
  | acquire => rfl
  | promote => rfl
  | exchange _ held => simp only [Call.event, Event.request?, held]

/-- The events of a call begin with the call. -/
theorem noWait_call {done : Section} (passed : table.call owner call = .ok done)
    (later : List Event) : Event.NoWait (Notice.events done.notices ++ later) := by
  rw [events_call passed]
  cases call <;> exact fun _ _ _ _ => nofun

theorem noWait_granted (served : List Request) {later : List Event} (apart : Event.NoWait later) :
    Event.NoWait ((served.map fun request => request.lock.granted) ++ later) := by
  cases served with
  | nil => exact apart
  | cons => exact fun _ _ _ _ => nofun

/-- A call that is not followed by a wait takes effect. -/
theorem replay_of_poses {request : Request} {side : QueueEnd}
    (poses : table.Poses owner call request side) {later : List Event}
    (apart : Event.NoWait later) :
    replay (call.event owner :: later) table = replay later (table.apply request).1 := by
  have notRelease : ∀ other name, call.event owner ≠ .release other name := by
    cases poses <;> exact fun _ _ => nofun
  have notGranted : ∀ other name mode, call.event owner ≠ .granted other name mode := by
    cases poses <;> exact fun _ _ _ => nofun
  rw [replay.eq_5 table _ _ apart notRelease notGranted, poses.request?_event]

/-- The events of grants from queues lead where the grants have led. -/
theorem replay_served {final : Table} {served : List Request} (chain : Served table served final)
    (sound : table.Sound) {later : List Event} (apart : Event.NoWait later) :
    replay ((served.map fun request => request.lock.granted) ++ later) table =
      replay later final := by
  induction chain with
  | nobody => rfl
  | @front table final name request rest served queued room _ inductionHypothesis =>
      have named : request.lock.name = name := (sound.front queued).2.1
      subst named
      rw [List.map_cons, List.cons_append, Lock.granted, replay, queued]
      · exact (if_pos rfl).trans (inductionHypothesis (sound.apply_front queued room))
      · exact noWait_granted served apart

/-- The events of a call lead where the call has led. -/
theorem replay_call {done : Section} (sound : table.Sound)
    (passed : table.call owner call = .ok done) {later : List Event}
    (apart : Event.NoWait later) :
    replay (Notice.events done.notices ++ later) table = replay later done.table := by
  rw [events_call passed]
  cases passes_call passed with
  | @released name lock fewer called removed left served free =>
      subst called
      rw [free, left, served, List.cons_append, Call.event, replay, removed]
      · exact replay_served (served_drain fewer [name]) (sound.remove removed) apart
      · exact noWait_granted _ apart
  | granted poses admits left served free =>
      rw [free, left, served, List.cons_append, replay_of_poses poses]
      · exact replay_served (served_drain _ _) (sound.apply poses.locked admits.1) apart
      · exact noWait_granted _ apart
  | parked poses _ left _ waits =>
      rw [waits, left, if_pos rfl, List.cons_append, List.cons_append, List.nil_append,
        Lock.blocked, replay, poses.request?_event]
      exact if_pos poses.lock_eq

end Table

namespace System

theorem journal_block (system : System) (owner : TransactionId) :
    (system.block owner).2.journal = system.journal := by
  rw [block]
  split
  · rfl
  · split
    · rfl
    · rfl

/-- A call that passes its checks adds the notices of its section to the journal. -/
theorem journal_carryOut {system : System} {owner : TransactionId} {call : Call} {done : Section}
    (passed : system.store.table.call owner call = .ok done) :
    (system.carryOut owner call).2.journal = system.journal ++ done.notices := by
  rw [carryOut_of_passed passed]
  split
  · exact journal_block _ owner
  · rfl

/-- From a sound table on, the events that calls add to the journal lead to the table that the calls
leave. -/
theorem exists_replay_eq (calls : List (TransactionId × Call)) {system : System}
    (sound : system.store.table.Sound) :
    ∃ added, (system.afterCalls calls).journal = system.journal ++ added ∧
      Event.NoWait (Notice.events added) ∧
      Table.replay (Notice.events added) system.store.table =
        some (system.afterCalls calls).store.table := by
  induction calls generalizing system with
  | nil => exact ⟨[], (List.append_nil _).symm, fun _ _ _ _ => nofun, rfl⟩
  | cons made calls inductionHypothesis =>
      cases answer : system.store.table.call made.1 made.2 with
      | error refusal =>
          have same : system.afterCalls (made :: calls) = system.afterCalls calls := by
            rw [afterCalls, List.foldl_cons, carryOut_of_refused answer]
            rfl
          rw [same]
          exact inductionHypothesis sound
      | ok done =>
          have table : (system.carryOut made.1 made.2).2.store.table = done.table := by
            rw [store_carryOut answer]
          obtain ⟨added, journal, apart, replayed⟩ :=
            @inductionHypothesis (system.carryOut made.1 made.2).2 (table ▸ sound.call answer)
          refine ⟨done.notices ++ added, ?_, ?_, ?_⟩
          · rw [← List.append_assoc, ← journal_carryOut answer]
            exact journal
          · rw [events_append]
            exact Table.noWait_call answer _
          · rw [events_append, Table.replay_call sound answer apart, ← table]
            exact replayed

/-- The events that calls have left behind tell the whole table: replaying them from the empty table
gives the granted lists, the queues, the lists of the transactions and the counts as they are.  A
call that is refused leaves no event. -/
theorem replay_afterCalls (config : Config) (handles : Std.ExtTreeMap TransactionId Handle)
    (calls : List (TransactionId × Call)) :
    let system := (opened config handles).afterCalls calls
    Table.replay (Notice.events system.journal) .empty = some system.store.table ∧
      ∀ owner call refusal, (system.carryOut owner call).1 = .refused refusal →
        Notice.events (system.carryOut owner call).2.journal = Notice.events system.journal := by
  intro system
  constructor
  · obtain ⟨added, journal, _, replayed⟩ :=
      @exists_replay_eq calls (opened config handles) Table.Sound.empty
    have whole : system.journal = added := journal
    rw [whole]
    exact replayed
  · intro owner call refusal refused
    cases answer : system.store.table.call owner call with
    | error other => rw [carryOut_of_refused answer]
    | ok done => exact absurd refused (carryOut_not_refused answer refusal)

end System

end Granularity
