import Granularity.Proofs.Histories.ReleaseOrder

/-!
A request that is left alone.

Nobody but its owner changes the locks of a transaction.  So as long as a transaction makes no call
while it waits, its request stays as it is, and finds the locks that it was made for when it is
granted; it does not matter when that is, nor what the others do in between.
-/

namespace Granularity

namespace Table

variable {table : Table} {owner : TransactionId} {name : ResourceName}

/-- The locks of a transaction tell the modes that it holds. -/
theorem Sound.modeOf_eq_of_locksOf (sound : table.Sound) {after : Table} (afterSound : after.Sound)
    (same : after.locksOf owner = table.locksOf owner) :
    after.modeOf owner = table.modeOf owner := by
  funext name
  by_cases held : table.modeOf owner name = .NL
  · rw [held]
    by_contra takes
    rw [← ne_eq, afterSound.modeOf_ne_NL_iff, same, ← sound.modeOf_ne_NL_iff] at takes
    exact takes held
  · have listed : (⟨name, table.modeOf owner name, owner⟩ : Lock) ∈ after.locksOf owner := by
      rw [same]
      exact sound.mem_locksOf_iff.mpr ⟨rfl, held, rfl⟩
    exact (afterSound.mem_locksOf_iff.mp listed).2.2

/-- The requests of a transaction that wait for a resource, front first. -/
def requestsAt (table : Table) (owner : TransactionId) (name : ResourceName) : List Request :=
  (table.queueOf name).filter fun request => request.lock.owner == owner

theorem not_waiting_iff : ¬table.Waiting owner ↔ ∀ name, table.requestsAt owner name = [] := by
  simp [Waiting, requestsAt, List.filter_eq_nil_iff]

/-- A request waits as the only one of its owner, whose locks are as the request found them, or it
has been granted and has made of these locks what it asks for. -/
inductive Honours (table : Table) (request : Request) (locks : List Lock) : Prop where
  | waits
      (alone : ∀ name, table.requestsAt request.lock.owner name =
        if name = request.lock.name then [request] else [])
      (kept : table.locksOf request.lock.owner = locks)
  | granted (idle : ∀ name, table.requestsAt request.lock.owner name = [])
      (changed : table.locksOf request.lock.owner = request.locksAfter locks)

section

variable {request first : Request} {rest : List Request} {locks : List Lock}

theorem Honours.congr {after : Table} (honours : table.Honours request locks)
    (requests : ∀ name, after.requestsAt request.lock.owner name =
      table.requestsAt request.lock.owner name)
    (listed : after.locksOf request.lock.owner = table.locksOf request.lock.owner) :
    after.Honours request locks := by
  cases honours with
  | waits alone kept =>
      exact .waits (fun name => (requests name).trans (alone name)) (listed.trans kept)
  | granted idle changed =>
      exact .granted (fun name => (requests name).trans (idle name)) (listed.trans changed)

/-- A request that joins a queue is one more of its owner. -/
theorem requestsAt_enqueue_self (side : QueueEnd)
    (idle : table.requestsAt request.lock.owner name = []) :
    (table.enqueue request side).requestsAt request.lock.owner name =
      if name = request.lock.name then [request] else [] := by
  rw [requestsAt] at idle
  rw [requestsAt, enqueue_eq, queueOf_setQueue]
  by_cases same : request.lock.name = name
  · subst same
    cases side with
    | front => simp [queueWith, idle]
    | back => simp [queueWith, idle]
  · simp [same, Ne.symm same, idle]

theorem requestsAt_enqueue_other (side : QueueEnd) (apart : request.lock.owner ≠ owner)
    (name : ResourceName) :
    (table.enqueue request side).requestsAt owner name = table.requestsAt owner name := by
  rw [requestsAt, enqueue_eq, queueOf_setQueue]
  by_cases same : request.lock.name = name
  · subst same
    cases side with
    | front => simp [queueWith, apart, requestsAt]
    | back => simp [queueWith, apart, requestsAt]
  · simp [same, requestsAt]

/-- When the front of a queue is granted, no other transaction has fewer requests. -/
theorem requestsAt_next (queued : table.queueOf name = first :: rest)
    (apart : first.lock.owner ≠ owner) (other : ResourceName) :
    ((table.setQueue name rest).apply first).1.requestsAt owner other =
      table.requestsAt owner other := by
  rw [requestsAt, requestsAt, queueOf_apply, queueOf_setQueue]
  split
  · next same =>
      subst same
      rw [queued, List.filter_cons_of_neg (by simpa using apart)]
  · rfl

namespace Honours

/-- Granting the request at the front of a queue, whether it is this one or another. -/
theorem next (sound : table.Sound) (honours : table.Honours request locks)
    (queued : table.queueOf name = first :: rest) :
    ((table.setQueue name rest).apply first).1.Honours request locks := by
  have listed := (sound.setQueue_rest queued).locksOf_apply (sound.front queued).2.2
    request.lock.owner
  rw [locksOf_setQueue] at listed
  by_cases own : first.lock.owner = request.lock.owner
  · have here : table.requestsAt request.lock.owner name =
        first :: rest.filter fun other => other.lock.owner == request.lock.owner := by
      rw [requestsAt, queued, List.filter_cons_of_pos (by simpa using own)]
    cases honours with
    | waits alone kept =>
        rw [alone] at here
        split at here
        · next named =>
            -- The owner has one request only, so it is this one that stands at the front.
            rw [List.cons.injEq] at here
            obtain ⟨rfl, nobody⟩ := here
            refine .granted (fun other => ?_) (by rw [listed, if_pos rfl, kept])
            rw [requestsAt, queueOf_apply, queueOf_setQueue]
            split
            · exact nobody.symm
            · next apart =>
                have elsewhere := alone other
                rwa [if_neg (named ▸ Ne.symm apart)] at elsewhere
        · cases here
    | granted idle =>
        rw [idle] at here
        cases here
  · rw [if_neg (Ne.symm own)] at listed
    exact honours.congr (requestsAt_next queued own) listed

theorem served (sound : table.Sound) (honours : table.Honours request locks) {final : Table}
    {served : List Request} (chain : Served table served final) :
    final.Honours request locks := by
  induction chain with
  | nobody => exact honours
  | front queued room _ inductionHypothesis =>
      exact inductionHypothesis (sound.apply_front queued room) (honours.next sound queued)

/-- Calls of others leave a request waiting, or grant it. -/
theorem call (sound : table.Sound) (honours : table.Honours request locks) {call : Call}
    {done : Section} (passed : table.call owner call = .ok done)
    (apart : request.lock.owner ≠ owner) : done.table.Honours request locks := by
  cases parked : done.parked with
  | true =>
      obtain ⟨other, side, poses, left, _⟩ := enqueued_of_parked passed parked
      have others : other.lock.owner ≠ request.lock.owner := poses.owner_eq ▸ Ne.symm apart
      rw [left]
      exact honours.congr (requestsAt_enqueue_other side others)
        (by rw [enqueue_eq, locksOf_setQueue])
  | false =>
      obtain ⟨start, names, serves, left, _⟩ := servesFrom_of_not_parked passed parked
      have begun : start.Honours request locks :=
        honours.congr (fun name => by rw [requestsAt, queueOf_servesFrom serves, requestsAt])
          (sound.locksOf_servesFrom serves apart)
      rw [left]
      exact begun.served (sound.servesFrom serves) (served_drain start names)

/-- A transaction that does not wait makes a call for a request. -/
theorem of_poses (sound : table.Sound) (idle : ¬table.Waiting owner) {call : Call}
    {side : QueueEnd} {done : Section} (poses : table.Poses owner call request side)
    (passed : table.call owner call = .ok done) :
    done.table.Honours request (table.locksOf owner) := by
  obtain rfl := poses.owner_eq
  rw [not_waiting_iff] at idle
  by_cases admits : table.Admits request side
  · have start : (table.apply request).1.Honours request (table.locksOf request.lock.owner) := by
      refine .granted (fun name => ?_) ?_
      · rw [requestsAt, queueOf_apply]
        exact idle name
      · rw [sound.locksOf_apply (poses.coherent sound), if_pos rfl]
    rw [(poses.granted admits passed).1]
    exact start.served (sound.servesFrom (.granted poses admits)) (served_drain _ _)
  · rw [(poses.parked admits passed).1]
    exact .waits (fun name => requestsAt_enqueue_self side (idle name))
      (by rw [enqueue_eq, locksOf_setQueue])

theorem locksOf_of_waiting (honours : table.Honours request locks)
    (waits : table.Waiting request.lock.owner) : table.locksOf request.lock.owner = locks := by
  cases honours with
  | waits _ kept => exact kept
  | granted idle => exact absurd waits (not_waiting_iff.mpr idle)

theorem locksOf_of_not_waiting (honours : table.Honours request locks)
    (idle : ¬table.Waiting request.lock.owner) :
    table.locksOf request.lock.owner = request.locksAfter locks := by
  cases honours with
  | waits alone =>
      have stands := not_waiting_iff.mp idle request.lock.name
      rw [alone, if_pos rfl] at stands
      cases stands
  | granted _ changed => exact changed

end Honours

end

end Table

/-- Whatever calls others make, a request goes on waiting or has been granted. -/
theorem System.honours_afterCalls {request : Request} {locks : List Lock}
    (calls : List (TransactionId × Call)) {system : System} (sound : system.store.table.Sound)
    (honours : system.store.table.Honours request locks)
    (others : ∀ made ∈ calls, made.1 ≠ request.lock.owner) :
    (system.afterCalls calls).store.table.Honours request locks := by
  induction calls generalizing system with
  | nil => exact honours
  | cons made calls inductionHypothesis =>
      have apart := Ne.symm (others made List.mem_cons_self)
      have rest := fun other member => others other (List.mem_cons_of_mem made member)
      rw [afterCalls, List.foldl_cons]
      cases answer : system.store.table.call made.1 made.2 with
      | error refusal =>
          rw [carryOut_of_refused answer]
          exact inductionHypothesis sound honours rest
      | ok done =>
          have left : (system.carryOut made.1 made.2).2.store.table = done.table := by
            rw [store_carryOut answer]
          exact inductionHypothesis (left ▸ sound.call answer)
            (left ▸ honours.call sound answer apart) rest

end Granularity
