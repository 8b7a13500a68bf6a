import Granularity.Proofs.Table.Moments

/-!
Transactions that wait.

A transaction waits while it has a request in a queue.  If it makes no call until the request is
granted, it waits for one request at most; `Table.SingleFile` says so of all transactions, and it
survives every call of a transaction that does not wait.  Then service grants at most one request of
each transaction, and whoever is served waits no longer.
-/

namespace Granularity

namespace Table

/-- The transaction has a request in a queue. -/
def Waiting (table : Table) (owner : TransactionId) : Prop :=
  ∃ name, ∃ request ∈ table.queueOf name, request.lock.owner = owner

/-- Whether the transaction has a request in a queue, found by going through all queues. -/
def isWaiting (table : Table) (owner : TransactionId) : Bool :=
  table.entries.toList.any fun (_, entry) =>
    entry.queue.any fun request => request.lock.owner == owner

theorem isWaiting_iff {table : Table} {owner : TransactionId} :
    table.isWaiting owner = true ↔ table.Waiting owner := by
  simp only [isWaiting, List.any_eq_true, beq_iff_eq, Waiting]
  constructor
  · rintro ⟨⟨name, entry⟩, stored, request, member, owned⟩
    refine ⟨name, request, ?_, owned⟩
    rw [queueOf, Table.entry, (Sparse.mem_toList.mp stored).1]
    exact member
  · rintro ⟨name, request, member, owned⟩
    refine ⟨(name, table.entry name), Sparse.mem_toList.mpr ⟨rfl, ?_⟩, request, member, owned⟩
    intro nobody
    rw [queueOf, nobody] at member
    cases member

instance (table : Table) (owner : TransactionId) : Decidable (table.Waiting owner) :=
  decidable_of_iff _ isWaiting_iff

variable {table : Table}

theorem not_waiting_empty (owner : TransactionId) : ¬Table.empty.Waiting owner := by
  rintro ⟨name, request, member, _⟩
  simp [queueOf] at member

/-- Serving only takes requests out of queues. -/
theorem Served.queueOf_sublist {final : Table} {granted : List Request}
    (chain : Served table granted final) (name : ResourceName) :
    (final.queueOf name).Sublist (table.queueOf name) := by
  induction chain with
  | nobody => exact .refl _
  | front queued _ _ inductionHypothesis =>
      exact inductionHypothesis.trans (queueOf_next_sublist queued name)

theorem Waiting.of_sublist {after : Table} {owner : TransactionId} (waits : after.Waiting owner)
    (fewer : ∀ name, (after.queueOf name).Sublist (table.queueOf name)) : table.Waiting owner := by
  obtain ⟨name, request, member, owned⟩ := waits
  exact ⟨name, request, (fewer name).subset member, owned⟩

/-- Whatever is served has stood in a queue. -/
theorem Served.queued_of_mem {final : Table} {served : List Request}
    (chain : Served table served final) {request : Request} (member : request ∈ served) :
    ∃ name, request ∈ table.queueOf name := by
  induction chain with
  | nobody => cases member
  | @front table final name first rest served queued _ _ inductionHypothesis =>
      rcases List.mem_cons.mp member with rfl | member
      · exact ⟨name, queued ▸ List.mem_cons_self⟩
      · obtain ⟨other, stands⟩ := inductionHypothesis member
        exact ⟨other, (queueOf_next_sublist queued other).subset stands⟩

/-- Whoever is served has waited. -/
theorem Served.waiting_of_mem {final : Table} {served : List Request}
    (chain : Served table served final) {request : Request} (member : request ∈ served) :
    table.Waiting request.lock.owner := by
  obtain ⟨name, stands⟩ := chain.queued_of_mem member
  exact ⟨name, request, stands, rfl⟩

theorem waiting_congr {after : Table} (same : ∀ name, after.queueOf name = table.queueOf name)
    (owner : TransactionId) : after.Waiting owner ↔ table.Waiting owner := by
  simp only [Waiting, same]

theorem waiting_enqueue {request : Request} {side : QueueEnd} {owner : TransactionId} :
    (table.enqueue request side).Waiting owner ↔
      owner = request.lock.owner ∨ table.Waiting owner := by
  simp only [Waiting, mem_queueOf_enqueue]
  constructor
  · rintro ⟨name, second, ⟨rfl, rfl⟩ | member, owned⟩
    · exact Or.inl owned.symm
    · exact Or.inr ⟨name, second, member, owned⟩
  · rintro (rfl | ⟨name, second, member, owned⟩)
    · exact ⟨request.lock.name, request, Or.inl ⟨rfl, rfl⟩, rfl⟩
    · exact ⟨name, second, Or.inr member, owned⟩

/-! ### What a call that is not parked serves -/

section

variable {owner : TransactionId} {call : Call} {start : Table} {names : List ResourceName}

/-- The call's own part changes no queue. -/
theorem queueOf_servesFrom (serves : table.ServesFrom owner call start names)
    (name : ResourceName) : start.queueOf name = table.queueOf name := by
  cases serves with
  | released _ removed => exact queueOf_remove removed name
  | granted => exact queueOf_apply _ name

/-- The call's own part changes the modes of the caller alone. -/
theorem Sound.modeOf_servesFrom (sound : table.Sound)
    (serves : table.ServesFrom owner call start names) {other : TransactionId}
    (apart : other ≠ owner) : start.modeOf other = table.modeOf other := by
  cases serves with
  | released _ removed =>
      funext name
      rw [sound.modeOf_remove removed, if_neg fun both => apart both.1.symm]
  | granted poses =>
      rw [sound.modeOf_apply (poses.coherent sound), if_neg (poses.owner_eq ▸ apart)]

/-- Unless a call is parked, it does its own part and serves the resources that have lost a lock. -/
theorem servesFrom_of_not_parked {done : Section} (passed : table.call owner call = .ok done)
    (free : done.parked = false) :
    ∃ start names, table.ServesFrom owner call start names ∧
      done.table = (start.drain names).1 ∧ done.served = (start.drain names).2 := by
  cases passes_call passed with
  | released called removed left served => exact ⟨_, _, .released called removed, left, served⟩
  | granted poses admits left served => exact ⟨_, _, .granted poses admits, left, served⟩
  | parked _ _ _ _ waits => cases waits.symm.trans free

/-- A call that is parked puts the request that it poses in a queue and does nothing else. -/
theorem enqueued_of_parked {done : Section} (passed : table.call owner call = .ok done)
    (waits : done.parked = true) :
    ∃ request side, table.Poses owner call request side ∧
      done.table = table.enqueue request side ∧ done.served = [] := by
  cases passes_call passed with
  | released _ _ _ _ free => cases free.symm.trans waits
  | granted _ _ _ _ free => cases free.symm.trans waits
  | parked poses _ left served => exact ⟨_, _, poses, left, served⟩

/-- A call that is not parked makes nobody wait. -/
theorem waiting_of_not_parked {other : TransactionId} {done : Section}
    (passed : table.call owner call = .ok done) (free : done.parked = false)
    (waits : done.table.Waiting other) : table.Waiting other := by
  obtain ⟨start, names, serves, left, _⟩ := servesFrom_of_not_parked passed free
  rw [left] at waits
  have waitsAtStart := waits.of_sublist (served_drain start names).queueOf_sublist
  exact (waiting_congr (queueOf_servesFrom serves) other).mp waitsAtStart

end

/-- Service changes the modes of those served and of nobody else. -/
theorem Sound.modeOf_served (sound : table.Sound) {final : Table} {served : List Request}
    (chain : Served table served final) {owner : TransactionId}
    (notServed : owner ∉ served.map fun request => request.lock.owner) :
    final.modeOf owner = table.modeOf owner := by
  induction chain with
  | nobody => rfl
  | front queued room _ inductionHypothesis =>
      rw [List.map_cons, List.mem_cons, not_or] at notServed
      rw [inductionHypothesis (sound.apply_front queued room) notServed.2,
        sound.modeOf_apply_front queued, if_neg notServed.1]

/-! ### One request for each transaction -/

/-- Every transaction waits for one request at most. -/
structure SingleFile (table : Table) : Prop where
  owners_nodup : ∀ name, ((table.queueOf name).map fun request => request.lock.owner).Nodup
  one_queue : ∀ name, ∀ request ∈ table.queueOf name, ∀ other, ∀ second ∈ table.queueOf other,
    request.lock.owner = second.lock.owner → name = other

namespace SingleFile

theorem empty : SingleFile Table.empty := by
  constructor <;> simp [queueOf]

/-- Fewer may wait. -/
theorem of_sublist (single : table.SingleFile) {after : Table}
    (fewer : ∀ name, (after.queueOf name).Sublist (table.queueOf name)) : after.SingleFile where
  owners_nodup name := ((fewer name).map _).nodup (single.owners_nodup name)
  one_queue name request member other second otherMember owned :=
    single.one_queue name request ((fewer name).subset member) other second
      ((fewer other).subset otherMember) owned

/-- The new request of a transaction that did not wait joins a queue. -/
theorem enqueue (single : table.SingleFile) {request : Request} (side : QueueEnd)
    (idle : ¬table.Waiting request.lock.owner) : (table.enqueue request side).SingleFile := by
  have apart : ∀ name, ∀ second ∈ table.queueOf name, second.lock.owner ≠ request.lock.owner :=
    fun name second member owned => idle ⟨name, second, member, owned⟩
  constructor
  case owners_nodup =>
    intro name
    rw [enqueue_eq, queueOf_setQueue]
    split
    · next same =>
        rw [((queueWith_perm request side _).map _).nodup_iff, List.map_cons, List.nodup_cons]
        refine ⟨fun member => ?_, single.owners_nodup _⟩
        obtain ⟨second, member, owned⟩ := List.mem_map.mp member
        exact apart _ second member owned
    · exact single.owners_nodup name
  case one_queue =>
    intro name first firstMember other second secondMember owned
    rw [mem_queueOf_enqueue] at firstMember secondMember
    rcases firstMember with ⟨rfl, rfl⟩ | firstMember
    · rcases secondMember with ⟨_, same⟩ | secondMember
      · exact same.symm
      · exact absurd owned.symm (apart other second secondMember)
    · rcases secondMember with ⟨rfl, rfl⟩ | secondMember
      · exact absurd owned (apart name first firstMember)
      · exact single.one_queue name first firstMember other second secondMember owned

/-- The call's own part makes nobody wait and lets nobody go. -/
theorem servesFrom (single : table.SingleFile) {owner : TransactionId} {call : Call}
    {start : Table} {names : List ResourceName}
    (serves : table.ServesFrom owner call start names) : start.SingleFile :=
  single.of_sublist fun name => queueOf_servesFrom serves name ▸ .refl _

/-! ### Service -/

section

variable {name : ResourceName} {request : Request} {rest : List Request}

/-- Whoever is served from the front of a queue waits no longer. -/
theorem not_waiting_next (single : table.SingleFile)
    (queued : table.queueOf name = request :: rest) :
    ¬((table.setQueue name rest).apply request).1.Waiting request.lock.owner := by
  rintro ⟨other, second, member, owned⟩
  rw [queueOf_apply, queueOf_setQueue] at member
  have front : request ∈ table.queueOf name := queued ▸ List.mem_cons_self
  split at member
  · have nodup := single.owners_nodup name
    rw [queued, List.map_cons, List.nodup_cons] at nodup
    exact nodup.1 (List.mem_map.mpr ⟨second, member, owned⟩)
  · next apart => exact apart (single.one_queue name request front other second member owned.symm)

/-- All others go on waiting. -/
theorem waiting_next (single : table.SingleFile) (queued : table.queueOf name = request :: rest)
    {owner : TransactionId} :
    ((table.setQueue name rest).apply request).1.Waiting owner ↔
      table.Waiting owner ∧ owner ≠ request.lock.owner := by
  constructor
  · intro waits
    refine ⟨waits.of_sublist (queueOf_next_sublist queued), ?_⟩
    rintro rfl
    exact single.not_waiting_next queued waits
  · intro ⟨waits, apart⟩
    obtain ⟨other, second, member, owned⟩ := waits
    refine ⟨other, second, ?_, owned⟩
    rw [queueOf_apply, queueOf_setQueue]
    split
    · next same =>
        subst same
        rw [queued] at member
        refine (List.mem_cons.mp member).resolve_left ?_
        rintro rfl
        exact apart owned.symm
    · exact member

theorem next (single : table.SingleFile) (queued : table.queueOf name = request :: rest) :
    ((table.setQueue name rest).apply request).1.SingleFile :=
  single.of_sublist (queueOf_next_sublist queued)

end

section

variable {final : Table} {served : List Request}

/-- Service takes those away from the waiting whom it serves. -/
theorem waiting_served (single : table.SingleFile) (chain : Served table served final)
    {owner : TransactionId} :
    final.Waiting owner ↔
      table.Waiting owner ∧ owner ∉ served.map fun request => request.lock.owner := by
  induction chain with
  | nobody => simp
  | front queued _ _ inductionHypothesis =>
      rw [inductionHypothesis (single.next queued), single.waiting_next queued, List.map_cons,
        List.mem_cons, not_or, and_assoc]

/-- Nobody is served twice. -/
theorem nodup_served (single : table.SingleFile) (chain : Served table served final) :
    (served.map fun request => request.lock.owner).Nodup := by
  induction chain with
  | nobody => exact .nil
  | @front table final name request rest served queued _ later inductionHypothesis =>
      rw [List.map_cons, List.nodup_cons]
      refine ⟨fun again => ?_, inductionHypothesis (single.next queued)⟩
      obtain ⟨second, member, owned⟩ := List.mem_map.mp again
      apply single.not_waiting_next queued
      rw [← owned]
      exact later.waiting_of_mem member

end

end SingleFile

end Table

end Granularity
