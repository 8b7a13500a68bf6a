import Granularity.Proofs.Contexts.Change
import Granularity.Proofs.Table.Waiting

/-!
Transactions that wait.

A transaction with a request in a queue makes no calls until the request is granted, so it has one
request at most and its modes stay as they were when the request was checked.  Both facts survive
every call of a transaction that does not wait, and so nobody's modes change by more than one
`Change` while a call is carried out, however many queues it serves.
-/

namespace Granularity

namespace Table

/-- Every transaction waits for one request at most, and what has been checked of a request still
holds while it waits. -/
structure Orderly (table : Table) : Prop where
  owners_nodup : ∀ name, ((table.queueOf name).map fun request => request.lock.owner).Nodup
  one_queue : ∀ name, ∀ request ∈ table.queueOf name, ∀ other, ∀ second ∈ table.queueOf other,
    request.lock.owner = second.lock.owner → name = other
  checked : ∀ name, ∀ request ∈ table.queueOf name,
    Checked (table.modeOf request.lock.owner) request

/-- From one table to a later one, nobody's modes change by more than one change, and those of a
transaction that does not wait do not change at all. -/
structure Passing (before after : Table) : Prop where
  changes : ∀ owner, Change (before.modeOf owner) (after.modeOf owner)
  free : ∀ owner, ¬before.Waiting owner →
    after.modeOf owner = before.modeOf owner ∧ ¬after.Waiting owner

variable {table : Table}

theorem Passing.refl (table : Table) : table.Passing table :=
  ⟨fun _ => .unchanged, fun _ idle => ⟨rfl, idle⟩⟩

namespace Orderly

theorem empty : Orderly Table.empty := by
  constructor <;> simp [queueOf]

theorem singleFile (orderly : table.Orderly) : table.SingleFile :=
  ⟨orderly.owners_nodup, orderly.one_queue⟩

/-- Fewer may wait, as long as whoever waits keeps its modes. -/
theorem of_sublist (orderly : table.Orderly) {after : Table}
    (fewer : ∀ name, (after.queueOf name).Sublist (table.queueOf name))
    (same : ∀ owner, after.Waiting owner → after.modeOf owner = table.modeOf owner) :
    after.Orderly where
  owners_nodup := (orderly.singleFile.of_sublist fewer).owners_nodup
  one_queue := (orderly.singleFile.of_sublist fewer).one_queue
  checked name request member := by
    rw [same _ ⟨name, request, member, rfl⟩]
    exact orderly.checked name request ((fewer name).subset member)

/-! ### Granting -/

section

variable {name : ResourceName} {request : Request} {rest : List Request}

theorem next (orderly : table.Orderly) (sound : table.Sound)
    (queued : table.queueOf name = request :: rest) :
    ((table.setQueue name rest).apply request).1.Orderly := by
  refine orderly.of_sublist (queueOf_next_sublist queued) fun owner waits => ?_
  rw [sound.modeOf_apply_front queued, if_neg]
  rintro rfl
  exact orderly.singleFile.not_waiting_next queued waits

end

theorem served {final : Table} {granted : List Request} (orderly : table.Orderly)
    (sound : table.Sound) (chain : Served table granted final) :
    final.Orderly ∧ table.Passing final := by
  induction chain with
  | nobody => exact ⟨orderly, .refl _⟩
  | @front table final name request rest granted queued room later inductionHypothesis =>
      obtain ⟨finalOrderly, passing⟩ := inductionHypothesis
        (orderly.next sound queued) (sound.apply_front queued room)
      have modes := sound.modeOf_apply_front queued
      have waits : table.Waiting request.lock.owner :=
        ⟨name, request, queued ▸ List.mem_cons_self, rfl⟩
      refine ⟨finalOrderly, ⟨fun owner => ?_, fun owner idle => ?_⟩⟩
      · by_cases served : owner = request.lock.owner
        · -- The one request of this transaction has been granted; nothing is granted to it later.
          subst served
          rw [(passing.free _ (orderly.singleFile.not_waiting_next queued)).1, modes, if_pos rfl]
          exact .granted (orderly.checked name request (queued ▸ List.mem_cons_self))
        · have change := passing.changes owner
          rw [modes, if_neg served] at change
          exact change
      · have apart : owner ≠ request.lock.owner := by
          rintro rfl
          exact idle waits
        have idleNext : ¬((table.setQueue name rest).apply request).1.Waiting owner :=
          fun waits => idle (waits.of_sublist (queueOf_next_sublist queued))
        obtain ⟨same, idleFinal⟩ := passing.free owner idleNext
        rw [modes, if_neg apart] at same
        exact ⟨same, idleFinal⟩

end Orderly

/-! ### Calls -/

/-- From one table to a later one, the caller's modes have changed by one change, nobody else's by
more than one, and those of a transaction that does not wait not at all. -/
structure CalledBy (owner : TransactionId) (before after : Table) : Prop where
  changes : ∀ other, Change (before.modeOf other) (after.modeOf other)
  others : ∀ other, other ≠ owner → ¬before.Waiting other →
    after.modeOf other = before.modeOf other ∧ ¬after.Waiting other

/-- A request that joins a queue changes no modes. -/
theorem calledBy_enqueue (table : Table) (request : Request) (side : QueueEnd) :
    table.CalledBy request.lock.owner (table.enqueue request side) where
  changes other := by
    rw [modeOf_enqueue]
    exact .unchanged
  others other notCaller idle := by
    rw [modeOf_enqueue, waiting_enqueue]
    exact ⟨rfl, fun either => either.elim notCaller idle⟩

variable {owner : TransactionId}

namespace Orderly

/-- A change of the caller's own modes, followed by service of some queues. -/
theorem change_drain (orderly : table.Orderly) (idle : ¬table.Waiting owner) {middle : Table}
    (sound : middle.Sound) (queues : ∀ name, middle.queueOf name = table.queueOf name)
    (others : ∀ other, other ≠ owner → middle.modeOf other = table.modeOf other)
    (own : Change (table.modeOf owner) (middle.modeOf owner)) (names : List ResourceName) :
    (middle.drain names).1.Orderly ∧ table.CalledBy owner (middle.drain names).1 ∧
      (middle.drain names).1.modeOf owner = middle.modeOf owner ∧
      ¬(middle.drain names).1.Waiting owner := by
  have middleOrderly : middle.Orderly := by
    refine orderly.of_sublist (fun name => queues name ▸ .refl _) fun other waits => ?_
    refine others other ?_
    rintro rfl
    exact idle ((waiting_congr queues other).mp waits)
  obtain ⟨finalOrderly, passing⟩ := middleOrderly.served sound (served_drain middle names)
  obtain ⟨ownFinal, idleFinal⟩ :=
    passing.free owner fun waits => idle ((waiting_congr queues owner).mp waits)
  refine ⟨finalOrderly, ⟨fun other => ?_, fun other apart otherIdle => ?_⟩, ownFinal, idleFinal⟩
  · by_cases same : other = owner
    · subst same
      rw [ownFinal]
      exact own
    · rw [← others other same]
      exact passing.changes other
  · rw [← others other apart]
    exact passing.free other fun waits => otherIdle ((waiting_congr queues other).mp waits)

/-- Giving up a lock with none beneath it, by a transaction that does not wait. -/
theorem release (orderly : table.Orderly) (sound : table.Sound) (idle : ¬table.Waiting owner)
    {name : ResourceName} {done : Section} (bare : Modes.Bare (table.modeOf owner) name)
    (passed : table.call owner (.release name) = .ok done) :
    done.table.Orderly ∧ table.CalledBy owner done.table ∧
      done.table.modeOf owner = Modes.drop (table.modeOf owner) name ∧
      ¬done.table.Waiting owner := by
  cases passes_call passed with
  | @released released lock fewer called removed left =>
      cases called
      have modes := sound.modeOf_remove removed
      have own : fewer.modeOf owner = Modes.drop (table.modeOf owner) name := by
        funext other
        rw [modes, Modes.drop]
        simp only [true_and, eq_comm]
      have others : ∀ other, other ≠ owner → fewer.modeOf other = table.modeOf other := by
        intro other apart
        funext otherName
        rw [modes, if_neg fun both => apart both.1.symm]
      have after := orderly.change_drain idle (sound.remove removed) (queueOf_remove removed)
        others (own ▸ .released bare) [name]
      rw [← left, own] at after
      exact after
  | granted poses => cases poses
  | parked poses => cases poses

/-- The new request of a transaction that did not wait joins a queue. -/
theorem enqueue (orderly : table.Orderly) {request : Request} (side : QueueEnd)
    (idle : ¬table.Waiting request.lock.owner)
    (checked : Checked (table.modeOf request.lock.owner) request) :
    (table.enqueue request side).Orderly where
  owners_nodup := (orderly.singleFile.enqueue side idle).owners_nodup
  one_queue := (orderly.singleFile.enqueue side idle).one_queue
  checked name second member := by
    rw [modeOf_enqueue]
    rcases mem_queueOf_enqueue.mp member with ⟨rfl, _⟩ | member
    · exact checked
    · exact orderly.checked name second member

/-- Every call that fits the modes of its caller, by a transaction that does not wait. -/
theorem call (orderly : table.Orderly) (sound : table.Sound) (idle : ¬table.Waiting owner)
    {call : Call} {done : Section} (fits : call.Fits table owner)
    (passed : table.call owner call = .ok done) :
    done.table.Orderly ∧ table.CalledBy owner done.table := by
  cases fits with
  | release bare =>
      obtain ⟨doneOrderly, calledBy, _⟩ := orderly.release sound idle bare passed
      exact ⟨doneOrderly, calledBy⟩
  | pose apart checked =>
      cases passes_call passed with
      | released called => exact absurd called (apart _)
      | @granted request side poses admits left =>
          have owned := poses.owner_eq
          have modes := sound.modeOf_apply (poses.coherent sound)
          have own : (table.apply request).1.modeOf owner =
              request.outcome (table.modeOf owner) := by
            rw [modes, if_pos owned.symm]
          have others : ∀ other, other ≠ owner →
              (table.apply request).1.modeOf other = table.modeOf other := by
            intro other apart
            rw [modes, if_neg (owned ▸ apart)]
          obtain ⟨doneOrderly, calledBy, _⟩ := orderly.change_drain idle
            (sound.apply poses.locked admits.1) (queueOf_apply request) others
            (own ▸ .granted (checked request side poses)) (table.freedBy request)
          rw [left]
          exact ⟨doneOrderly, calledBy⟩
      | @parked request side poses _ left =>
          have owned := poses.owner_eq
          subst owned
          rw [left]
          exact ⟨orderly.enqueue side idle (checked request side poses),
            table.calledBy_enqueue request side⟩

end Orderly

end Table

end Granularity
