import Granularity.Proofs.Calls
import Granularity.Table.Snapshot

/-!
What the lists of a table show to its readers.

The granted locks stand in two lists, one for each resource and one for each transaction, and a
snapshot copies both.  In every state that calls reach, the two agree lock by lock.  So a snapshot
lists just the resources on which somebody holds or waits for a lock, each once and in ascending
order, and its second part is the first one regrouped by owner.
-/

namespace Granularity

/-- A snapshot that shows a table as it is.  Its resources ascend strictly, and each of them is
shown just as the table has it; its transactions are the owners of the locks it shows, each with the
locks of its own. -/
structure Snapshot.Shows (snapshot : Snapshot) (table : Table) : Prop where
  ascending : (snapshot.resources.map ResourceSnapshot.name).Pairwise
    fun lower higher => compare lower higher = .lt
  mem_resources : ∀ resource, resource ∈ snapshot.resources ↔
    (resource.granted ≠ [] ∨ resource.waiting ≠ []) ∧
      resource.granted = (table.entry resource.name).granted ∧
      resource.waiting = (table.queueOf resource.name).map Request.lock
  recorded : ∀ owner : TransactionId, snapshot.transactions[owner]? ≠ some []
  regrouped : ∀ owner : TransactionId, (snapshot.transactions[owner]?.getD []).Perm
    ((snapshot.resources.flatMap ResourceSnapshot.granted).filter fun lock => lock.owner == owner)

namespace Table

variable {table : Table}

/-! ### The resources of a snapshot -/

theorem names_snapshot (table : Table) :
    table.snapshot.resources.map ResourceSnapshot.name = table.entries.toList.map Prod.fst := by
  rw [snapshot, List.map_map]
  rfl

theorem ascending_snapshot (table : Table) :
    (table.snapshot.resources.map ResourceSnapshot.name).Pairwise
      fun lower higher => compare lower higher = .lt := by
  rw [names_snapshot, List.pairwise_map]
  exact Std.ExtTreeMap.ordered_keys_toList

/-- An entry is stored as soon as somebody holds or waits for a lock. -/
theorem entry_ne_default {entry : Entry} :
    entry ≠ default ↔ entry.granted ≠ [] ∨ entry.queue.map Request.lock ≠ [] := by
  obtain ⟨granted, queue⟩ := entry
  have fresh : (default : Entry) = ⟨[], []⟩ := rfl
  rw [fresh, ne_eq, Entry.mk.injEq, not_and_or, ne_eq, ne_eq, List.map_eq_nil_iff]

theorem mem_resources_snapshot (table : Table) (resource : ResourceSnapshot) :
    resource ∈ table.snapshot.resources ↔
      (resource.granted ≠ [] ∨ resource.waiting ≠ []) ∧
        resource.granted = (table.entry resource.name).granted ∧
        resource.waiting = (table.queueOf resource.name).map Request.lock := by
  rw [snapshot, List.mem_map]
  constructor
  · rintro ⟨⟨name, entry⟩, stored, rfl⟩
    obtain ⟨found, kept⟩ := Sparse.mem_toList.mp stored
    have same : table.entry name = entry := found
    refine ⟨entry_ne_default.mp kept, ?_, ?_⟩
    · rw [same]
    · rw [queueOf, same]
  · rintro ⟨used, granted, waiting⟩
    have shown : (⟨resource.name, (table.entry resource.name).granted,
        (table.queueOf resource.name).map Request.lock⟩ : ResourceSnapshot) = resource := by
      rw [← granted, ← waiting]
    rw [granted, waiting] at used
    exact ⟨(resource.name, table.entry resource.name),
      Sparse.mem_toList.mpr ⟨rfl, entry_ne_default.mpr used⟩, shown⟩

/-! ### The transactions of a snapshot -/

theorem locksOf_eq_stored (table : Table) (owner : TransactionId) :
    table.snapshot.transactions[owner]?.getD [] = table.locksOf owner := rfl

namespace Sound

variable (sound : table.Sound)
include sound

/-- A transaction has a lock on a name in its own list just when the resource has one of it. -/
theorem exists_mem_locksOf_iff (owner : TransactionId) (name : ResourceName) (mode : Mode) :
    (∃ lock ∈ table.locksOf owner, lock.name = name ∧ lock.mode = mode) ↔
      ∃ lock ∈ (table.entry name).granted, lock.owner = owner ∧ lock.mode = mode := by
  constructor
  · rintro ⟨lock, member, rfl, moded⟩
    obtain ⟨granted, owned⟩ := (sound.mirrored.mem_iff owner lock).mp member
    exact ⟨lock, granted, owned, moded⟩
  · rintro ⟨lock, granted, owned, moded⟩
    have named : lock.name = name := (sound.entries name).granted_named lock granted
    subst named
    exact ⟨lock, (sound.mirrored.mem_iff owner lock).mpr ⟨granted, owned⟩, rfl, moded⟩

/-- A transaction's own list gives the lock of just the mode that the resource gives. -/
theorem lockOf?_eq (owner : TransactionId) (name : ResourceName) :
    table.lockOf? owner name =
      if table.modeOf owner name = .NL then none
      else some ⟨name, table.modeOf owner name, owner⟩ := by
  cases found : table.lockOf? owner name with
  | some lock =>
      obtain ⟨member, rfl⟩ := sound.lockOf?_eq_some.mp found
      obtain ⟨rfl, locked, held⟩ := sound.mem_locksOf_iff.mp member
      rw [held, if_neg locked]
  | none =>
      have absent : name ∉ (table.locksOf owner).map Lock.name :=
        (find?_key_eq_none Lock.name).mp found
      rw [← sound.modeOf_ne_NL_iff, ne_eq, not_not] at absent
      rw [if_pos absent]

/-- No lock is shown twice: those of one resource have different owners, and those of two resources
have different names. -/
theorem nodup_granted_snapshot :
    (table.snapshot.resources.flatMap ResourceSnapshot.granted).Nodup := by
  have shown (resource : ResourceSnapshot) (member : resource ∈ table.snapshot.resources) :
      resource.granted = (table.entry resource.name).granted :=
    ((table.mem_resources_snapshot resource).mp member).2.1
  rw [List.nodup_flatMap]
  constructor
  · intro resource member
    rw [shown resource member]
    exact (sound.entries resource.name).owners_nodup.of_map Lock.owner
  · have ascending := table.ascending_snapshot
    rw [List.pairwise_map] at ascending
    refine ascending.imp_of_mem fun {lower higher} lowerMember higherMember ordered => ?_
    intro lock lowerLock higherLock
    rw [shown lower lowerMember] at lowerLock
    rw [shown higher higherMember] at higherLock
    have same : lower.name = higher.name :=
      ((sound.entries _).granted_named lock lowerLock).symm.trans
        ((sound.entries _).granted_named lock higherLock)
    have equal : compare lower.name higher.name = .eq := same ▸ Std.ReflCmp.compare_self
    cases ordered.symm.trans equal

theorem mem_granted_snapshot (lock : Lock) :
    lock ∈ table.snapshot.resources.flatMap ResourceSnapshot.granted ↔
      lock ∈ (table.entry lock.name).granted := by
  rw [List.mem_flatMap]
  constructor
  · rintro ⟨resource, member, granted⟩
    rw [((table.mem_resources_snapshot resource).mp member).2.1] at granted
    have named : lock.name = resource.name :=
      (sound.entries resource.name).granted_named lock granted
    rw [named]
    exact granted
  · intro granted
    let resource : ResourceSnapshot :=
      ⟨lock.name, (table.entry lock.name).granted, (table.queueOf lock.name).map Request.lock⟩
    have used : resource.granted ≠ [] := List.ne_nil_of_mem granted
    exact ⟨resource, (table.mem_resources_snapshot resource).mpr ⟨Or.inl used, rfl, rfl⟩, granted⟩

theorem snapshot_shows : table.snapshot.Shows table where
  ascending := table.ascending_snapshot
  mem_resources := table.mem_resources_snapshot
  recorded := table.holdings.nowhere_default
  regrouped := by
    intro owner
    rw [locksOf_eq_stored, List.perm_ext_iff_of_nodup (sound.nodup_locksOf owner)
      (sound.nodup_granted_snapshot.filter _)]
    intro lock
    rw [List.mem_filter, sound.mem_granted_snapshot, sound.mirrored.mem_iff, beq_iff_eq]

end Sound

end Table

namespace System

/-- In every state that calls reach, the lists of the transactions mirror the granted lists: a
transaction's own list has a lock on a name with a mode just when the resource has one of it, it has
one lock at most on each name, no empty list is kept, and a lock is found in either by the other.
So snapshots are exact. -/
theorem views_mirror_afterCalls (config : Config)
    (handles : Std.ExtTreeMap TransactionId Handle) (calls : List (TransactionId × Call)) :
    let table := ((opened config handles).afterCalls calls).store.table
    (∀ owner name mode,
      (∃ lock ∈ table.locksOf owner, lock.name = name ∧ lock.mode = mode) ↔
        ∃ lock ∈ (table.entry name).granted, lock.owner = owner ∧ lock.mode = mode) ∧
    (∀ owner, ((table.locksOf owner).map Lock.name).Nodup) ∧
    (∀ owner : TransactionId, table.holdings.stored[owner]? ≠ some []) ∧
    (∀ owner name, table.lockOf? owner name =
      if table.modeOf owner name = .NL then none
      else some ⟨name, table.modeOf owner name, owner⟩) ∧
    table.snapshot.Shows table := by
  intro table
  have sound : table.Sound := sound_afterCalls config handles calls
  exact ⟨sound.exists_mem_locksOf_iff, sound.mirrored.names_nodup, table.holdings.nowhere_default,
    sound.lockOf?_eq, sound.snapshot_shows⟩

end System

end Granularity
