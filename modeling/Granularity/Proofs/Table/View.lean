import Granularity.Proofs.Hierarchy
import Granularity.Proofs.KeyedList
import Granularity.Table.Call

/-!
What the primitives of the table do to its views.

A table is looked at through the entry of a resource, the list of a transaction, and the count
beneath a name.  `Table.grant`, `Table.remove`, `Table.setQueue` and `Table.enqueue` each have one
lemma for each view, and nothing after this module opens them.
-/

namespace Granularity

namespace Entry

/-- The lock that a transaction holds on the resource. -/
def lockOf? (entry : Entry) (owner : TransactionId) : Option Lock :=
  entry.granted.find? fun lock => lock.owner == owner

/-- The entry with a lock granted. -/
def withLock (entry : Entry) (lock : Lock) : Entry :=
  { entry with granted := place Lock.owner lock entry.granted }

/-- The entry with the lock of a transaction taken off. -/
def without (entry : Entry) (owner : TransactionId) : Entry :=
  { entry with granted := entry.granted.eraseP fun lock => lock.owner == owner }

@[simp] theorem queue_withLock (entry : Entry) (lock : Lock) :
    (entry.withLock lock).queue = entry.queue := rfl

@[simp] theorem queue_without (entry : Entry) (owner : TransactionId) :
    (entry.without owner).queue = entry.queue := rfl

theorem modeOf_eq (entry : Entry) (owner : TransactionId) :
    entry.modeOf owner = ((entry.lockOf? owner).map Lock.mode).getD .NL := by
  rw [modeOf, lockOf?]
  cases entry.granted.find? fun lock => lock.owner == owner <;> rfl

theorem modeOf_withLock (entry : Entry) (lock : Lock) (owner : TransactionId) :
    (entry.withLock lock).modeOf owner =
      if lock.owner = owner then lock.mode else entry.modeOf owner := by
  rw [modeOf_eq, lockOf?, withLock, find?_place Lock.owner]
  split
  · rfl
  · rw [modeOf_eq, lockOf?]

end Entry

namespace Table

variable (table : Table)

/-- The transaction holds a lock of this mode on the name. -/
def Grants (owner : TransactionId) (name : ResourceName) (mode : Mode) : Prop :=
  ⟨name, mode, owner⟩ ∈ (table.entry name).granted

theorem modeOf_eq_entry (owner : TransactionId) (name : ResourceName) :
    table.modeOf owner name = (table.entry name).modeOf owner := rfl

/-! ### The empty table -/

@[simp] theorem entry_empty (name : ResourceName) : empty.entry name = ⟨[], []⟩ := by
  rw [entry, empty, Sparse.get_empty]
  rfl

@[simp] theorem modeOf_empty (owner : TransactionId) (name : ResourceName) :
    empty.modeOf owner name = .NL := by
  rw [modeOf_eq_entry, entry_empty]
  rfl

@[simp] theorem locksOf_empty (owner : TransactionId) : empty.locksOf owner = [] := by
  rw [locksOf, empty, Sparse.get_empty]
  rfl

@[simp] theorem countBeneath_empty (upper : ResourceName) (owner : TransactionId) :
    empty.countBeneath upper owner = 0 := by
  rw [countBeneath, empty, Sparse.get_empty]
  rfl

/-! ### Granting -/

theorem entry_grant (lock : Lock) (name : ResourceName) :
    (table.grant lock).entry name =
      if lock.name = name then (table.entry name).withLock lock else table.entry name := by
  have placed : (table.grant lock).entries =
      table.entries.set lock.name ((table.entry lock.name).withLock lock) := by
    rw [grant, Entry.withLock, place]
    split <;> rfl
  rw [entry, placed, Sparse.get_set]
  split
  · next same => rw [same]
  · rfl

@[simp] theorem queueOf_grant (lock : Lock) (name : ResourceName) :
    (table.grant lock).queueOf name = table.queueOf name := by
  rw [queueOf, entry_grant]
  split
  · rfl
  · rfl

theorem modeOf_grant (lock : Lock) (owner : TransactionId) (name : ResourceName) :
    (table.grant lock).modeOf owner name =
      if lock.owner = owner ∧ lock.name = name then lock.mode else table.modeOf owner name := by
  rw [modeOf, entry_grant]
  by_cases sameName : lock.name = name
  · rw [if_pos sameName, Entry.modeOf_withLock]
    by_cases sameOwner : lock.owner = owner
    · rw [if_pos sameOwner, if_pos ⟨sameOwner, sameName⟩]
    · rw [if_neg sameOwner, if_neg (fun both => sameOwner both.1)]
      rfl
  · rw [if_neg sameName, if_neg (fun both => sameName both.2)]
    rfl

/-- A grant leaves the lists of the other transactions alone. -/
theorem locksOf_grant_other {lock : Lock} {owner : TransactionId} (apart : lock.owner ≠ owner) :
    (table.grant lock).locksOf owner = table.locksOf owner := by
  rw [locksOf, grant]
  split
  · exact (Sparse.get_update ..).trans (if_neg apart)
  · exact (Sparse.get_update ..).trans (if_neg apart)

/-- Where both views agree on whether the lock is held, a grant puts it in its place in the
owner's list too. -/
theorem locksOf_grant_self (lock : Lock)
    (agree : lock.owner ∈ (table.entry lock.name).granted.map Lock.owner ↔
      lock.name ∈ (table.locksOf lock.owner).map Lock.name) :
    (table.grant lock).locksOf lock.owner = place Lock.name lock (table.locksOf lock.owner) := by
  rw [place, locksOf, grant]
  by_cases held : lock.name ∈ (table.locksOf lock.owner).map Lock.name
  · rw [if_pos ((any_key Lock.owner).mpr (agree.mpr held)), if_pos ((any_key Lock.name).mpr held)]
    exact (Sparse.get_update ..).trans (if_pos rfl)
  · rw [if_neg (fun any => held (agree.mp ((any_key Lock.owner).mp any))),
      if_neg (fun any => held ((any_key Lock.name).mp any))]
    exact (Sparse.get_update ..).trans (if_pos rfl)

/-- The counts after one transaction's counts at some names have been changed. -/
theorem get_foldl_update (owner : TransactionId) (change : Nat → Nat) (slot : Slot) :
    ∀ (names : List ResourceName) (counts : Sparse Slot Nat), names.Nodup →
      (names.foldl (fun counts upper => counts.update ⟨upper, owner⟩ change) counts).get slot =
        if slot.owner = owner ∧ slot.upper ∈ names then change (counts.get slot)
        else counts.get slot
  | [], counts, _ => by simp
  | name :: names, counts, nodup => by
      rw [List.nodup_cons] at nodup
      rw [List.foldl_cons, get_foldl_update owner change slot names _ nodup.2, Sparse.get_update]
      obtain ⟨upper, other⟩ := slot
      by_cases sameOwner : other = owner
      · subst sameOwner
        by_cases sameName : upper = name
        · subst sameName
          simp [nodup.1]
        · simp [sameName, Ne.symm sameName]
      · simp [sameOwner, Ne.symm sameOwner]

/-- Recounting changes the counts of one transaction at the names above. -/
theorem get_recount (counts : Sparse Slot Nat) (name : ResourceName) (owner : TransactionId)
    (change : Nat → Nat) (upper : ResourceName) (other : TransactionId) :
    (recount counts name owner change).get ⟨upper, other⟩ =
      if other = owner ∧ name.isBeneath upper = true then change (counts.get ⟨upper, other⟩)
      else counts.get ⟨upper, other⟩ := by
  rw [recount, get_foldl_update owner change _ _ _ name.ancestors_nodup]
  simp only [ResourceName.mem_ancestors]

theorem countBeneath_grant (lock : Lock) (upper : ResourceName) (owner : TransactionId) :
    (table.grant lock).countBeneath upper owner =
      if lock.owner ∉ (table.entry lock.name).granted.map Lock.owner ∧
          owner = lock.owner ∧ lock.name.isBeneath upper = true then
        table.countBeneath upper owner + 1
      else table.countBeneath upper owner := by
  rw [countBeneath, grant]
  by_cases held : lock.owner ∈ (table.entry lock.name).granted.map Lock.owner
  · rw [if_pos ((any_key Lock.owner).mpr held), if_neg (fun all => all.1 held)]
    rfl
  · rw [if_neg (fun any => held ((any_key Lock.owner).mp any))]
    simp only [held, not_false_eq_true, true_and]
    exact get_recount ..

/-! ### Removing -/

variable {table}

section

variable {owner : TransactionId} {name : ResourceName} {lock : Lock} {fewer : Table}

/-- What a removal finds and what it leaves. -/
theorem remove_eq_some (removed : table.remove owner name = some (lock, fewer)) :
    (table.entry name).lockOf? owner = some lock ∧
      fewer.entries = table.entries.set name ((table.entry name).without owner) ∧
      fewer.holdings = table.holdings.update owner (List.filter fun held => held.name != name) ∧
      fewer.beneath = recount table.beneath name owner (· - 1) := by
  rw [remove] at removed
  cases found : (table.entry name).granted.find? fun held => held.owner == owner with
  | none => simp [found] at removed
  | some held =>
      simp only [found, Option.some.injEq, Prod.mk.injEq] at removed
      obtain ⟨rfl, rfl⟩ := removed
      exact ⟨found, rfl, rfl, rfl⟩

theorem remove_eq_none :
    table.remove owner name = none ↔ (table.entry name).lockOf? owner = none := by
  rw [remove, Entry.lockOf?]
  cases (table.entry name).granted.find? fun held => held.owner == owner <;> simp

theorem entry_remove (removed : table.remove owner name = some (lock, fewer))
    (other : ResourceName) :
    fewer.entry other =
      if name = other then (table.entry other).without owner else table.entry other := by
  rw [entry, (remove_eq_some removed).2.1, Sparse.get_set]
  split
  · next same => rw [same]
  · rfl

theorem queueOf_remove (removed : table.remove owner name = some (lock, fewer))
    (other : ResourceName) : fewer.queueOf other = table.queueOf other := by
  rw [queueOf, entry_remove removed]
  split
  · rfl
  · rfl

theorem locksOf_remove (removed : table.remove owner name = some (lock, fewer))
    (other : TransactionId) :
    fewer.locksOf other =
      if owner = other then (table.locksOf other).filter fun held => held.name != name
      else table.locksOf other := by
  rw [locksOf, (remove_eq_some removed).2.2.1, Sparse.get_update]
  rfl

theorem countBeneath_remove (removed : table.remove owner name = some (lock, fewer))
    (upper : ResourceName) (other : TransactionId) :
    fewer.countBeneath upper other =
      if other = owner ∧ name.isBeneath upper = true then table.countBeneath upper other - 1
      else table.countBeneath upper other := by
  rw [countBeneath, (remove_eq_some removed).2.2.2, get_recount]
  rfl

end

/-! ### Queues -/

variable (table)

theorem entry_setQueue (name other : ResourceName) (queue : List Request) :
    (table.setQueue name queue).entry other =
      if name = other then { table.entry other with queue := queue } else table.entry other := by
  rw [entry, setQueue, Sparse.get_update]
  rfl

theorem granted_setQueue (name other : ResourceName) (queue : List Request) :
    ((table.setQueue name queue).entry other).granted = (table.entry other).granted := by
  rw [entry_setQueue]
  split
  · rfl
  · rfl

theorem queueOf_setQueue (name other : ResourceName) (queue : List Request) :
    (table.setQueue name queue).queueOf other =
      if name = other then queue else table.queueOf other := by
  rw [queueOf, entry_setQueue]
  split
  · rfl
  · rfl

@[simp] theorem modeOf_setQueue (name other : ResourceName) (queue : List Request)
    (owner : TransactionId) :
    (table.setQueue name queue).modeOf owner other = table.modeOf owner other := by
  rw [modeOf, modeOf, Entry.modeOf, granted_setQueue]
  rfl

@[simp] theorem locksOf_setQueue (name : ResourceName) (queue : List Request)
    (owner : TransactionId) :
    (table.setQueue name queue).locksOf owner = table.locksOf owner := rfl

@[simp] theorem countBeneath_setQueue (name : ResourceName) (queue : List Request)
    (upper : ResourceName) (owner : TransactionId) :
    (table.setQueue name queue).countBeneath upper owner = table.countBeneath upper owner := rfl

/-- The queue of a resource with a request put at one of its ends. -/
def queueWith (request : Request) : QueueEnd → List Request → List Request
  | .front, queue => request :: queue
  | .back, queue => queue ++ [request]

theorem mem_queueWith {request other : Request} {side : QueueEnd} {queue : List Request} :
    other ∈ queueWith request side queue ↔ other = request ∨ other ∈ queue := by
  cases side with
  | front => exact List.mem_cons
  | back =>
      rw [queueWith, List.mem_append, List.mem_singleton]
      exact or_comm

theorem queueWith_perm (request : Request) (side : QueueEnd) (queue : List Request) :
    (queueWith request side queue).Perm (request :: queue) := by
  cases side with
  | front => exact .refl _
  | back => exact List.perm_append_singleton request queue

theorem enqueue_eq (request : Request) (side : QueueEnd) :
    table.enqueue request side =
      table.setQueue request.lock.name
        (queueWith request side (table.queueOf request.lock.name)) := by
  cases side <;> rfl

/-- Putting a request in a queue adds it to those that wait for its name. -/
theorem mem_queueOf_enqueue {table : Table} {request other : Request} {side : QueueEnd}
    {name : ResourceName} :
    other ∈ (table.enqueue request side).queueOf name ↔
      other = request ∧ name = request.lock.name ∨ other ∈ table.queueOf name := by
  rw [enqueue_eq, queueOf_setQueue]
  by_cases same : request.lock.name = name
  · subst same
    simp [mem_queueWith]
  · simp [same, Ne.symm same]

@[simp] theorem modeOf_enqueue (request : Request) (side : QueueEnd) (owner : TransactionId) :
    (table.enqueue request side).modeOf owner = table.modeOf owner := by
  rw [enqueue_eq]
  exact funext fun name => modeOf_setQueue ..

end Table

end Granularity
