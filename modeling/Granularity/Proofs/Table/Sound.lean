import Granularity.Proofs.Table.View
import Mathlib.Data.List.Nodup

/-!
The invariants of the lock table.

Four closure properties are kept apart, each with a lemma for every primitive: the entry of each
resource is free of conflicts, the queued requests belong to the transactions that wait for them,
the list of each transaction mirrors the granted lists, and the counts beneath the names are exact.
`Table.Sound` is their conjunction.
-/

namespace Granularity

namespace Entry

/-- Room for a mode means that no lock of another transaction is in its way. -/
theorem hasRoomFor_iff {entry : Entry} {mode : Mode} {owner : TransactionId} :
    entry.hasRoomFor mode owner = true ↔
      ∀ lock ∈ entry.granted, lock.owner ≠ owner → Mode.compatible mode lock.mode = true := by
  simp only [hasRoomFor, List.all_eq_true, Bool.or_eq_true, beq_iff_eq]
  constructor
  · intro room lock member apart
    exact (room lock member).resolve_left apart
  · intro room lock member
    by_cases same : lock.owner = owner
    · exact Or.inl same
    · exact Or.inr (room lock member same)

/-- The locks and requests at a resource: one granted lock for each owner, none of mode `NL`, all
on the resource's own name, and no conflict between different owners. -/
structure Sound (entry : Entry) (name : ResourceName) : Prop where
  owners_nodup : (entry.granted.map Lock.owner).Nodup
  granted_locked : ∀ lock ∈ entry.granted, lock.mode ≠ .NL
  granted_named : ∀ lock ∈ entry.granted, lock.name = name
  queued_locked : ∀ request ∈ entry.queue, request.lock.mode ≠ .NL
  queued_named : ∀ request ∈ entry.queue, request.lock.name = name
  compatible : ∀ first ∈ entry.granted, ∀ second ∈ entry.granted, first.owner ≠ second.owner →
    Mode.compatible first.mode second.mode = true

namespace Sound

variable {entry : Entry} {name : ResourceName}

theorem empty (name : ResourceName) : Sound ⟨[], []⟩ name := by
  constructor <;> simp

/-- A lock can be granted where there is room for it; the owner's old lock does not count. -/
theorem withLock (sound : entry.Sound name) {lock : Lock} (named : lock.name = name)
    (locked : lock.mode ≠ .NL) (room : entry.hasRoomFor lock.mode lock.owner = true) :
    (entry.withLock lock).Sound name where
  owners_nodup := nodup_place Lock.owner sound.owners_nodup lock
  granted_locked := by
    intro held member
    rcases (mem_place Lock.owner sound.owners_nodup).mp member with rfl | ⟨member, _⟩
    · exact locked
    · exact sound.granted_locked held member
  granted_named := by
    intro held member
    rcases (mem_place Lock.owner sound.owners_nodup).mp member with rfl | ⟨member, _⟩
    · exact named
    · exact sound.granted_named held member
  queued_locked := sound.queued_locked
  queued_named := sound.queued_named
  compatible := by
    intro first firstMember second secondMember apart
    have free := hasRoomFor_iff.mp room
    rcases (mem_place Lock.owner sound.owners_nodup).mp firstMember with
      rfl | ⟨firstOld, firstApart⟩
    · rcases (mem_place Lock.owner sound.owners_nodup).mp secondMember with
        rfl | ⟨secondOld, secondApart⟩
      · exact absurd rfl apart
      · exact free second secondOld secondApart
    · rcases (mem_place Lock.owner sound.owners_nodup).mp secondMember with
        rfl | ⟨secondOld, secondApart⟩
      · rw [Mode.compatible_comm]
        exact free first firstOld firstApart
      · exact sound.compatible first firstOld second secondOld apart

theorem mem_without (sound : entry.Sound name) {owner : TransactionId} {lock : Lock} :
    lock ∈ (entry.without owner).granted ↔ lock ∈ entry.granted ∧ lock.owner ≠ owner := by
  rw [without, eraseP_eq_filter Lock.owner sound.owners_nodup, List.mem_filter]
  simp

theorem without (sound : entry.Sound name) (owner : TransactionId) :
    (entry.without owner).Sound name where
  owners_nodup := sound.owners_nodup.sublist ((List.eraseP_sublist).map Lock.owner)
  granted_locked := fun held member => sound.granted_locked held (sound.mem_without.mp member).1
  granted_named := fun held member => sound.granted_named held (sound.mem_without.mp member).1
  queued_locked := sound.queued_locked
  queued_named := sound.queued_named
  compatible := fun first firstMember second secondMember =>
    sound.compatible first (sound.mem_without.mp firstMember).1
      second (sound.mem_without.mp secondMember).1

theorem withQueue (sound : entry.Sound name) {queue : List Request}
    (asked : ∀ request ∈ queue, request.lock.mode ≠ .NL ∧ request.lock.name = name) :
    Sound { entry with queue := queue } name where
  owners_nodup := sound.owners_nodup
  granted_locked := sound.granted_locked
  granted_named := sound.granted_named
  queued_locked := fun request member => (asked request member).1
  queued_named := fun request member => (asked request member).2
  compatible := sound.compatible

theorem lockOf?_eq_some (sound : entry.Sound name) {owner : TransactionId} {lock : Lock} :
    entry.lockOf? owner = some lock ↔ lock ∈ entry.granted ∧ lock.owner = owner :=
  find?_eq_some_of_nodup Lock.owner sound.owners_nodup

/-- A transaction is in a mode other than `NL` just when it has a lock of this mode. -/
theorem modeOf_eq_iff (sound : entry.Sound name) {owner : TransactionId} {mode : Mode}
    (locked : mode ≠ .NL) :
    entry.modeOf owner = mode ↔ ⟨name, mode, owner⟩ ∈ entry.granted := by
  rw [modeOf_eq]
  constructor
  · intro same
    cases found : entry.lockOf? owner with
    | none => exact absurd (by simpa [found] using same.symm) locked
    | some lock =>
        obtain ⟨member, owned⟩ := sound.lockOf?_eq_some.mp found
        have held : lock.mode = mode := by simpa [found] using same
        have named := sound.granted_named lock member
        obtain ⟨lockName, lockMode, lockOwner⟩ := lock
        subst named held owned
        exact member
  · intro member
    rw [sound.lockOf?_eq_some.mpr ⟨member, rfl⟩]
    rfl

theorem modeOf_eq_NL_iff (sound : entry.Sound name) {owner : TransactionId} :
    entry.modeOf owner = .NL ↔ owner ∉ entry.granted.map Lock.owner := by
  rw [← find?_key_eq_none Lock.owner, modeOf_eq]
  cases found : entry.lockOf? owner with
  | none => simpa [lockOf?] using found
  | some lock =>
      have locked := sound.granted_locked lock (sound.lockOf?_eq_some.mp found).1
      rw [lockOf?] at found
      simp [found, locked]

theorem modeOf_without (sound : entry.Sound name) (owner other : TransactionId) :
    (entry.without owner).modeOf other =
      if owner = other then .NL else entry.modeOf other := by
  rw [modeOf_eq, lockOf?, Entry.without, eraseP_eq_filter Lock.owner sound.owners_nodup,
    find?_filter_key Lock.owner]
  split
  · rfl
  · rw [modeOf_eq, lockOf?]

end Sound

end Entry

/-- A request made by the transaction that waits for it, giving up locks of its own. -/
structure Request.Coherent (request : Request) : Prop where
  waiter_eq : request.waiter = request.lock.owner
  released_owner : ∀ released ∈ request.released, released.owner = request.lock.owner

namespace Table

variable {table : Table}

/-! ### The two lists of granted locks -/

/-- The list of a transaction holds its granted locks, one for each name. -/
structure Mirrored (table : Table) : Prop where
  names_nodup : ∀ owner, ((table.locksOf owner).map Lock.name).Nodup
  mem_iff : ∀ owner lock,
    lock ∈ table.locksOf owner ↔ lock ∈ (table.entry lock.name).granted ∧ lock.owner = owner

/-- A lock stands in both views or in neither. -/
theorem Mirrored.held_iff (mirrored : table.Mirrored)
    (named : ∀ name, ∀ lock ∈ (table.entry name).granted, lock.name = name)
    (owner : TransactionId) (name : ResourceName) :
    owner ∈ (table.entry name).granted.map Lock.owner ↔
      name ∈ (table.locksOf owner).map Lock.name := by
  simp only [List.mem_map]
  constructor
  · rintro ⟨lock, member, rfl⟩
    have same := named name lock member
    subst same
    exact ⟨lock, (mirrored.mem_iff _ lock).mpr ⟨member, rfl⟩, rfl⟩
  · rintro ⟨lock, member, rfl⟩
    obtain ⟨granted, rfl⟩ := (mirrored.mem_iff _ lock).mp member
    exact ⟨lock, granted, rfl⟩

/-! ### Counts -/

/-- Every count is the number of locks that the transaction holds beneath the name. -/
def Counted (table : Table) : Prop :=
  ∀ upper owner, table.countBeneath upper owner =
    ((table.locksOf owner).map Lock.name).countP fun name => name.isBeneath upper

/-! ### All together -/

/-- What holds of every table that calls have made. -/
structure Sound (table : Table) : Prop where
  entries : ∀ name, (table.entry name).Sound name
  coherent : ∀ name, ∀ request ∈ table.queueOf name, request.Coherent
  mirrored : table.Mirrored
  counted : table.Counted

namespace Sound

theorem empty : Sound Table.empty where
  entries := by
    intro name
    rw [entry_empty]
    exact .empty name
  coherent := by simp [queueOf]
  mirrored := ⟨by simp, by simp⟩
  counted := by simp [Counted]

variable (sound : table.Sound)
include sound

theorem grants_iff {owner : TransactionId} {name : ResourceName} {mode : Mode}
    (locked : mode ≠ .NL) : table.Grants owner name mode ↔ table.modeOf owner name = mode :=
  ((sound.entries name).modeOf_eq_iff locked).symm

theorem nodup_locksOf (owner : TransactionId) : (table.locksOf owner).Nodup :=
  (sound.mirrored.names_nodup owner).of_map Lock.name

/-- A transaction's own list and the granted lists give the same lock. -/
theorem mem_locksOf_iff {owner : TransactionId} {lock : Lock} :
    lock ∈ table.locksOf owner ↔
      lock.owner = owner ∧ lock.mode ≠ .NL ∧ table.modeOf owner lock.name = lock.mode := by
  rw [sound.mirrored.mem_iff]
  constructor
  · rintro ⟨member, rfl⟩
    have locked := (sound.entries lock.name).granted_locked lock member
    exact ⟨rfl, locked, (sound.grants_iff locked).mp member⟩
  · rintro ⟨rfl, locked, held⟩
    exact ⟨(sound.grants_iff locked).mpr held, rfl⟩

theorem held_iff (owner : TransactionId) (name : ResourceName) :
    owner ∈ (table.entry name).granted.map Lock.owner ↔
      name ∈ (table.locksOf owner).map Lock.name :=
  sound.mirrored.held_iff (fun other => (sound.entries other).granted_named) owner name

/-- A transaction holds a mode on just the names in its own list. -/
theorem modeOf_ne_NL_iff {owner : TransactionId} {name : ResourceName} :
    table.modeOf owner name ≠ .NL ↔ name ∈ (table.locksOf owner).map Lock.name := by
  rw [← sound.held_iff, ne_eq, modeOf_eq_entry, (sound.entries name).modeOf_eq_NL_iff, not_not]

theorem lockOf?_eq_some {owner : TransactionId} {name : ResourceName} {lock : Lock} :
    table.lockOf? owner name = some lock ↔ lock ∈ table.locksOf owner ∧ lock.name = name :=
  find?_eq_some_of_nodup Lock.name (sound.mirrored.names_nodup owner)

/-! ### Granting a lock -/

/-- The owner's list has the name of the lock afterwards, once. -/
theorem names_locksOf_grant (lock : Lock) (owner : TransactionId) :
    ((table.grant lock).locksOf owner).map Lock.name =
      if lock.owner = owner ∧ lock.name ∉ (table.locksOf owner).map Lock.name then
        (table.locksOf owner).map Lock.name ++ [lock.name]
      else (table.locksOf owner).map Lock.name := by
  by_cases same : lock.owner = owner
  · subst same
    rw [table.locksOf_grant_self lock (sound.held_iff ..), map_place]
    by_cases held : lock.name ∈ (table.locksOf lock.owner).map Lock.name
    · rw [if_pos held, if_neg (fun both => both.2 held)]
    · rw [if_neg held, if_pos ⟨rfl, held⟩]
  · rw [table.locksOf_grant_other same, if_neg (fun both => same both.1)]

/-- What the granted list of a resource holds afterwards. -/
theorem mem_granted_grant (lock other : Lock) :
    other ∈ ((table.grant lock).entry other.name).granted ↔
      if lock.name = other.name then
        other = lock ∨ other ∈ (table.entry other.name).granted ∧ other.owner ≠ lock.owner
      else other ∈ (table.entry other.name).granted := by
  rw [entry_grant]
  split
  · exact mem_place Lock.owner (sound.entries other.name).owners_nodup
  · exact Iff.rfl

/-- The lock is placed in both lists, or replaced in both. -/
theorem mirrored_grant (lock : Lock) : (table.grant lock).Mirrored where
  names_nodup := by
    intro owner
    by_cases same : lock.owner = owner
    · subst same
      rw [table.locksOf_grant_self lock (sound.held_iff ..)]
      exact nodup_place Lock.name (sound.mirrored.names_nodup _) lock
    · rw [table.locksOf_grant_other same]
      exact sound.mirrored.names_nodup owner
  mem_iff := by
    intro owner other
    rw [sound.mem_granted_grant]
    by_cases same : lock.owner = owner
    · subst same
      rw [table.locksOf_grant_self lock (sound.held_iff ..),
        mem_place Lock.name (sound.mirrored.names_nodup _), sound.mirrored.mem_iff]
      split
      · next sameName =>
          constructor
          · rintro (rfl | ⟨_, apart⟩)
            · exact ⟨Or.inl rfl, rfl⟩
            · exact absurd sameName.symm apart
          · rintro ⟨rfl | ⟨_, apart⟩, owned⟩
            · exact Or.inl rfl
            · exact absurd owned apart
      · next apart =>
          constructor
          · rintro (rfl | ⟨both, _⟩)
            · exact absurd rfl apart
            · exact both
          · exact fun both => Or.inr ⟨both, fun equal => apart equal.symm⟩
    · rw [table.locksOf_grant_other same, sound.mirrored.mem_iff]
      split
      · constructor
        · rintro ⟨member, owned⟩
          exact ⟨Or.inr ⟨member, fun equal => same (equal.symm.trans owned)⟩, owned⟩
        · rintro ⟨rfl | ⟨member, _⟩, owned⟩
          · exact absurd owned same
          · exact ⟨member, owned⟩
      · exact Iff.rfl

/-- The counts go up just where the owner's list gets a new name. -/
theorem counted_grant (lock : Lock) : (table.grant lock).Counted := by
  intro upper owner
  rw [countBeneath_grant, sound.names_locksOf_grant, sound.counted]
  by_cases same : lock.owner = owner
  · subst same
    by_cases held : lock.name ∈ (table.locksOf lock.owner).map Lock.name
    · rw [if_neg (fun all => all.1 ((sound.held_iff ..).mpr held)),
        if_neg (fun both => both.2 held)]
    · have absent : lock.owner ∉ (table.entry lock.name).granted.map Lock.owner :=
        fun present => held ((sound.held_iff ..).mp present)
      by_cases beneath : lock.name.isBeneath upper = true
      · simp [absent, held, beneath]
      · simp [held, beneath]
  · rw [if_neg (fun all => same all.2.1.symm), if_neg (fun both => same both.1)]

/-- Granting a lock for which there is room. -/
theorem grant {lock : Lock} (locked : lock.mode ≠ .NL)
    (room : (table.entry lock.name).hasRoomFor lock.mode lock.owner = true) :
    (table.grant lock).Sound where
  entries := by
    intro name
    rw [entry_grant]
    split
    · next same =>
        subst same
        exact (sound.entries lock.name).withLock rfl locked room
    · exact sound.entries name
  coherent := by
    intro name request member
    rw [queueOf_grant] at member
    exact sound.coherent name request member
  mirrored := sound.mirrored_grant lock
  counted := sound.counted_grant lock

/-! ### Taking a lock off -/

section Removed

variable {owner : TransactionId} {name : ResourceName} {lock : Lock} {fewer : Table}
variable (removed : table.remove owner name = some (lock, fewer))
include removed

theorem names_locksOf_remove (other : TransactionId) :
    (fewer.locksOf other).map Lock.name =
      if owner = other then ((table.locksOf other).map Lock.name).erase name
      else (table.locksOf other).map Lock.name := by
  rw [locksOf_remove removed]
  split
  · rw [(sound.mirrored.names_nodup other).erase_eq_filter, List.filter_map]
    rfl
  · rfl

theorem mem_granted_remove (held : Lock) :
    held ∈ (fewer.entry held.name).granted ↔
      held ∈ (table.entry held.name).granted ∧ ¬(name = held.name ∧ held.owner = owner) := by
  rw [entry_remove removed]
  split
  · next same => simp [(sound.entries held.name).mem_without, same]
  · next apart => simp [apart]

/-- The lock goes from both lists. -/
theorem mirrored_remove : fewer.Mirrored where
  names_nodup := by
    intro other
    rw [sound.names_locksOf_remove removed]
    split
    · exact (sound.mirrored.names_nodup other).erase name
    · exact sound.mirrored.names_nodup other
  mem_iff := by
    intro other held
    rw [sound.mem_granted_remove removed, locksOf_remove removed]
    split
    · next same =>
        subst same
        rw [List.mem_filter, sound.mirrored.mem_iff, bne_iff_ne]
        constructor
        · rintro ⟨⟨member, owned⟩, apart⟩
          exact ⟨⟨member, fun both => apart both.1.symm⟩, owned⟩
        · rintro ⟨⟨member, apart⟩, owned⟩
          exact ⟨⟨member, owned⟩, fun same => apart ⟨same.symm, owned⟩⟩
    · next apart =>
        rw [sound.mirrored.mem_iff]
        constructor
        · rintro ⟨member, owned⟩
          exact ⟨⟨member, fun both => apart (both.2.symm.trans owned)⟩, owned⟩
        · rintro ⟨⟨member, _⟩, owned⟩
          exact ⟨member, owned⟩

/-- The counts go down just where the owner's list loses the name. -/
theorem counted_remove : fewer.Counted := by
  intro upper other
  have held : name ∈ (table.locksOf owner).map Lock.name := by
    obtain ⟨member, owned⟩ := (sound.entries name).lockOf?_eq_some.mp (remove_eq_some removed).1
    exact (sound.held_iff owner name).mp (List.mem_map.mpr ⟨lock, member, owned⟩)
  rw [countBeneath_remove removed, sound.names_locksOf_remove removed, sound.counted]
  by_cases same : owner = other
  · subst same
    rw [if_pos rfl, (List.perm_cons_erase held).countP_eq, List.countP_cons]
    by_cases beneath : name.isBeneath upper = true
    · simp [beneath]
    · simp [beneath]
  · rw [if_neg (fun both => same both.1.symm), if_neg same]

theorem remove : fewer.Sound where
  entries := by
    intro other
    rw [entry_remove removed]
    split
    · exact (sound.entries other).without owner
    · exact sound.entries other
  coherent := by
    intro other request member
    rw [queueOf_remove removed] at member
    exact sound.coherent other request member
  mirrored := sound.mirrored_remove removed
  counted := sound.counted_remove removed

theorem modeOf_remove (other : TransactionId) (otherName : ResourceName) :
    fewer.modeOf other otherName =
      if owner = other ∧ name = otherName then .NL else table.modeOf other otherName := by
  rw [modeOf_eq_entry, entry_remove removed]
  by_cases sameName : name = otherName
  · rw [if_pos sameName, (sound.entries otherName).modeOf_without]
    by_cases sameOwner : owner = other
    · rw [if_pos sameOwner, if_pos ⟨sameOwner, sameName⟩]
    · rw [if_neg sameOwner, if_neg (fun both => sameOwner both.1)]
      rfl
  · rw [if_neg sameName, if_neg (fun both => sameName both.2)]
    rfl

end Removed

/-! ### Changing a queue -/

/-- Changing a queue to other requests for the same resource. -/
theorem setQueue {name : ResourceName} {queue : List Request}
    (asked : ∀ request ∈ queue,
      request.lock.mode ≠ .NL ∧ request.lock.name = name ∧ request.Coherent) :
    (table.setQueue name queue).Sound := by
  constructor
  case entries =>
    intro other
    rw [entry_setQueue]
    split
    · next same =>
        subst same
        exact (sound.entries name).withQueue fun request member =>
          ⟨(asked request member).1, (asked request member).2.1⟩
    · exact sound.entries other
  case coherent =>
    intro other request member
    rw [queueOf_setQueue] at member
    split at member
    · exact (asked request member).2.2
    · exact sound.coherent other request member
  case mirrored =>
    refine ⟨sound.mirrored.names_nodup, fun owner lock => ?_⟩
    rw [granted_setQueue]
    exact sound.mirrored.mem_iff owner lock
  case counted => exact sound.counted

theorem queued {name : ResourceName} {request : Request} (member : request ∈ table.queueOf name) :
    request.lock.mode ≠ .NL ∧ request.lock.name = name ∧ request.Coherent :=
  ⟨(sound.entries name).queued_locked request member,
    (sound.entries name).queued_named request member, sound.coherent name request member⟩

end Sound

end Table

end Granularity
