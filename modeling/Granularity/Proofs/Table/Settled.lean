import Granularity.Proofs.Table.Passed
import Granularity.Proofs.Table.Rounds

/-!
Nobody waits who could be served.

A resource is settled when the request at the front of its queue finds no room.  Removing a lock or
weakening one in place can unsettle a resource, and every call puts such a resource on the list of
those to be served; strengthening a lock or adding one cannot.  So between two calls every resource
is settled.
-/

namespace Granularity

/-- The request at the front of the queue, if there is one, finds no room. -/
def Entry.Settled (entry : Entry) : Prop :=
  ∀ request rest, entry.queue = request :: rest → entry.hasRoom request = false

namespace Entry

/-- Somebody else's lock is in the way of a request that finds no room. -/
theorem hasRoom_eq_false {entry : Entry} {request : Request} :
    entry.hasRoom request = false ↔
      ∃ lock ∈ entry.granted, lock.owner ≠ request.lock.owner ∧
        Mode.compatible request.lock.mode lock.mode = false := by
  rw [← Bool.not_eq_true, hasRoom, hasRoomFor_iff]
  push Not
  simp only [Bool.not_eq_true, ne_eq]

theorem Settled.of_queue_nil {entry : Entry} (nobody : entry.queue = []) : entry.Settled := by
  intro request rest queued
  rw [nobody] at queued
  cases queued

theorem Settled.of_front {entry : Entry} {request : Request} {rest : List Request}
    (queued : entry.queue = request :: rest) (full : entry.hasRoom request = false) :
    entry.Settled := by
  intro front others same
  rw [queued] at same
  cases same
  exact full

/-- Where nothing is granted, nobody waits. -/
theorem Settled.queue_eq_nil {entry : Entry} (settled : entry.Settled)
    (nothing : entry.granted = []) : entry.queue = [] := by
  cases queued : entry.queue with
  | nil => rfl
  | cons request rest =>
      obtain ⟨lock, member, _⟩ := hasRoom_eq_false.mp (settled request rest queued)
      rw [nothing] at member
      cases member

/-- Neither a lock for a new owner nor a stronger mode for an old one makes room. -/
theorem Settled.withLock {entry : Entry} {name : ResourceName} (sound : entry.Sound name)
    (settled : entry.Settled) {lock : Lock}
    (stronger : Mode.covers lock.mode (entry.modeOf lock.owner) = true) :
    (entry.withLock lock).Settled := by
  intro request rest queued
  obtain ⟨held, member, apart, conflict⟩ :=
    hasRoom_eq_false.mp (settled request rest queued)
  rw [hasRoom_eq_false]
  by_cases same : held.owner = lock.owner
  · refine ⟨lock, (mem_place Lock.owner sound.owners_nodup).mpr (Or.inl rfl), same ▸ apart, ?_⟩
    have heldMode : entry.modeOf lock.owner = held.mode := by
      rw [modeOf_eq, ← same, sound.lockOf?_eq_some.mpr ⟨member, rfl⟩]
      rfl
    rw [← Bool.not_eq_true] at conflict ⊢
    intro fits
    rw [Mode.compatible_comm] at fits conflict
    exact conflict (Mode.compatible_of_covers (heldMode ▸ stronger) fits)
  · exact ⟨held, (mem_place Lock.owner sound.owners_nodup).mpr (Or.inr ⟨member, same⟩), apart,
      conflict⟩

end Entry

namespace Table

/-- Every resource is settled that is not on the list of those to be served. -/
def SettledBut (table : Table) (names : List ResourceName) : Prop :=
  ∀ name, name ∉ names → (table.entry name).Settled

/-- Every resource is settled. -/
def Settled (table : Table) : Prop :=
  ∀ name, (table.entry name).Settled

variable {table : Table}

theorem settledBut_nil : table.SettledBut [] ↔ table.Settled := by
  simp [SettledBut, Settled]

theorem SettledBut.mono {names more : List ResourceName} (settled : table.SettledBut names)
    (subset : ∀ name ∈ names, name ∈ more) : table.SettledBut more :=
  fun name absent => settled name fun member => absent (subset name member)

/-! ### Granting a request -/

theorem SettledBut.remove {names : List ResourceName} {owner : TransactionId}
    {name : ResourceName} {lock : Lock} {fewer : Table} (settled : table.SettledBut names)
    (removed : table.remove owner name = some (lock, fewer)) :
    fewer.SettledBut (names ++ [name]) := by
  intro other absent
  rw [List.mem_append, List.mem_singleton, not_or] at absent
  rw [entry_remove removed, if_neg (Ne.symm absent.2)]
  exact settled other absent.1

theorem SettledBut.afterReleases {names : List ResourceName} (settled : table.SettledBut names)
    (request : Request) : (table.afterReleases request).SettledBut
      (names ++ table.freedBy request) := by
  refine releases_induction (motive := fun after freed => after.SettledBut (names ++ freed))
    request.lock.name ?_ ?_ request.released table [] (by rwa [List.append_nil])
  · intro after freed before
    exact before.mono fun name member => by
      rw [← List.append_assoc]
      exact List.mem_append_left _ member
  · intro after freed owner other lock fewer _ taken before
    rw [← List.append_assoc]
    exact before.remove taken

theorem SettledBut.setQueue {names : List ResourceName} (settled : table.SettledBut names)
    {name : ResourceName} (listed : name ∈ names) (queue : List Request) :
    (table.setQueue name queue).SettledBut names := by
  intro other absent
  have apart : name ≠ other := fun same => absent (same ▸ listed)
  rw [entry_setQueue, if_neg apart]
  exact settled other absent

/-- A grant on a resource that is being served unsettles only what its releases free. -/
theorem SettledBut.apply {names : List ResourceName} (settled : table.SettledBut names)
    {request : Request} (listed : request.lock.name ∈ names) :
    (table.apply request).1.SettledBut (names ++ table.freedBy request) := by
  intro other absent
  have apart : request.lock.name ≠ other :=
    fun same => absent (List.mem_append_left _ (same ▸ listed))
  rw [apply_eq, entry_grant, if_neg apart]
  exact settled.afterReleases request other absent

/-- A release of the request's own name puts it on the list of freed resources. -/
theorem own_mem_freed (name : ResourceName) :
    ∀ (released : List Lock) (table : Table) (freed : List ResourceName),
      name ∈ freed ∨ name ∈ released.map Lock.name →
      name ∈ (released.foldl (applyRelease name) (table, freed)).2
  | [], _, _, listed => by simpa using listed
  | first :: rest, table, freed, listed => by
      rw [List.map_cons, List.mem_cons] at listed
      rw [List.foldl_cons]
      rcases applyRelease_cases table name freed first with
        ⟨own, same⟩ | ⟨apart, _, same⟩ | ⟨apart, _, fewer, _, same⟩
      · rw [same]
        exact own_mem_freed name rest _ _
          (Or.inl (List.mem_append_right _ (List.mem_singleton_self name)))
      · rw [same]
        refine own_mem_freed name rest _ _ (listed.imp_right fun member => ?_)
        exact member.resolve_left fun equal => apart equal.symm
      · rw [same]
        refine own_mem_freed name rest _ _ (listed.imp (List.mem_append_left _) fun member => ?_)
        exact member.resolve_left fun equal => apart equal.symm

theorem own_mem_freedBy {request : Request}
    (listed : request.lock.name ∈ request.released.map Lock.name) :
    request.lock.name ∈ table.freedBy request :=
  own_mem_freed request.lock.name request.released table [] (Or.inr listed)

/-- A grant that is not made from a queue unsettles only what its releases free, if it strengthens
the owner's mode or gives up the old lock explicitly. -/
theorem Settled.apply (sound : table.Sound) (settled : table.Settled) {request : Request}
    (coherent : request.Coherent)
    (stronger : request.lock.name ∉ request.released.map Lock.name →
      Mode.covers request.lock.mode (table.modeOf request.lock.owner request.lock.name) = true) :
    (table.apply request).1.SettledBut (table.freedBy request) := by
  intro other absent
  have before : ((table.afterReleases request).entry other).Settled :=
    (settledBut_nil.mpr settled).afterReleases request other (by rwa [List.nil_append])
  rw [apply_eq, entry_grant]
  split
  · next same =>
      subst same
      have unlisted : request.lock.name ∉ request.released.map Lock.name :=
        fun listed => absent (own_mem_freedBy listed)
      refine before.withLock ((sound.afterReleases request).entries _) ?_
      have kept := Sound.modeOf_releases request.lock.name request.lock.owner request.lock.owner
        request.lock.name request.released table [] sound coherent.released_owner
      rw [if_neg fun all => all.2.1 rfl] at kept
      rw [← modeOf_eq_entry, Table.afterReleases, kept]
      exact stronger unlisted
  · exact before

/-! ### Serving -/

theorem SettledBut.serveQueue (name : ResourceName) :
    ∀ (queue : List Request) (names : List ResourceName) (table : Table),
      (∀ request ∈ queue, request.lock.name = name) → table.queueOf name = queue →
      table.SettledBut (name :: names) →
      (serveQueue name queue table).table.SettledBut
        (names ++ (Table.serveQueue name queue table).freed)
  | [], names, table, _, queued, settled => by
      intro other absent
      simp only [Table.serveQueue, List.append_nil] at absent ⊢
      by_cases same : other = name
      · subst same
        exact .of_queue_nil queued
      · exact settled other (by simp [same, absent])
  | request :: rest, names, table, named, queued, settled => by
      by_cases room : (table.entry name).hasRoom request = true
      · rw [serveQueue_of_room room, ← List.append_assoc]
        have own : request.lock.name ∈ name :: names := by
          rw [named request List.mem_cons_self]
          exact List.mem_cons_self
        exact SettledBut.serveQueue name rest _ _
          (fun other member => named other (List.mem_cons_of_mem request member))
          (queueOf_next name request rest)
          ((settled.setQueue List.mem_cons_self rest).apply own)
      · rw [serveQueue_of_no_room room, List.append_nil]
        intro other absent
        by_cases same : other = name
        · subst same
          exact .of_front queued (Bool.not_eq_true _ ▸ room)
        · exact settled other (by simp [same, absent])

/-- Serving as many rounds as there are names to serve and releases pending settles everything. -/
theorem SettledBut.drainFor : ∀ (rounds : Nat) (names : List ResourceName) (table : Table),
    table.Sound → names.length + table.pendingReleases ≤ rounds → table.SettledBut names →
    (drainFor rounds names table).1.Settled
  | _, [], table, _, _, settled => by
      rw [Table.drainFor]
      exact settledBut_nil.mp settled
  | 0, _ :: _, table, _, bound, _ => by
      rw [List.length_cons] at bound
      omega
  | rounds + 1, name :: names, table, sound, bound, settled => by
      have shrinks := freed_add_pending_le name (table.queueOf name) table rfl
      rw [List.length_cons] at bound
      refine SettledBut.drainFor rounds (names ++ (table.serve name).freed) (table.serve name).table
        (sound.served (served_serveQueue name _ table rfl)) ?_ ?_
      · rw [List.length_append]
        rw [serve]
        omega
      · exact SettledBut.serveQueue name _ names table
          (fun request member => (sound.queued member).2.1) rfl settled

theorem SettledBut.drain {names : List ResourceName} (settled : table.SettledBut names)
    (sound : table.Sound) : (table.drain names).1.Settled :=
  SettledBut.drainFor _ names table sound (Nat.le_refl _) settled

/-! ### Calls -/

/-- A request that may not pass those ahead of it, or finds no room, leaves its resource settled. -/
theorem Settled.enqueue (settled : table.Settled) {request : Request} {side : QueueEnd}
    (full : ¬table.Admits request side) : (table.enqueue request side).Settled := by
  intro name
  rw [enqueue_eq, entry_setQueue]
  split
  · next same =>
      subst same
      cases side with
      | front =>
          exact .of_front rfl (Bool.not_eq_true _ ▸ fun room => full ⟨room, nofun⟩)
      | back =>
          cases queued : table.queueOf request.lock.name with
          | nil =>
              exact .of_front rfl (Bool.not_eq_true _ ▸ fun room => full ⟨room, fun _ => queued⟩)
          | cons front rest =>
              exact .of_front rfl (settled _ front rest queued)
  · exact settled name

theorem Poses.stronger {owner : TransactionId} {call : Call} {request : Request}
    {side : QueueEnd} (poses : table.Poses owner call request side)
    (unlisted : request.lock.name ∉ request.released.map Lock.name) :
    Mode.covers request.lock.mode (table.modeOf request.lock.owner request.lock.name) = true := by
  cases poses with
  | acquire free => simp [free, Mode.covers]
  | promote _ _ covered => exact covered
  | exchange listed held =>
      rw [(locksOn_eq_ok held).1, List.mem_eraseDups] at unlisted
      have free : table.modeOf owner _ = .NL := not_not.mp fun held => unlisted (listed held)
      simp [free, Mode.covers]

/-- Every call leaves all resources settled. -/
theorem Settled.call (sound : table.Sound) (settled : table.Settled) {owner : TransactionId}
    {call : Call} {done : Section} (passed : table.call owner call = .ok done) :
    done.table.Settled := by
  cases passes_call passed with
  | released _ removed left =>
      rw [left]
      exact ((settledBut_nil.mpr settled).remove removed).drain (sound.remove removed)
  | granted poses admits left =>
      rw [left]
      exact (settled.apply sound (poses.coherent sound) poses.stronger).drain
        (sound.apply poses.locked admits.1)
  | parked _ full left =>
      rw [left]
      exact settled.enqueue full

end Table

end Granularity
