import Granularity.Proofs.Histories.Footprint
import Granularity.Proofs.Histories.Refusals
import Granularity.Proofs.Runs.Steady

/-!
Giving up everything.

Giving up all locks means to read the transaction's list once and to release the names on it one by
one, deepest first.  Every release may serve queues, and so the locks of others may change on the
way; but the list of a transaction that does not wait loses the released lock and nothing else.  So
the list that was read stays true of what is left, and no release can fail.
-/

namespace Granularity

namespace Table

variable {table : Table} {owner : TransactionId} {name : ResourceName} {done : Section}

/-- A release never waits. -/
theorem not_parked_of_release (passed : table.call owner (.release name) = .ok done) :
    done.parked = false := by
  cases passes_call passed with
  | released _ _ _ _ free => exact free
  | granted poses => cases poses
  | parked poses => cases poses

/-- A release takes one lock off the list of its transaction, unless that has been waiting. -/
theorem Sound.locksOf_release (sound : table.Sound) (idle : ¬table.Waiting owner)
    (passed : table.call owner (.release name) = .ok done) :
    done.table.locksOf owner = (table.locksOf owner).filter fun held => held.name != name := by
  cases passes_call passed with
  | @released released lock fewer called removed left served =>
      cases called
      have notServed := served ▸ caller_not_served idle passed
      rw [left, (sound.remove removed).locksOf_served_of_not_served (served_drain fewer [name])
        notServed, locksOf_remove removed, if_pos rfl]
  | granted poses => cases poses
  | parked poses => cases poses

/-- Wherever the transaction holds a lock, it holds one on the name above. -/
def ParentsHeld (table : Table) (owner : TransactionId) : Prop :=
  ∀ lock ∈ table.locksOf owner, ∀ parent ∈ lock.name.parent?,
    parent ∈ (table.locksOf owner).map Lock.name

instance (table : Table) (owner : TransactionId) : Decidable (table.ParentsHeld owner) :=
  inferInstanceAs (Decidable (∀ _ ∈ _, _))

end Table

namespace System

/-- The manager after a transaction has released some names in order. -/
def givingUp (system : System) (owner : TransactionId) (names : List ResourceName) : System :=
  system.afterCalls (names.map fun name => (owner, .release name))

/-- The transaction has released these names, each by one call, and has lost these locks alone.  A
lock of anybody else is as it was, unless a request of that transaction has been granted. -/
structure GaveUp (before after : System) (owner : TransactionId) (names : List ResourceName) :
    Prop where
  sound : after.store.table.Sound
  idle : ¬after.store.table.Waiting owner
  locks : after.store.table.locksOf owner =
    (before.store.table.locksOf owner).filter fun held => held.name ∉ names
  events : ∃ added, Notice.events after.journal = Notice.events before.journal ++ added ∧
    added.filter Event.isCall = names.map (Event.release owner) ∧
    ∀ other, other ≠ owner → (∀ name mode, .granted other name mode ∉ added) →
      after.store.table.locksOf other = before.store.table.locksOf other

namespace GaveUp

variable {before middle after : System} {owner : TransactionId} {names others : List ResourceName}

theorem nothing (sound : before.store.table.Sound) (idle : ¬before.store.table.Waiting owner)
    (store : after.store = before.store)
    (silent : Notice.events after.journal = Notice.events before.journal) :
    GaveUp before after owner [] where
  sound := store ▸ sound
  idle := store ▸ idle
  locks := by simp [store]
  events := ⟨[], by simp [silent], rfl, fun _ _ _ => by rw [store]⟩

theorem trans (first : GaveUp before middle owner names) (second : GaveUp middle after owner others) :
    GaveUp before after owner (names ++ others) where
  sound := second.sound
  idle := second.idle
  locks := by
    rw [second.locks, first.locks, List.filter_filter]
    refine List.filter_congr fun held _ => ?_
    simp [Bool.and_comm]
  events := by
    obtain ⟨added, journal, calls, kept⟩ := first.events
    obtain ⟨later, laterJournal, laterCalls, laterKept⟩ := second.events
    refine ⟨added ++ later, ?_, ?_, ?_⟩
    · rw [laterJournal, journal, List.append_assoc]
    · rw [List.filter_append, calls, laterCalls, List.map_append]
    · intro other apart ungranted
      simp only [List.mem_append, not_or] at ungranted
      rw [laterKept other apart fun name mode => (ungranted name mode).2,
        kept other apart fun name mode => (ungranted name mode).1]

/-- If no name is released before one beneath it, no lock is left without the lock above it. -/
theorem parentsHeld (gaveUp : GaveUp before after owner names) (later : List ResourceName)
    (order : (names ++ later).Pairwise fun first second => second.isBeneath first = false)
    (complete : ∀ lock ∈ before.store.table.locksOf owner, lock.name ∈ names ++ later)
    (held : before.store.table.ParentsHeld owner) : after.store.table.ParentsHeld owner := by
  intro lock left parent upper
  rw [gaveUp.locks] at left ⊢
  obtain ⟨listed, kept⟩ := List.mem_filter.mp left
  obtain ⟨above, aboveListed, rfl⟩ := List.mem_map.mp (held lock listed parent upper)
  refine List.mem_map_of_mem (List.mem_filter.mpr ⟨aboveListed, decide_eq_true fun released => ?_⟩)
  have comes : lock.name ∈ later :=
    (List.mem_append.mp (complete lock listed)).resolve_left (of_decide_eq_true kept)
  have apart := (List.pairwise_append.mp order).2.2 above.name released lock.name comes
  rw [ResourceName.isBeneath_parent upper] at apart
  cases apart

end GaveUp

variable {system : System} {owner : TransactionId}

/-- A transaction that does not wait can release what it holds. -/
theorem gaveUp_release {name : ResourceName} (sound : system.store.table.Sound)
    (idle : ¬system.store.table.Waiting owner)
    (held : name ∈ (system.store.table.locksOf owner).map Lock.name) :
    ∃ after, system.carryOut owner (.release name) = (.returned, after) ∧
      GaveUp system after owner [name] := by
  obtain ⟨done, passed⟩ := Table.release_passes (sound.modeOf_ne_NL_iff.mpr held)
  have free := Table.not_parked_of_release passed
  have events : Notice.events done.notices =
      .release owner name :: done.served.map fun request => request.lock.granted := by
    rw [Table.events_call passed, free]
    rfl
  refine ⟨(system.enter owner done).wake done.served, ?_, ?_⟩
  · rw [carryOut_of_passed passed, free]
    rfl
  · constructor
    case sound => exact sound.call passed
    case idle => exact fun waits => idle (Table.waiting_of_not_parked passed free waits)
    case locks =>
      refine (sound.locksOf_release idle passed).trans (List.filter_congr fun held _ => ?_)
      by_cases same : held.name = name
      · simp [same]
      · simp [same]
    case events =>
      refine ⟨Notice.events done.notices, events_append system.journal done.notices, ?_, ?_⟩
      · rw [events, List.filter_cons_of_pos rfl, List.filter_eq_nil_iff.mpr]
        · rfl
        · simp [Lock.granted, Event.isCall, Event.kind, EventKind.isCall]
      · intro other apart ungranted
        have notServed : other ∉ done.served.map fun request => request.lock.owner := by
          intro member
          obtain ⟨request, served, rfl⟩ := List.mem_map.mp member
          refine ungranted request.lock.name request.lock.mode ?_
          rw [events]
          exact List.mem_cons_of_mem _ (List.mem_map_of_mem served)
        have listed := sound.locksOf_call passed apart
        rw [Table.filter_owner_eq_nil notServed, List.foldl_nil] at listed
        exact listed

/-- It can release any of the names that it holds locks on, in any order, each once. -/
theorem gaveUp_givingUp (names : List ResourceName) (sound : system.store.table.Sound)
    (idle : ¬system.store.table.Waiting owner) (nodup : names.Nodup)
    (held : ∀ name ∈ names, name ∈ (system.store.table.locksOf owner).map Lock.name) :
    system.run owner (releases names) = (.finished (.ok ()), system.givingUp owner names) ∧
      GaveUp system (system.givingUp owner names) owner names := by
  induction names generalizing system with
  | nil => exact ⟨rfl, .nothing sound idle rfl rfl⟩
  | cons name names inductionHypothesis =>
      obtain ⟨absent, nodup⟩ := List.nodup_cons.mp nodup
      obtain ⟨after, returned, gaveUp⟩ := gaveUp_release sound idle (held name List.mem_cons_self)
      have stillHeld : ∀ other ∈ names,
          other ∈ (after.store.table.locksOf owner).map Lock.name := by
        intro other member
        obtain ⟨lock, listed, rfl⟩ := List.mem_map.mp (held other (List.mem_cons_of_mem name member))
        have apart : lock.name ≠ name := fun same => absent (same ▸ member)
        rw [gaveUp.locks]
        exact List.mem_map_of_mem (List.mem_filter.mpr ⟨listed, by simpa using apart⟩)
      obtain ⟨ran, later⟩ := inductionHypothesis gaveUp.sound gaveUp.idle nodup stillHeld
      have step : system.givingUp owner (name :: names) = after.givingUp owner names := by
        rw [givingUp, List.map_cons, afterCalls, List.foldl_cons, returned]
        rfl
      have performed : system.perform owner (.direct (.release name)) = (.returned, after) := by
        have made := @perform_of_make system owner (.direct (.release name)) none _ rfl
        rw [made, ← returned]
        exact congrArg (carryOut · owner (.release name)) system.note_nil
      rw [step]
      refine ⟨?_, gaveUp.trans later⟩
      rw [← ran, releases, List.map_cons, Plan.ofList, List.foldr_cons, run, performed]
      rfl

/-- Giving up everything is announced first; then the locks on the names are given up. -/
theorem run_releaseAll (system : System) (owner : TransactionId) :
    let names := (deepestFirst (system.store.table.locksOf owner)).map Lock.name
    system.run owner (releaseAll owner) =
      run owner (releases names)
        (system.note [.remark (.releasingAll names.length owner)]) := by
  simp only [releases_names, List.length_map]
  rfl

/-- Giving up everything succeeds, and in a safe order.  Whatever calls have been made by whomever,
let a transaction give up everything that has no request in a queue.  Then it makes one release for
each of its locks, and none before one on a name beneath.  At every moment it has lost the locks that
it has released so far and no other, and if it held a lock above each of its locks at the beginning,
it still does.  In the end it holds nothing and nothing is counted for it anywhere.  The locks of
everybody else are as they were, unless a request of that transaction has been granted meanwhile. -/
theorem releaseAll_afterCalls (config : Config) (handles : Std.ExtTreeMap TransactionId Handle)
    (calls : List (TransactionId × Call)) :
    let system := (opened config handles).afterCalls calls
    let table := system.store.table
    ∀ owner, ¬table.Waiting owner →
      let names := (deepestFirst (table.locksOf owner)).map Lock.name
      let announced := system.note [.remark (.releasingAll names.length owner)]
      let final := announced.givingUp owner names
      system.run owner (releaseAll owner) = (.finished (.ok ()), final) ∧
      names.Perm ((table.locksOf owner).map Lock.name) ∧ names.Nodup ∧
      names.Pairwise (fun first second => second.isBeneath first = false) ∧
      (∀ count,
        let between := announced.givingUp owner (names.take count)
        GaveUp system between owner (names.take count) ∧
          (table.ParentsHeld owner → between.store.table.ParentsHeld owner)) ∧
      final.store.table.locksOf owner = [] ∧
      ∀ upper, final.store.table.countBeneath upper owner = 0 := by
  intro system table owner idle names announced final
  have sound : table.Sound := sound_afterCalls config handles calls
  have sorted : names.Perm ((table.locksOf owner).map Lock.name) :=
    (List.mergeSort_perm _ _).map Lock.name
  have nodup : names.Nodup := sorted.nodup_iff.mpr (sound.mirrored.names_nodup owner)
  have order : names.Pairwise fun first second => second.isBeneath first = false := by
    refine (sound.shedBy_deepestFirst owner).deepest_first.imp fun shallower => ?_
    refine Bool.eq_false_iff.mpr fun beneath => ?_
    exact absurd (ResourceName.depth_lt_of_isBeneath beneath) (Nat.not_lt.mpr shallower)
  have start : GaveUp system announced owner [] :=
    .nothing sound idle rfl (events_note_remarks system [_])
  have listed : ∀ name ∈ names, name ∈ (table.locksOf owner).map Lock.name :=
    fun _ member => sorted.subset member
  obtain ⟨ran, later⟩ := gaveUp_givingUp names start.sound start.idle nodup listed
  have finished : GaveUp system final owner names := start.trans later
  have nothingLeft : final.store.table.locksOf owner = [] := by
    rw [finished.locks, List.filter_eq_nil_iff]
    intro lock member kept
    exact of_decide_eq_true kept (sorted.mem_iff.mpr (List.mem_map_of_mem member))
  refine ⟨?_, sorted, nodup, order, fun count => ?_, nothingLeft, fun upper => ?_⟩
  · exact (system.run_releaseAll owner).trans ran
  · have gaveUp : GaveUp system (announced.givingUp owner (names.take count)) owner _ :=
      start.trans (gaveUp_givingUp (names.take count) start.sound start.idle
        (nodup.sublist (List.take_sublist count names))
        fun name member => listed name (List.mem_of_mem_take member)).2
    have split : names.take count ++ names.drop count = names := List.take_append_drop count names
    refine ⟨gaveUp, gaveUp.parentsHeld (names.drop count) (split.symm ▸ order) ?_⟩
    intro lock member
    rw [List.nil_append, split]
    exact sorted.mem_iff.mpr (List.mem_map_of_mem member)
  · rw [finished.sound.counted, nothingLeft]
    rfl

/-- A writer in a hierarchy, and a reader that waits for the writer to leave the table. -/
def writesBeforeReader : List (TransactionId × Call) :=
  [(1, .acquire ⟨"database", []⟩ .IX), (2, .acquire ⟨"database", []⟩ .IS),
    (1, .acquire ⟨"database", ["users"]⟩ .X), (2, .acquire ⟨"database", ["users"]⟩ .S)]

/-- The reader waits. -/
def readerWaits : System :=
  (opened {} ∅).afterCalls writesBeforeReader

/-- The writer gives up the table before the database, and the reader gets the table. -/
theorem writer_leaves_table_first :
    let announced := readerWaits.note [.remark (.releasingAll 2 1)]
    readerWaits.run 1 (releaseAll 1) =
        (.finished (.ok ()),
          announced.givingUp 1 [⟨"database", ["users"]⟩, ⟨"database", []⟩]) ∧
      (announced.givingUp 1 [⟨"database", ["users"]⟩]).store.table.ParentsHeld 1 ∧
      (announced.givingUp 1 [⟨"database", ["users"]⟩]).store.table.locksOf 1 =
        [⟨⟨"database", []⟩, .IX, 1⟩] ∧
      (announced.givingUp 1 [⟨"database", ["users"]⟩]).store.table.locksOf 2 =
        [⟨⟨"database", []⟩, .IS, 2⟩, ⟨⟨"database", ["users"]⟩, .S, 2⟩] := by
  have idle : ¬readerWaits.store.table.Waiting 1 := by decide +kernel
  have names : (deepestFirst (readerWaits.store.table.locksOf 1)).map Lock.name =
      [⟨"database", ["users"]⟩, ⟨"database", []⟩] := by
    have locks : readerWaits.store.table.locksOf 1 =
        [⟨⟨"database", []⟩, .IX, 1⟩, ⟨⟨"database", ["users"]⟩, .X, 1⟩] := by decide +kernel
    rw [locks, deepestFirst]
    simp [List.mergeSort, ResourceName.depth]
  have parents : readerWaits.store.table.ParentsHeld 1 := by decide +kernel
  obtain ⟨ran, _, _, _, moments, _⟩ := releaseAll_afterCalls {} ∅ writesBeforeReader 1 idle
  have between := moments 1
  rw [← readerWaits, names] at ran between
  exact ⟨ran, between.2 parents, by decide +kernel, by decide +kernel⟩

end System

end Granularity
