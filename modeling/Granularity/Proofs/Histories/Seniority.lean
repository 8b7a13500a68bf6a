import Granularity.Proofs.Histories.ReleaseOrder
import Granularity.Proofs.Histories.Wakeups

/-!
Locks keep their places.

The locks of a transaction are listed in the order in which their names were taken, and the granted
locks of a resource in the order in which their owners came.  A call edits these lists in several
ways: a lock is put in the place of an old one, taken out from between others, or added at the end,
by the call itself and by every request that it serves.  Still no lock ever moves: what is left of a
list stays in its order, and whatever is new comes after all of it, in the order of granting.
-/

namespace Granularity

/-! ### Lists that keep their order -/

section

variable {κ : Type} [DecidableEq κ]

/-- The old keys that are left come first, in their old order, and after them the keys that have
arrived and were not there before, in the order of their arrival. -/
def KeepsOrder (old new arrivals : List κ) : Prop :=
  new = (old.filter fun key => key ∈ new) ++ arrivals.filter fun key => key ∉ old

namespace KeepsOrder

variable {old middle new arrivals later : List κ}

/-- Whichever of the old keys are taken out, the order is kept if the arrivals go to the end. -/
theorem of_filter (keeps : κ → Bool)
    (same : new = old.filter keeps ++ arrivals.filter fun key => key ∉ old) :
    KeepsOrder old new arrivals := by
  have left : old.filter keeps = old.filter fun key => key ∈ new := by
    refine List.filter_congr fun key member => ?_
    have stays : key ∈ new ↔ keeps key = true := by
      rw [same, List.mem_append, List.mem_filter, List.mem_filter]
      simp [member]
    rw [Bool.eq_iff_iff, decide_eq_true_iff, stays]
  rw [left] at same
  exact same

theorem refl (list : List κ) : KeepsOrder list list [] :=
  of_filter (fun _ => true) (by simp)

/-- A key that is not taken out keeps its place, and goes to the end if it has none. -/
theorem of_placed (old : List κ) (keeps : κ → Bool) (key : κ) (stays : keeps key = true) :
    KeepsOrder old
      (if key ∈ old.filter keeps then old.filter keeps else old.filter keeps ++ [key]) [key] := by
  apply of_filter keeps
  by_cases present : key ∈ old
  · have left : key ∈ old.filter keeps := List.mem_filter.mpr ⟨present, stays⟩
    rw [if_pos left, List.filter_cons_of_neg (by simpa using present), List.filter_nil,
      List.append_nil]
  · have absent : key ∉ old.filter keeps := fun left => present (List.mem_filter.mp left).1
    rw [if_neg absent, List.filter_cons_of_pos (by simpa using present), List.filter_nil]

/-- Two changes, one after the other, keep the order if no key is concerned by both: those that the
first one moves stay as it leaves them, and those that arrive later stay as they were until then. -/
theorem append (moves : κ → Prop) (first : KeepsOrder old middle arrivals)
    (second : KeepsOrder middle new later)
    (early : ∀ key, ¬moves key → (key ∈ middle ↔ key ∈ old))
    (late : ∀ key, moves key → (key ∈ new ↔ key ∈ middle))
    (apart : ∀ key ∈ later, ¬moves key) : KeepsOrder old new (arrivals ++ later) := by
  have left : (old.filter fun key => key ∈ middle).filter (fun key => key ∈ new) =
      old.filter fun key => key ∈ new := by
    rw [List.filter_filter]
    refine List.filter_congr fun key member => ?_
    by_cases moved : moves key
    · simp [late key moved]
    · simp [early key moved, member]
  have arrived : (arrivals.filter fun key => key ∉ old).filter (fun key => key ∈ new) =
      arrivals.filter fun key => key ∉ old := by
    refine List.filter_eq_self.mpr fun key member => ?_
    have fresh : key ∉ old := by simpa using (List.mem_filter.mp member).2
    have reached : key ∈ middle := by
      rw [first]
      exact List.mem_append_right _ member
    have moved : moves key := by
      by_contra unmoved
      exact fresh ((early key unmoved).mp reached)
    simpa using (late key moved).mpr reached
  have last : (later.filter fun key => key ∉ middle) = later.filter fun key => key ∉ old :=
    List.filter_congr fun key member => by simp [early key (apart key member)]
  have filtered : (middle.filter fun key => key ∈ new) =
      (old.filter fun key => key ∈ new) ++ arrivals.filter fun key => key ∉ old := by
    conv_lhs => rw [first]
    rw [List.filter_append, left, arrived]
  rw [KeepsOrder, List.filter_append, ← List.append_assoc, ← filtered, ← last]
  exact second

end KeepsOrder

end

/-- The lock that a call asks for, if it asks for one. -/
def Call.wanted (owner : TransactionId) (call : Call) : List Lock :=
  if call.asks then [call.lock owner] else []

/-- The locks that a call has led to, in the order of granting: its own, unless it waits, and those
of the requests served. -/
def Section.grants (done : Section) (owner : TransactionId) (call : Call) : List Lock :=
  (if done.parked then [] else call.wanted owner) ++ done.served.map Request.lock

theorem Call.owner_wanted {owner : TransactionId} {call : Call} {lock : Lock}
    (wanted : lock ∈ call.wanted owner) : lock.owner = owner := by
  rw [Call.wanted] at wanted
  split at wanted
  · rw [List.mem_singleton.mp wanted]
    cases call <;> rfl
  · cases wanted

namespace Section

variable (done : Section) {owner other : TransactionId} (call : Call)

/-- The caller is granted what it wants, unless it waits. -/
theorem grants_own (notServed : owner ∉ done.served.map fun request => request.lock.owner) :
    ((done.grants owner call).filter fun lock => lock.owner == owner) =
      if done.parked then [] else call.wanted owner := by
  rw [grants, List.filter_append, List.filter_map, Function.comp_def,
    Table.filter_owner_eq_nil notServed, List.map_nil, List.append_nil]
  refine List.filter_eq_self.mpr fun lock member => beq_iff_eq.mpr ?_
  split at member
  · cases member
  · exact Call.owner_wanted member

/-- Everybody else is granted what is served to it. -/
theorem grants_apart (apart : other ≠ owner) :
    ((done.grants owner call).filter fun lock => lock.owner == other) =
      (done.served.filter fun request => request.lock.owner == other).map Request.lock := by
  rw [grants, List.filter_append, List.filter_map]
  refine List.append_left_eq_self.mpr (List.filter_eq_nil_iff.mpr fun lock member owned => ?_)
  split at member
  · cases member
  · exact apart ((beq_iff_eq.mp owned).symm.trans (Call.owner_wanted member))

end Section

namespace Request

variable (request : Request)

/-- Granting a request keeps the order of its owner's locks. -/
theorem keepsOrder_locksAfter (locks : List Lock) :
    KeepsOrder (locks.map Lock.name) ((request.locksAfter locks).map Lock.name)
      [request.lock.name] := by
  let keeps (name : ResourceName) : Bool :=
    name == request.lock.name || !(request.released.map Lock.name).contains name
  have kept : (locks.filter fun held => keeps held.name).map Lock.name =
      (locks.map Lock.name).filter keeps := by
    rw [List.filter_map]
    rfl
  have stays : keeps request.lock.name = true := by simp [keeps]
  rw [locksAfter, map_place, kept]
  exact .of_placed _ keeps _ stays

/-- It keeps the order of the owners on every resource. -/
theorem keepsOrder_grantedAfter (name : ResourceName) (granted : List Lock) :
    KeepsOrder (granted.map Lock.owner) ((request.grantedAfter name granted).map Lock.owner)
      (if request.lock.name = name then [request.lock.owner] else []) := by
  rw [grantedAfter]
  by_cases own : name = request.lock.name
  · have placed := KeepsOrder.of_placed (granted.map Lock.owner) (fun _ => true)
      request.lock.owner rfl
    rw [List.filter_true] at placed
    rw [if_pos own, if_pos own.symm, map_place]
    exact placed
  · rw [if_neg own, if_neg (Ne.symm own)]
    split
    · apply KeepsOrder.of_filter fun owner => owner != request.lock.owner
      rw [List.filter_map]
      simp [Function.comp_def]
    · exact .refl _

end Request

namespace Table

variable {table : Table} {owner : TransactionId} {call : Call} {done : Section}

/-- A transaction is among the owners on a resource just when it holds a mode there. -/
theorem Sound.mem_owners_iff (sound : table.Sound) {name : ResourceName} :
    owner ∈ (table.entry name).granted.map Lock.owner ↔ table.modeOf owner name ≠ .NL := by
  rw [sound.held_iff, sound.modeOf_ne_NL_iff]

/-! ### The granted locks of a resource -/

/-- Granting one request concerns its owner alone. -/
theorem Sound.keepsOrder_apply (sound : table.Sound) {request : Request}
    (coherent : request.Coherent) (name : ResourceName) :
    KeepsOrder ((table.entry name).granted.map Lock.owner)
      (((table.apply request).1.entry name).granted.map Lock.owner)
      (if request.lock.name = name then [request.lock.owner] else []) := by
  rw [sound.granted_apply coherent]
  exact request.keepsOrder_grantedAfter name _

/-- Service grants at most one request of each transaction, so it keeps the order of the owners. -/
theorem SingleFile.keepsOrder_served (single : table.SingleFile) (sound : table.Sound)
    {final : Table} {served : List Request} (chain : Served table served final)
    (name : ResourceName) :
    KeepsOrder ((table.entry name).granted.map Lock.owner)
      ((final.entry name).granted.map Lock.owner)
      ((served.filter fun request => request.lock.name == name).map fun request =>
        request.lock.owner) := by
  induction chain with
  | nobody => exact .refl _
  | @front table final other request rest served queued room later inductionHypothesis =>
      let next := ((table.setQueue other rest).apply request).1
      have nextSound : next.Sound := sound.apply_front queued room
      have nextSingle : next.SingleFile := single.next queued
      have first := (sound.setQueue_rest queued).keepsOrder_apply (sound.front queued).2.2 name
      rw [granted_setQueue] at first
      have notAgain : request.lock.owner ∉ served.map fun request => request.lock.owner := by
        have nodup := single.nodup_served (.front queued room later)
        rw [List.map_cons, List.nodup_cons] at nodup
        exact nodup.1
      have both := first.append (· = request.lock.owner)
        (inductionHypothesis nextSingle nextSound) ?early ?late ?apart
      case early =>
        intro someone apart
        rw [nextSound.mem_owners_iff, sound.mem_owners_iff, sound.modeOf_apply_front queued,
          if_neg apart]
      case late =>
        rintro someone rfl
        rw [(nextSound.served later).mem_owners_iff, nextSound.mem_owners_iff,
          nextSound.modeOf_served later notAgain]
      case apart =>
        rintro someone member rfl
        obtain ⟨second, secondMember, owned⟩ := List.mem_map.mp member
        exact notAgain (List.mem_map.mpr ⟨second, (List.mem_filter.mp secondMember).1, owned⟩)
      by_cases same : request.lock.name = name
      · simpa [same] using both
      · simpa [same] using both

/-! ### A call -/

section

variable {start : Table} {names : List ResourceName}

theorem Poses.wanted_eq {request : Request} {side : QueueEnd}
    (poses : table.Poses owner call request side) : call.wanted owner = [request.lock] := by
  rw [Call.wanted, if_pos poses.asks, poses.lock_eq]

/-- The call's own part keeps the order of the owners on a resource. -/
theorem Sound.keepsOrder_granted_servesFrom (sound : table.Sound)
    (serves : table.ServesFrom owner call start names) (name : ResourceName) :
    KeepsOrder ((table.entry name).granted.map Lock.owner)
      ((start.entry name).granted.map Lock.owner)
      (((call.wanted owner).filter fun lock => lock.name == name).map Lock.owner) := by
  cases serves with
  | @released released lock _ called removed =>
      subst called
      rw [entry_remove removed]
      split
      · apply KeepsOrder.of_filter fun holder => holder != owner
        rw [Entry.without, eraseP_eq_filter Lock.owner (sound.entries name).owners_nodup,
          List.filter_map]
        exact (List.append_nil _).symm
      · exact .refl _
  | @granted request side poses _ =>
      have applied := sound.keepsOrder_apply (poses.coherent sound) name
      rw [poses.wanted_eq]
      by_cases own : request.lock.name = name
      · simpa [own] using applied
      · simpa [own] using applied

/-- It keeps the order of the caller's locks. -/
theorem Sound.keepsOrder_locksOf_servesFrom (sound : table.Sound)
    (serves : table.ServesFrom owner call start names) :
    KeepsOrder ((table.locksOf owner).map Lock.name) ((start.locksOf owner).map Lock.name)
      ((call.wanted owner).map Lock.name) := by
  cases serves with
  | @released released lock _ called removed =>
      subst called
      rw [locksOf_remove removed, if_pos rfl]
      apply KeepsOrder.of_filter fun name => name != released
      rw [List.filter_map]
      exact (List.append_nil _).symm
  | @granted request side poses _ =>
      rw [sound.locksOf_apply (poses.coherent sound), if_pos poses.owner_eq.symm, poses.wanted_eq]
      exact request.keepsOrder_locksAfter _

end

namespace SingleFile

variable (single : table.SingleFile) (sound : table.Sound) (idle : ¬table.Waiting owner)
  (passed : table.call owner call = .ok done)
include single sound idle passed

/-- A call keeps the order of the owners on every resource. -/
theorem keepsOrder_granted_call (name : ResourceName) :
    KeepsOrder ((table.entry name).granted.map Lock.owner)
      ((done.table.entry name).granted.map Lock.owner)
      (((done.grants owner call).filter fun lock => lock.name == name).map Lock.owner) := by
  cases parked : done.parked with
  | true =>
      obtain ⟨request, side, _, left, nobody⟩ := enqueued_of_parked passed parked
      rw [Section.grants, parked, nobody, left, enqueue_eq, granted_setQueue]
      exact .refl _
  | false =>
      obtain ⟨start, names, serves, left, served⟩ := servesFrom_of_not_parked passed parked
      have startSound := sound.servesFrom serves
      have chain := served_drain start names
      have notServed := served ▸ caller_not_served idle passed
      have both := (sound.keepsOrder_granted_servesFrom serves name).append (· = owner)
        ((single.servesFrom serves).keepsOrder_served startSound chain name) ?early ?late ?apart
      case early =>
        intro someone apart
        rw [startSound.mem_owners_iff, sound.mem_owners_iff, sound.modeOf_servesFrom serves apart]
      case late =>
        rintro someone rfl
        rw [(startSound.served chain).mem_owners_iff, startSound.mem_owners_iff,
          startSound.modeOf_served chain notServed]
      case apart =>
        rintro someone member rfl
        obtain ⟨request, requestMember, owned⟩ := List.mem_map.mp member
        exact notServed (List.mem_map.mpr ⟨request, (List.mem_filter.mp requestMember).1, owned⟩)
      rw [Section.grants, parked, left, served, List.filter_append, List.map_append,
        List.filter_map, List.map_map]
      exact both

/-- It keeps the order of the locks of every transaction. -/
theorem keepsOrder_locksOf_call (other : TransactionId) :
    KeepsOrder ((table.locksOf other).map Lock.name) ((done.table.locksOf other).map Lock.name)
      (((done.grants owner call).filter fun lock => lock.owner == other).map Lock.name) := by
  by_cases own : other = owner
  · subst own
    have notServed := caller_not_served idle passed
    rw [done.grants_own call notServed]
    cases parked : done.parked with
    | true =>
        obtain ⟨request, side, _, left, _⟩ := enqueued_of_parked passed parked
        rw [left, enqueue_eq, locksOf_setQueue, if_pos rfl]
        exact .refl _
    | false =>
        obtain ⟨start, names, serves, left, served⟩ := servesFrom_of_not_parked passed parked
        rw [left, (sound.servesFrom serves).locksOf_served_of_not_served
          (served_drain start names) (served ▸ notServed)]
        exact sound.keepsOrder_locksOf_servesFrom serves
  · have atMostOne := length_filter_owner_le_one (single.nodup_served_call passed) other
    rw [sound.locksOf_call passed own, done.grants_apart call own]
    generalize (done.served.filter fun request => request.lock.owner == other) = granted at *
    match granted with
    | [] => exact .refl _
    | [request] => exact request.keepsOrder_locksAfter _
    | _ :: _ :: _ => simp at atMostOne

end SingleFile

end Table

namespace System

/-- No lock ever moves.  Let nobody have made a call while it waited, and let a transaction that
does not wait make one more.  If it is refused, nothing changes.  If it passes, the locks that it
leads to are its own, unless it has to wait, and then those of the requests it serves, as the events
report them.  In the list of every transaction the names that are left keep their order, and the new
ones come after them; so do the owners on every resource, those that are new in the order in which
they were granted their locks. -/
theorem order_kept_afterCalls (config : Config) (handles : Std.ExtTreeMap TransactionId Handle)
    (calls : List (TransactionId × Call)) (patient : (opened config handles).Patient calls) :
    let system := (opened config handles).afterCalls calls
    let before := system.store.table
    ∀ owner call, ¬before.Waiting owner →
      let left := (system.carryOut owner call).2
      let after := left.store.table
      (∀ refusal, before.call owner call = .error refusal → left = system) ∧
      ∀ done, before.call owner call = .ok done →
        Notice.events left.journal = Notice.events system.journal ++ call.event owner ::
          (if done.parked then [(call.lock owner).blocked]
            else done.served.map fun request => request.lock.granted) ∧
        (∀ other, KeepsOrder ((before.locksOf other).map Lock.name)
          ((after.locksOf other).map Lock.name)
          (((done.grants owner call).filter fun lock => lock.owner == other).map Lock.name)) ∧
        ∀ name, KeepsOrder ((before.entry name).granted.map Lock.owner)
          ((after.entry name).granted.map Lock.owner)
          (((done.grants owner call).filter fun lock => lock.name == name).map Lock.owner) := by
  intro system before owner call idle left after
  have sound : before.Sound := sound_afterCalls config handles calls
  have single : before.SingleFile := singleFile_afterCalls patient
  refine ⟨fun refusal refused => ?_, fun done passed => ⟨?_, ?_, ?_⟩⟩
  · show (system.carryOut owner call).2 = system
    rw [carryOut_of_refused refused]
  · rw [journal_carryOut passed, events_append, Table.events_call passed]
  · have same : after = done.table := congrArg Store.table (store_carryOut passed)
    rw [same]
    exact single.keepsOrder_locksOf_call sound idle passed
  · have same : after = done.table := congrArg Store.table (store_carryOut passed)
    rw [same]
    exact single.keepsOrder_granted_call sound idle passed

/-- A writer of three tables, and two readers of the log that wait for the second table. -/
def readersBehindWriter : List (TransactionId × Call) :=
  [(3, .acquire ⟨"log", []⟩ .S), (1, .acquire ⟨"orders", []⟩ .X), (2, .acquire ⟨"log", []⟩ .S),
    (1, .acquire ⟨"users", []⟩ .X), (1, .acquire ⟨"bills", []⟩ .X), (1, .acquire ⟨"log", []⟩ .S),
    (2, .acquire ⟨"users", []⟩ .S), (3, .acquire ⟨"users", []⟩ .S)]

/-- The writer has its locks, and the readers wait. -/
def readersWaiting : System :=
  (opened {} ∅).afterCalls readersBehindWriter

/-- The writer keeps the first table to read it, and gives up the second one and the log. -/
def readsOrders : Call :=
  .exchange ⟨"orders", []⟩ .S [⟨"log", []⟩, ⟨"users", []⟩, ⟨"orders", []⟩]

/-- The manager once it has done so. -/
def ordersRead : System :=
  (readersWaiting.carryOut 1 readsOrders).2

/-- What it has led to, in order: the lock of the writer, and those of the readers. -/
def ordersGrants : List Lock :=
  [⟨⟨"orders", []⟩, .S, 1⟩, ⟨⟨"users", []⟩, .S, 2⟩, ⟨⟨"users", []⟩, .S, 3⟩]

/-- The lock on the first table stays in its place, the other lists close up where locks are given
up, and the readers line up behind one another. -/
theorem orders_read_in_place :
    (readersWaiting.store.table.locksOf 1).map Lock.name =
        [⟨"orders", []⟩, ⟨"users", []⟩, ⟨"bills", []⟩, ⟨"log", []⟩] ∧
      KeepsOrder ((readersWaiting.store.table.locksOf 1).map Lock.name)
        ((ordersRead.store.table.locksOf 1).map Lock.name) [⟨"orders", []⟩] ∧
      (ordersRead.store.table.locksOf 1).map Lock.name = [⟨"orders", []⟩, ⟨"bills", []⟩] ∧
      KeepsOrder ((readersWaiting.store.table.entry ⟨"users", []⟩).granted.map Lock.owner)
        ((ordersRead.store.table.entry ⟨"users", []⟩).granted.map Lock.owner) [2, 3] := by
  have patient : (opened {} ∅).Patient readersBehindWriter := by decide +kernel
  have idle : ¬readersWaiting.store.table.Waiting 1 := by decide +kernel
  have ofWriter : (ordersGrants.filter fun lock => lock.owner == 1).map Lock.name =
      [⟨"orders", []⟩] := by decide +kernel
  have onUsers : (ordersGrants.filter fun lock => lock.name == ⟨"users", []⟩).map Lock.owner =
      [2, 3] := by decide +kernel
  have grants : ((readersWaiting.store.table.call 1 readsOrders).toOption.map
      fun done => done.grants 1 readsOrders) = some ordersGrants := by decide +kernel
  cases passed : readersWaiting.store.table.call 1 readsOrders with
  | error =>
      rw [passed] at grants
      cases grants
  | ok done =>
      simp only [passed, Except.toOption, Option.map_some, Option.some.injEq] at grants
      have kept := order_kept_afterCalls {} ∅ readersBehindWriter patient 1 readsOrders idle
      obtain ⟨_, ofTransactions, onResources⟩ := kept.2 done passed
      rw [grants, ← readersWaiting, ← ordersRead] at ofTransactions onResources
      rw [← ofWriter, ← onUsers]
      exact ⟨by decide +kernel, ofTransactions 1, by decide +kernel, onResources _⟩

end System

end Granularity
