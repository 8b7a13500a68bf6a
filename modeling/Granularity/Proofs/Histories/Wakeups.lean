import Granularity.Proofs.Histories.Patience
import Granularity.Proofs.Table.Rounds

/-!
Flags and queues.

A call that is parked raises the flag of its owner, and the request stays in a queue; some other
call takes the request out again, perhaps after serving many others, and lowers the flag.  The
tickets of the calls tell which signals each handle has had: two for every request that was put in a
queue, and one for every request that was granted from there.  As long as nobody who waits makes a
call, the flag of a transaction is up exactly while it has a request in a queue.
-/

namespace Granularity

namespace Handle

/-- The handle after some signals in order. -/
def afterAll (handle : Handle) (given : List Signal) : Handle :=
  given.foldl after handle

@[simp] theorem afterAll_nil (handle : Handle) : handle.afterAll [] = handle := rfl

theorem afterAll_append (handle : Handle) (earlier later : List Signal) :
    handle.afterAll (earlier ++ later) = (handle.afterAll earlier).afterAll later :=
  List.foldl_append

/-- The flag of a handle that has been told to wait is up. -/
theorem blocked_afterAll_wait (handle : Handle) :
    (handle.afterAll [.prepareBlock, .block]).blocked = true := by
  cases handle <;> rfl

/-- A handle that has been woken, however often, is open. -/
theorem blocked_afterAll_unblock (handle : Handle) (count : Nat) :
    (handle.afterAll (List.replicate (count + 1) .unblock)).blocked = false := by
  rw [List.replicate_succ', afterAll_append]
  cases handle.afterAll (List.replicate count .unblock) <;> rfl

/-- A recorder counts the signals that it gets, and no signal makes a recorder of a gate. -/
theorem recorder_of_afterAll {handle : Handle} {given : List Signal} {recorder : Recorder}
    (counts : handle.afterAll given = .counting recorder) :
    ∃ before, handle = .counting before ∧
      recorder.blockCalls = before.blockCalls + given.count .block ∧
      recorder.unblockCalls = before.unblockCalls + given.count .unblock := by
  induction given generalizing handle with
  | nil => exact ⟨recorder, counts, rfl, rfl⟩
  | cons signal given inductionHypothesis =>
      obtain ⟨middle, next, blocks, unblocks⟩ := inductionHypothesis counts
      cases handle with
      | suspending gate =>
          cases signal with
          | prepareBlock => cases next
          | unblock => cases next
          | block =>
              rw [after, block?] at next
              split at next
              · cases next
              · cases next
      | counting before =>
          refine ⟨before, rfl, ?_⟩
          cases signal with
          | prepareBlock =>
              cases next
              simp [blocks, unblocks]
          | block =>
              cases next
              simp [blocks, unblocks, Nat.add_comm, Nat.add_left_comm]
          | unblock =>
              cases next
              simp [blocks, unblocks, Nat.add_comm, Nat.add_left_comm]

end Handle

/-! ### The signals of a call -/

namespace Ticket

/-- The call has put a request of the transaction in a queue. -/
def queues (ticket : Ticket) (owner : TransactionId) : Bool :=
  ticket.done.parked && ticket.owner == owner

/-- The waiting requests of the transaction that the call has granted, in order. -/
def servedTo (ticket : Ticket) (owner : TransactionId) : List Request :=
  ticket.done.served.filter fun request => request.lock.owner == owner

/-- The signals that the call gives to the handle of the transaction: to wait, if it has put a
request of the transaction in a queue, and to go on, once for each of its requests granted. -/
def signals (ticket : Ticket) (owner : TransactionId) : List Signal :=
  (if ticket.queues owner then [.prepareBlock, .block] else []) ++
    List.replicate (ticket.servedTo owner).length .unblock

theorem count_block_signals (ticket : Ticket) (owner : TransactionId) :
    (ticket.signals owner).count .block = if ticket.queues owner then 1 else 0 := by
  rw [signals, List.count_append, List.count_replicate]
  cases ticket.queues owner <;> rfl

theorem count_unblock_signals (ticket : Ticket) (owner : TransactionId) :
    (ticket.signals owner).count .unblock = (ticket.servedTo owner).length := by
  rw [signals, List.count_append, List.count_replicate_self]
  cases ticket.queues owner <;> simp

end Ticket

namespace Table

/-- The requests of a transaction in all queues. -/
def requestsOf (table : Table) (owner : TransactionId) : List Request :=
  table.entries.toList.flatMap fun pair =>
    pair.2.queue.filter fun request => request.lock.owner == owner

/-- If only one of different keys gives anything, that is all. -/
theorem flatMap_eq_of_nodup_keys {α : Type} {pairs : List (ResourceName × Entry)}
    (distinct : (pairs.map Prod.fst).Nodup) (give : ResourceName × Entry → List α)
    {pair : ResourceName × Entry} (stored : pair ∈ pairs)
    (others : ∀ other ∈ pairs, other.1 ≠ pair.1 → give other = []) :
    pairs.flatMap give = give pair := by
  induction pairs with
  | nil => cases stored
  | cons first rest inductionHypothesis =>
      rw [List.map_cons, List.nodup_cons] at distinct
      rw [List.flatMap_cons]
      rcases List.mem_cons.mp stored with rfl | later
      · have nothing : rest.flatMap give = [] :=
          List.flatMap_eq_nil_iff.mpr fun other member =>
            others other (List.mem_cons_of_mem _ member) fun same =>
              distinct.1 (same ▸ List.mem_map_of_mem member)
        rw [nothing, List.append_nil]
      · have nothing : give first = [] :=
          others first List.mem_cons_self fun same =>
            distinct.1 (same ▸ List.mem_map_of_mem later)
        rw [nothing, List.nil_append]
        exact inductionHypothesis distinct.2 later fun other member =>
          others other (List.mem_cons_of_mem first member)

/-- Where no two requests have the same owner, each transaction has one at most. -/
theorem length_filter_owner_le_one {requests : List Request}
    (nodup : (requests.map fun request => request.lock.owner).Nodup) (owner : TransactionId) :
    (requests.filter fun request => request.lock.owner == owner).length ≤ 1 := by
  have once := List.nodup_iff_count_le_one.mp nodup owner
  rw [List.count, List.countP_map, List.countP_eq_length_filter] at once
  exact once

namespace SingleFile

variable {table : Table} (single : table.SingleFile) {owner : TransactionId}
include single

/-- In a queue in which it waits, a transaction has just one request. -/
theorem filter_queueOf_eq {name : ResourceName} {request : Request}
    (member : request ∈ table.queueOf name) (owned : request.lock.owner = owner) :
    ((table.queueOf name).filter fun request => request.lock.owner == owner) = [request] := by
  have once := length_filter_owner_le_one (single.owners_nodup name) owner
  have stands : request ∈ (table.queueOf name).filter fun request =>
      request.lock.owner == owner :=
    List.mem_filter.mpr ⟨member, beq_iff_eq.mpr owned⟩
  obtain ⟨only, listed⟩ := List.length_eq_one_iff.mp
    (Nat.le_antisymm once (List.length_pos_of_mem stands))
  rw [listed, List.mem_singleton] at stands
  rw [listed, stands]

/-- Whoever waits has one request, over all resources. -/
theorem requestsOf_eq (waits : table.Waiting owner) :
    ∃ request, table.requestsOf owner = [request] := by
  obtain ⟨name, request, member, owned⟩ := waits
  obtain ⟨pair, stored, rfl⟩ := List.mem_map.mp
    (mem_entries_of_queueOf_ne_nil (List.ne_nil_of_mem member))
  have alone := single.filter_queueOf_eq member owned
  rw [queueOf_of_mem_entries stored] at alone
  refine ⟨request, ?_⟩
  rw [requestsOf, flatMap_eq_of_nodup_keys table.entries_keys_nodup _ stored ?_, alone]
  intro other otherStored apart
  refine List.filter_eq_nil_iff.mpr fun second secondMember secondOwned => ?_
  rw [← queueOf_of_mem_entries otherStored] at secondMember
  exact apart (single.one_queue pair.1 request member other.1 second secondMember
    (owned.trans (beq_iff_eq.mp secondOwned).symm)).symm

theorem length_requestsOf [Decidable (table.Waiting owner)] :
    (table.requestsOf owner).length = if table.Waiting owner then 1 else 0 := by
  split
  · next waits =>
      obtain ⟨request, only⟩ := single.requestsOf_eq waits
      rw [only, List.length_singleton]
  · next idle =>
      refine List.length_eq_zero_iff.mpr (List.flatMap_eq_nil_iff.mpr fun pair stored => ?_)
      refine List.filter_eq_nil_iff.mpr fun request member owned => ?_
      rw [← queueOf_of_mem_entries stored] at member
      exact idle ⟨pair.1, request, member, beq_iff_eq.mp owned⟩

end SingleFile

end Table

namespace System

theorem getElem?_modify_handle (handles : Std.ExtTreeMap TransactionId Handle)
    (changed owner : TransactionId) (change : Handle → Handle) :
    (handles.modify changed change)[owner]? =
      if changed = owner then handles[owner]?.map change else handles[owner]? := by
  rw [Std.ExtTreeMap.getElem?_modify]
  by_cases same : changed = owner
  · subst same
    rw [if_pos rfl, if_pos Std.ReflCmp.compare_self]
  · rw [if_neg same, if_neg fun equal => same (Std.LawfulEqCmp.eq_of_compare equal)]

/-- Waking the owners of some requests gives each one signal for every request of its own. -/
theorem handle_wake (system : System) (served : List Request) (owner : TransactionId) :
    (system.wake served).handles[owner]? = system.handles[owner]?.map fun handle =>
      handle.afterAll
        (List.replicate (served.countP fun request => request.waiter == owner) .unblock) := by
  induction served generalizing system with
  | nil => simp [wake]
  | cons request rest inductionHypothesis =>
      have woken : system.wake (request :: rest) = wake
          { system with handles := system.handles.modify request.waiter Handle.unblock } rest := rfl
      rw [woken, inductionHypothesis, getElem?_modify_handle, List.countP_cons]
      by_cases own : request.waiter = owner
      · simp only [own, if_true, beq_self_eq_true, List.replicate_succ, Option.map_map]
        rfl
      · simp only [own, if_false, beq_iff_eq, Nat.add_zero]

/-- A transaction that is blocked gets a signal, and nobody else does. -/
theorem handle_block (system : System) (waiter owner : TransactionId) :
    (system.block waiter).2.handles[owner]? =
      if waiter = owner then system.handles[owner]?.map fun handle => handle.after .block
      else system.handles[owner]? := by
  rw [block]
  split
  · next missing =>
      by_cases same : waiter = owner
      · subst same
        rw [if_pos rfl, missing, Option.map_none]
      · rw [if_neg same]
  · next handle found =>
      by_cases same : waiter = owner
      · subst same
        rw [if_pos rfl, found, Option.map_some, Handle.after]
        split
        · next stuck => rw [found, stuck, Option.getD_none]
        · next after free => rw [Std.ExtTreeMap.getElem?_insert_self, free, Option.getD_some]
      · rw [if_neg same]
        split
        · rfl
        · rw [Std.ExtTreeMap.getElem?_insert,
            if_neg fun equal => same (Std.LawfulEqCmp.eq_of_compare equal)]

/-- The handles after a call that passes have had the signals of the call. -/
theorem handle_carryOut {system : System} (sound : system.store.table.Sound) (ticket : Ticket)
    (before : ticket.before = system.store.table) (owner : TransactionId) :
    (system.carryOut ticket.owner ticket.call).2.handles[owner]? =
      system.handles[owner]?.map fun handle => handle.afterAll (ticket.signals owner) := by
  have passed := ticket.passed
  rw [before] at passed
  rw [carryOut_of_passed passed, Ticket.signals, Ticket.queues, Ticket.servedTo]
  cases parked : ticket.done.parked with
  | true =>
      obtain ⟨_, _, _, _, nobody⟩ := Table.enqueued_of_parked passed parked
      rw [if_pos rfl, handle_block, nobody, Bool.true_and, wake, enter, parked]
      simp only [List.foldl_nil, if_true, getElem?_modify_handle, beq_iff_eq, List.filter_nil,
        List.length_nil, List.replicate_zero, List.append_nil]
      split
      · rw [Option.map_map]
        rfl
      · simp
  | false =>
      have own : ∀ request ∈ ticket.done.served, request.waiter = request.lock.owner :=
        fun request member =>
          have ⟨_, stands⟩ := Table.queued_of_served passed member
          (sound.coherent _ request stands).waiter_eq
      have count : (ticket.done.served.countP fun request => request.waiter == owner) =
          (ticket.done.served.filter fun request => request.lock.owner == owner).length := by
        rw [← List.countP_eq_length_filter]
        exact List.countP_congr fun request member => by rw [own request member]
      rw [if_neg Bool.false_ne_true, handle_wake, enter, parked, count]
      rfl

end System

/-! ### Flag and queue after a call -/

namespace Ticket

variable (ticket : Ticket) {owner : TransactionId}

theorem mem_servedOwners :
    owner ∈ (ticket.done.served.map fun request => request.lock.owner) ↔
      ticket.servedTo owner ≠ [] := by
  rw [servedTo, ne_eq, List.filter_eq_nil_iff, List.mem_map]
  simp

/-- A call that puts a request in a queue serves nobody. -/
theorem servedTo_of_queues (queued : ticket.queues owner = true) (other : TransactionId) :
    ticket.servedTo other = [] := by
  rw [queues, Bool.and_eq_true] at queued
  obtain ⟨_, _, _, _, nobody⟩ := Table.enqueued_of_parked ticket.passed queued.1
  rw [servedTo, nobody, List.filter_nil]

/-- The flag is up after a call if the call has raised it, or if it was up and the call has granted
nothing to the transaction. -/
theorem blocked_afterAll_signals (handle : Handle) :
    (handle.afterAll (ticket.signals owner)).blocked = true ↔
      ticket.queues owner = true ∨ handle.blocked = true ∧ ticket.servedTo owner = [] := by
  rw [signals]
  cases queued : ticket.queues owner with
  | true =>
      rw [servedTo_of_queues ticket queued]
      simpa using Handle.blocked_afterAll_wait handle
  | false =>
      rw [if_neg Bool.false_ne_true, List.nil_append]
      cases served : ticket.servedTo owner with
      | nil => simp
      | cons first rest =>
          rw [List.length_cons, Handle.blocked_afterAll_unblock]
          simp

variable {ticket}

theorem owner_of_queues (queued : ticket.queues owner = true) : ticket.owner = owner := by
  rw [queues, Bool.and_eq_true, beq_iff_eq] at queued
  exact queued.2

/-- A transaction waits after a call if the call has put a request of it in a queue, or if it has
waited before and the call has granted nothing to it. -/
theorem waiting_after (single : ticket.before.SingleFile) :
    ticket.done.table.Waiting owner ↔
      ticket.queues owner = true ∨ ticket.before.Waiting owner ∧ ticket.servedTo owner = [] := by
  rw [single.waiting_call ticket.passed, mem_servedOwners, not_not, queues, Bool.and_eq_true,
    beq_iff_eq]

/-- A call grants a transaction one request at most, and only if it waits. -/
theorem servedTo_nil_or (single : ticket.before.SingleFile) (owner : TransactionId) :
    ticket.servedTo owner = [] ∨
      (ticket.servedTo owner).length = 1 ∧ ticket.before.Waiting owner := by
  by_cases nobody : ticket.servedTo owner = []
  · exact Or.inl nobody
  · right
    have once := Table.length_filter_owner_le_one (single.nodup_served_call ticket.passed) owner
    refine ⟨Nat.le_antisymm once (List.length_pos_iff.mpr nobody), ?_⟩
    obtain ⟨request, member, rfl⟩ := List.mem_map.mp (ticket.mem_servedOwners.mpr nobody)
    obtain ⟨name, stands⟩ := Table.queued_of_served ticket.passed member
    exact ⟨name, request, stands, rfl⟩

/-- What a call puts in queues and what it takes out make up for who waits. -/
theorem queued_add_waiting (single : ticket.before.SingleFile)
    (idle : ¬ticket.before.Waiting ticket.owner) (owner : TransactionId) :
    (if ticket.queues owner then 1 else 0) + (if ticket.before.Waiting owner then 1 else 0) =
      (ticket.servedTo owner).length + if ticket.done.table.Waiting owner then 1 else 0 := by
  rw [if_congr (waiting_after single) rfl rfl]
  cases queued : ticket.queues owner with
  | true =>
      simp [servedTo_of_queues ticket queued, owner_of_queues queued ▸ idle]
  | false =>
      rcases servedTo_nil_or single owner with nobody | ⟨once, waits⟩
      · simp [nobody]
      · have some : ticket.servedTo owner ≠ [] := List.length_pos_iff.mp (once ▸ Nat.one_pos)
        simp [once, waits, some]

end Ticket

namespace System

theorem isBlocked_iff {system : System} {owner : TransactionId} :
    system.isBlocked owner = true ↔
      ∃ handle, system.handles[owner]? = some handle ∧ handle.blocked = true := by
  rw [isBlocked]
  split
  · next handle found => simp [found]
  · next missing => simp [missing]

/-- What calls keep up, if nobody makes one while waiting: flags tell who waits, and recorders have
counted the requests that the tickets tell of. -/
structure Attentive (handles : Std.ExtTreeMap TransactionId Handle) (system : System)
    (tickets : List Ticket) : Prop where
  sound : system.store.table.Sound
  single : system.store.table.SingleFile
  known : ∀ owner : TransactionId, system.handles[owner]?.isSome = handles[owner]?.isSome
  flagged : ∀ owner, system.isBlocked owner = true ↔ system.store.table.Waiting owner
  counted : ∀ (owner : TransactionId) (recorder : Recorder),
    system.handles[owner]? = some (.counting recorder) →
    recorder.blockCalls = tickets.countP (fun ticket => ticket.queues owner) ∧
      recorder.unblockCalls = (tickets.flatMap fun ticket => ticket.servedTo owner).length
  balanced : ∀ owner, (tickets.countP fun ticket => ticket.queues owner) =
    (tickets.flatMap fun ticket => ticket.servedTo owner).length +
      if system.store.table.Waiting owner then 1 else 0

namespace Attentive

variable {handles : Std.ExtTreeMap TransactionId Handle}

/-- At the start nobody waits and nothing has been counted. -/
theorem opened (config : Config)
    (fresh : ∀ (owner : TransactionId) (handle : Handle), handles[owner]? = some handle →
      handle = .newRecorder ∨ handle = .newGate) :
    Attentive handles (System.opened config handles) [] where
  sound := .empty
  single := .empty
  known _ := rfl
  flagged owner := by
    refine iff_of_false (fun up => ?_) (Table.not_waiting_empty owner)
    obtain ⟨handle, found, blocked⟩ := isBlocked_iff.mp up
    rcases fresh owner handle found with rfl | rfl
    · cases blocked
    · cases blocked
  counted owner recorder found := by
    rcases fresh owner _ found with new | new
    · cases new
      exact ⟨rfl, rfl⟩
    · cases new
  balanced owner := by
    rw [System.opened, Store.fresh, if_neg (Table.not_waiting_empty owner)]
    rfl

variable {system : System} {tickets : List Ticket}

/-- A call of a known transaction that does not wait keeps it up. -/
theorem step (attentive : Attentive handles system tickets) (ticket : Ticket)
    (known : ticket.owner ∈ handles) (before : ticket.before = system.store.table)
    (idle : ¬ticket.before.Waiting ticket.owner) :
    Attentive handles (system.carryOut ticket.owner ticket.call).2 (tickets ++ [ticket]) := by
  have passed := ticket.passed
  rw [before] at passed
  have single : ticket.before.SingleFile := before ▸ attentive.single
  have handleAfter := handle_carryOut attentive.sound ticket before
  have tableAfter : (system.carryOut ticket.owner ticket.call).2.store.table =
      ticket.done.table := by
    rw [store_carryOut passed]
  constructor
  case sound =>
    rw [tableAfter]
    exact attentive.sound.call passed
  case single =>
    rw [tableAfter]
    exact single.after_call idle ticket.passed
  case known =>
    intro owner
    rw [handleAfter, Option.isSome_map, attentive.known]
  case flagged =>
    intro owner
    rw [isBlocked_iff, tableAfter, Ticket.waiting_after single, handleAfter, before,
      ← attentive.flagged, isBlocked_iff]
    simp only [Option.map_eq_some_iff, exists_exists_and_eq_and, ticket.blocked_afterAll_signals]
    constructor
    · intro ⟨handle, found, up⟩
      rcases up with queued | ⟨blocked, nobody⟩
      · exact Or.inl queued
      · exact Or.inr ⟨⟨handle, found, blocked⟩, nobody⟩
    · intro waits
      rcases waits with queued | ⟨⟨handle, found, blocked⟩, nobody⟩
      · -- The caller is known, so there is a flag to raise.
        have isSome : system.handles[owner]?.isSome = true := by
          rw [attentive.known, ← Ticket.owner_of_queues queued]
          exact Std.ExtTreeMap.isSome_getElem?_iff_mem.mpr known
        obtain ⟨handle, found⟩ := Option.isSome_iff_exists.mp isSome
        exact ⟨handle, found, Or.inl queued⟩
      · exact ⟨handle, found, Or.inr ⟨blocked, nobody⟩⟩
  case counted =>
    intro owner recorder found
    rw [handleAfter, Option.map_eq_some_iff] at found
    obtain ⟨handle, found, counts⟩ := found
    obtain ⟨earlier, rfl, blocks, unblocks⟩ := Handle.recorder_of_afterAll counts
    obtain ⟨blocksBefore, unblocksBefore⟩ := attentive.counted owner earlier found
    rw [Ticket.count_block_signals] at blocks
    rw [Ticket.count_unblock_signals] at unblocks
    constructor
    · rw [blocks, blocksBefore, List.countP_append, List.countP_singleton]
    · rw [unblocks, unblocksBefore, List.flatMap_append, List.length_append,
        List.flatMap_singleton]
  case balanced =>
    intro owner
    have step := Ticket.queued_add_waiting single idle owner
    have earlier := attentive.balanced owner
    rw [← before] at earlier
    rw [tableAfter, List.countP_append, List.countP_singleton, List.flatMap_append,
      List.length_append, List.flatMap_singleton]
    omega

/-- Each request that a call serves wakes its owner once, and a call wakes nobody else. -/
theorem handle_after_call (attentive : Attentive handles system tickets) {owner : TransactionId}
    {call : Call} {done : Section} (passed : system.store.table.call owner call = .ok done)
    (other : TransactionId) :
    (system.carryOut owner call).2.handles[other]? = system.handles[other]?.map fun handle =>
      if other ∈ done.served.map (fun request => request.lock.owner) then handle.unblock
      else if done.parked = true ∧ owner = other then handle.prepareBlock.after .block
      else handle := by
  let ticket : Ticket := ⟨0, owner, call, system.store.table, done, passed⟩
  rw [handle_carryOut attentive.sound ticket rfl]
  refine congrArg (Option.map · _) (funext fun handle => ?_)
  rw [if_congr ticket.mem_servedOwners rfl rfl, Ticket.signals]
  have single : ticket.before.SingleFile := attentive.single
  rcases Ticket.servedTo_nil_or single other with nobody | ⟨once, _⟩
  · rw [if_neg (not_not.mpr nobody), nobody, List.length_nil, List.replicate_zero,
      List.append_nil, Ticket.queues]
    simp only [Bool.and_eq_true, beq_iff_eq]
    split
    · rfl
    · rfl
  · have some : ticket.servedTo other ≠ [] := List.length_pos_iff.mp (once ▸ Nat.one_pos)
    have free : ¬ticket.queues other = true :=
      fun queued => some (ticket.servedTo_of_queues queued other)
    rw [if_pos some, if_neg free, once]
    rfl

end Attentive

/-- Blocked means queued.  Let every transaction that makes a call have a handle, all handles be new
at the start, and nobody make a call while it waits.  Then the flag of a transaction is up exactly
while it has a request in a queue, and it has just one such request over all resources.  A recorder
has counted a wait for each request of its transaction that was ever put in a queue, and a wake-up
for each that was granted from there; the two differ by the requests still in queues.  A call wakes
exactly the owners of the requests that it grants from queues, each once, and raises the flag of its
own transaction if it is parked. -/
theorem blocked_iff_queued_afterCalls (config : Config)
    (handles : Std.ExtTreeMap TransactionId Handle)
    (fresh : ∀ (owner : TransactionId) (handle : Handle), handles[owner]? = some handle →
      handle = .newRecorder ∨ handle = .newGate)
    (calls : List (TransactionId × Call)) (known : ∀ made ∈ calls, made.1 ∈ handles)
    (patient : (opened config handles).Patient calls) :
    let system := (opened config handles).afterCalls calls
    let table := system.store.table
    let tickets := Table.empty.tickets 0 calls
    (∀ owner, (system.isBlocked owner = true ↔ table.Waiting owner) ∧
      (table.Waiting owner → ∃ request, table.requestsOf owner = [request])) ∧
    (∀ (owner : TransactionId) (recorder : Recorder),
      system.handles[owner]? = some (.counting recorder) →
        recorder.blockCalls = tickets.countP (fun ticket => ticket.queues owner) ∧
          recorder.unblockCalls = (tickets.flatMap fun ticket => ticket.servedTo owner).length ∧
          recorder.blockCalls = recorder.unblockCalls + (table.requestsOf owner).length) ∧
    ∀ owner call done, table.call owner call = .ok done →
      (done.served.map fun request => request.lock.owner).Nodup ∧
      ∀ other : TransactionId, (system.carryOut owner call).2.handles[other]? =
        system.handles[other]?.map fun handle =>
          if other ∈ done.served.map (fun request => request.lock.owner) then handle.unblock
          else if done.parked = true ∧ owner = other then handle.prepareBlock.after .block
          else handle := by
  intro system table tickets
  have attentive : Attentive handles system tickets := by
    refine patient.induction_opened (motive := Attentive handles) calls ?_ (.opened config fresh)
    intro system tickets ticket member before idle attentive
    exact attentive.step ticket (known _ member) before idle
  refine ⟨?_, ?_, ?_⟩
  · intro owner
    exact ⟨attentive.flagged owner, attentive.single.requestsOf_eq⟩
  · intro owner recorder found
    obtain ⟨blocks, unblocks⟩ := attentive.counted owner recorder found
    refine ⟨blocks, unblocks, ?_⟩
    rw [blocks, unblocks, attentive.single.length_requestsOf]
    exact attentive.balanced owner
  · intro owner call done passed
    exact ⟨attentive.single.nodup_served_call passed, attentive.handle_after_call passed⟩

/-- Two recorders and a gate, all new. -/
def threeHandles : Std.ExtTreeMap TransactionId Handle :=
  ((∅ : Std.ExtTreeMap TransactionId Handle).insert 1 .newRecorder).insert 2 .newRecorder
    |>.insert 3 .newGate

/-- A writer lets two readers go on and then has to wait for them. -/
def writerAfterReaders : List (TransactionId × Call) :=
  [(1, .acquire ⟨"table", []⟩ .X), (2, .acquire ⟨"table", []⟩ .S), (3, .acquire ⟨"table", []⟩ .S),
    (1, .release ⟨"table", []⟩), (1, .acquire ⟨"table", []⟩ .X)]

theorem writer_blocked_by_readers :
    (opened {} threeHandles).Patient writerAfterReaders ∧
      ((opened {} threeHandles).afterCalls writerAfterReaders).isBlocked 1 = true ∧
      ((opened {} threeHandles).afterCalls writerAfterReaders).isBlocked 3 = false := by
  have fresh : ∀ (owner : TransactionId) (handle : Handle), threeHandles[owner]? = some handle →
      handle = .newRecorder ∨ handle = .newGate := by
    intro owner handle found
    simp only [threeHandles, Std.ExtTreeMap.getElem?_insert, Std.ExtTreeMap.getElem?_empty] at found
    grind
  have known : ∀ made ∈ writerAfterReaders, made.1 ∈ threeHandles := by decide +kernel
  have patient : (opened {} threeHandles).Patient writerAfterReaders := by decide +kernel
  have waits : ((opened {} threeHandles).afterCalls writerAfterReaders).store.table.Waiting 1 := by
    decide +kernel
  have free : ¬((opened {} threeHandles).afterCalls writerAfterReaders).store.table.Waiting 3 := by
    decide +kernel
  have told := (blocked_iff_queued_afterCalls {} threeHandles fresh _ known patient).1
  refine ⟨patient, (told 1).1.mpr waits, ?_⟩
  exact Bool.eq_false_iff.mpr fun up => free ((told 3).1.mp up)

end System

end Granularity
