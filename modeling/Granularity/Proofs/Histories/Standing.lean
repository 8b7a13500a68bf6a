import Granularity.Proofs.Histories.Patience

/-!
What was checked when a request was put in a queue still holds when it is granted.

A call is checked when it is made, and its request may be granted much later, while another
transaction makes a call.  Nothing is checked again then: a release that has become void would be
skipped without a word, and a grant would replace whatever lock is there.  Neither happens as long
as nobody who waits makes a call.  The modes of a transaction change only by its own calls and by
the grants of its own requests, so the owner of a request that is granted holds just what it held
when it made its last call, and that is the call which left the request.
-/

namespace Granularity

/-! ### The last call of a transaction -/

namespace Ticket

/-- The ticket of the last call of a transaction. -/
def lastOf (owner : TransactionId) (tickets : List Ticket) : Option Ticket :=
  (tickets.filter fun ticket => ticket.owner == owner).getLast?

theorem lastOf_append_own (tickets : List Ticket) (ticket : Ticket) :
    lastOf ticket.owner (tickets ++ [ticket]) = some ticket := by
  simp [lastOf, List.filter_append]

theorem lastOf_append_other {owner : TransactionId} (tickets : List Ticket) {ticket : Ticket}
    (apart : ticket.owner ≠ owner) : lastOf owner (tickets ++ [ticket]) = lastOf owner tickets := by
  simp [lastOf, List.filter_append, apart]

end Ticket

/-! ### Checks that stand -/

/-- What the call was checked for before it left a request is so on the table `moment`.  The
transaction still has no lock on the name that it acquires; or it still holds the very mode that it
promotes; or it still holds every lock that it gave to be released, and no other on the name. -/
inductive Ticket.Stands (ticket : Ticket) (moment : Table) : Request → Prop where
  | acquire {name : ResourceName} {mode : Mode} (called : ticket.call = .acquire name mode)
      (free : moment.modeOf ticket.owner name = .NL) :
      Stands ticket moment ⟨ticket.owner, ⟨name, mode, ticket.owner⟩, []⟩
  | promote {name : ResourceName} {mode : Mode} (called : ticket.call = .promote name mode)
      (held : moment.modeOf ticket.owner name ≠ .NL)
      (same : moment.modeOf ticket.owner name = ticket.before.modeOf ticket.owner name)
      (covered : Mode.covers mode (moment.modeOf ticket.owner name) = true) :
      Stands ticket moment ⟨ticket.owner, ⟨name, mode, ticket.owner⟩, []⟩
  | exchange {name : ResourceName} {mode : Mode} {released : List ResourceName}
      {locks : List Lock} (called : ticket.call = .exchange name mode released)
      (recorded : ticket.before.locksOn ticket.owner released.eraseDups = .ok locks)
      (held : ∀ lock ∈ locks, lock.owner = ticket.owner ∧
        lock ∈ (moment.entry lock.name).granted)
      (listed : moment.modeOf ticket.owner name ≠ .NL → name ∈ released) :
      Stands ticket moment ⟨ticket.owner, ⟨name, mode, ticket.owner⟩, locks⟩

/-- The checks of a call stand as long as its transaction holds what it held then. -/
theorem Table.Poses.stands {ticket : Ticket} {request : Request} {side : QueueEnd} {moment : Table}
    (poses : ticket.before.Poses ticket.owner ticket.call request side)
    (sound : ticket.before.Sound) (momentSound : moment.Sound)
    (same : moment.modeOf ticket.owner = ticket.before.modeOf ticket.owner) :
    ticket.Stands moment request := by
  have given := poses.released_held
  generalize called : ticket.call = call at poses
  cases poses with
  | acquire free locked => exact .acquire called (same ▸ free)
  | promote held raised covered =>
      exact .promote called (same ▸ held) (congrFun same _) (same ▸ covered)
  | exchange listed recorded locked =>
      refine .exchange called recorded (fun lock member => ?_) (same ▸ listed)
      obtain ⟨owned, some, held⟩ :=
        sound.mem_locksOf_iff.mp (sound.lockOf?_eq_some.mp (given lock member)).1
      have listed := momentSound.mem_locksOf_iff.mpr ⟨owned, some, (congrFun same _).trans held⟩
      exact ⟨owned, ((momentSound.mirrored.mem_iff ..).mp listed).1⟩

namespace Ticket.Stands

variable {ticket : Ticket} {moment : Table} {request : Request}

theorem owner_eq (stands : ticket.Stands moment request) : request.lock.owner = ticket.owner := by
  cases stands <;> rfl

/-- The releases of the request are locks of its owner, still granted, on different names. -/
theorem released (stands : ticket.Stands moment request) :
    (request.released.map Lock.name).Nodup ∧ ∀ lock ∈ request.released,
      lock.owner = request.lock.owner ∧ lock ∈ (moment.entry lock.name).granted := by
  cases stands with
  | acquire => exact ⟨.nil, nofun⟩
  | promote => exact ⟨.nil, nofun⟩
  | exchange _ recorded held =>
      refine ⟨?_, held⟩
      rw [(Table.locksOn_eq_ok recorded).1]
      exact nodup_eraseDups _

/-- Every release of the request takes off just the lock that was recorded. -/
theorem takes_off (stands : ticket.Stands moment request) (sound : moment.Sound) {after : Table}
    {lock : Lock} (releases : moment.ReleasesAt request after lock) :
    ∃ fewer, after.remove lock.owner lock.name = some (lock, fewer) := by
  obtain ⟨distinct, held⟩ := stands.released
  have afterSound := sound.releasesAt releases
  cases releases with
  | @release earlier later lock listed apart =>
      obtain ⟨owned, granted⟩ := held lock (listed ▸ List.mem_append_right _ List.mem_cons_self)
      have owners : ∀ other ∈ earlier, other.owner = request.lock.owner := fun other member =>
        (held other (listed ▸ List.mem_append_left _ member)).1
      -- The releases before are on other names.
      have later : lock.name ∉ earlier.map Lock.name := by
        rw [listed, List.map_append, List.map_cons, List.nodup_middle, List.nodup_cons] at distinct
        exact fun member => distinct.1 (List.mem_append_left _ member)
      have kept := Table.Sound.modeOf_releases request.lock.name request.lock.owner lock.owner
        lock.name earlier moment [] sound owners
      rw [if_neg fun both => later both.2.2] at kept
      have locked := (sound.entries lock.name).granted_locked lock granted
      have mode : moment.modeOf lock.owner lock.name = lock.mode :=
        (sound.grants_iff locked).mp granted
      have still := (afterSound.grants_iff locked).mpr (kept.trans mode)
      have found := (afterSound.entries lock.name).lockOf?_eq_some.mpr ⟨still, rfl⟩
      cases removed : Table.remove _ lock.owner lock.name with
      | none =>
          rw [Table.remove_eq_none.mp removed] at found
          cases found
      | some both =>
          obtain ⟨other, fewer⟩ := both
          rw [(Table.remove_eq_some removed).1, Option.some.injEq] at found
          rw [found]
          exact ⟨fewer, rfl⟩

/-- A lock that is still there when the request is granted is the one that is promoted, or the call
has listed it to be released. -/
theorem replaces (stands : ticket.Stands moment request) (sound : moment.Sound)
    (held : (moment.afterReleases request).modeOf request.lock.owner request.lock.name ≠ .NL) :
    (∃ mode, ticket.call = .promote request.lock.name mode) ∨
      ∃ mode released, ticket.call = .exchange request.lock.name mode released ∧
        request.lock.name ∈ released := by
  have kept := Table.Sound.modeOf_releases request.lock.name request.lock.owner
    request.lock.owner request.lock.name request.released moment [] sound
    fun lock member => (stands.released.2 lock member).1
  rw [if_neg fun both => both.2.1 rfl] at kept
  rw [Table.afterReleases, kept] at held
  cases stands with
  | acquire _ free => exact absurd free held
  | promote called => exact Or.inl ⟨_, called⟩
  | exchange called _ _ listed => exact Or.inr ⟨_, _, called, listed held⟩

end Ticket.Stands

/-! ### The calls that have left the requests in queues -/

/-- The call has left the request in a queue, and its transaction has held the same locks since. -/
structure Ticket.Awaits (ticket : Ticket) (table : Table) (request : Request) : Prop where
  parked : ticket.done.parked = true
  sound : ticket.before.Sound
  posed : ∃ side, ticket.before.Poses ticket.owner ticket.call request side
  kept : table.modeOf ticket.owner = ticket.before.modeOf ticket.owner

namespace Ticket.Awaits

variable {ticket : Ticket} {table after : Table} {request : Request}

theorem owner_eq (awaits : ticket.Awaits table request) : request.lock.owner = ticket.owner := by
  obtain ⟨_, poses⟩ := awaits.posed
  exact poses.owner_eq

theorem of_kept (awaits : ticket.Awaits table request)
    (same : after.modeOf request.lock.owner = table.modeOf request.lock.owner) :
    ticket.Awaits after request :=
  { awaits with kept := by rw [← awaits.kept, ← awaits.owner_eq, same] }

theorem stands (awaits : ticket.Awaits table request) (sound : table.Sound) :
    ticket.Stands table request := by
  obtain ⟨_, poses⟩ := awaits.posed
  exact poses.stands awaits.sound sound awaits.kept

end Ticket.Awaits

namespace Table

variable {table : Table}

/-- Every request in a queue comes from the last call of its owner. -/
def Recalled (table : Table) (tickets : List Ticket) : Prop :=
  ∀ name, ∀ request ∈ table.queueOf name, ∃ ticket,
    Ticket.lastOf request.lock.owner tickets = some ticket ∧ ticket.Awaits table request

/-- A call changes neither the modes nor the last call of those who wait before it and after it. -/
theorem Recalled.after_call {tickets : List Ticket} (recalled : table.Recalled tickets)
    (sound : table.Sound) (single : table.SingleFile) {ticket : Ticket}
    (before : ticket.before = table) (idle : ¬table.Waiting ticket.owner) :
    ticket.done.table.Recalled (tickets ++ [ticket]) := by
  have passed := ticket.passed
  rw [before] at passed
  -- Whoever has waited and waits still has made no call and got nothing.
  have others : ∀ name, ∀ request ∈ table.queueOf name,
      request.lock.owner ∉ (ticket.done.served.map fun request => request.lock.owner) →
      ∃ last, Ticket.lastOf request.lock.owner (tickets ++ [ticket]) = some last ∧
        last.Awaits ticket.done.table request := by
    intro name request member notServed
    have apart : request.lock.owner ≠ ticket.owner :=
      fun same => idle ⟨name, request, member, same⟩
    obtain ⟨last, found, awaits⟩ := recalled name request member
    refine ⟨last, ?_, awaits.of_kept (sound.modeOf_call passed apart notServed)⟩
    rw [Ticket.lastOf_append_other tickets (Ne.symm apart), found]
  intro name request member
  cases parked : ticket.done.parked with
  | true =>
      obtain ⟨posed, side, poses, left, nobody⟩ := enqueued_of_parked passed parked
      rw [left, mem_queueOf_enqueue] at member
      rcases member with ⟨rfl, rfl⟩ | member
      · refine ⟨ticket, poses.owner_eq ▸ Ticket.lastOf_append_own tickets ticket, parked,
          before ▸ sound, ⟨side, before ▸ poses⟩, ?_⟩
        rw [left, modeOf_enqueue, before]
      · refine others name request member ?_
        rw [nobody]
        exact List.not_mem_nil
  | false =>
      obtain ⟨waits, notServed⟩ := (single.waiting_of_not_parked passed parked).mp
        ⟨name, request, member, rfl⟩
      have member : request ∈ table.queueOf name := by
        rw [queueOf_of_not_parked sound passed parked name]
        exact List.mem_append_right _ member
      exact others name request member notServed

/-! ### The moments at which requests are granted -/

/-- Serving requests one after the other comes past each of them. -/
theorem Served.front_of_mem {final : Table} {earlier later : List Request} {request : Request}
    (chain : Served table (earlier ++ request :: later) final) :
    ∃ middle name rest, Served table earlier middle ∧
      middle.queueOf name = request :: rest := by
  induction earlier generalizing table with
  | nil =>
      cases chain with
      | front queued => exact ⟨table, _, _, .nobody table, queued⟩
  | cons first earlier inductionHypothesis =>
      cases chain with
      | front queued room later =>
          obtain ⟨middle, name, rest, before, front⟩ := inductionHypothesis later
          exact ⟨middle, name, rest, .front queued room before, front⟩

variable {owner : TransactionId} {call : Call} {done : Section} {request : Request}

/-- Each request that a call serves is granted at some moment. -/
theorem exists_grantsAt (passed : table.call owner call = .ok done)
    (member : request ∈ done.served) : ∃ moment, table.GrantsAt owner call request moment := by
  cases parked : done.parked with
  | true =>
      obtain ⟨_, _, _, _, nobody⟩ := enqueued_of_parked passed parked
      rw [nobody] at member
      cases member
  | false =>
      obtain ⟨start, names, serves, _, served⟩ := servesFrom_of_not_parked passed parked
      rw [served] at member
      obtain ⟨earlier, later, order⟩ := List.append_of_mem member
      have chain := served_drain start names
      rw [order] at chain
      obtain ⟨middle, name, rest, before, front⟩ := chain.front_of_mem
      exact ⟨_, .queued serves order before front⟩

/-- A request that is granted is the call's own, or it has stood in a queue; in that case its owner
holds at the moment of granting what it held before the call. -/
theorem SingleFile.grantsAt_cases (single : table.SingleFile) (sound : table.Sound)
    (idle : ¬table.Waiting owner) {moment : Table}
    (grants : table.GrantsAt owner call request moment) :
    (moment = table ∧ ∃ side, table.Poses owner call request side) ∨
      (∃ name, request ∈ table.queueOf name) ∧
        moment.modeOf request.lock.owner = table.modeOf request.lock.owner := by
  cases grants with
  | own poses => exact Or.inl ⟨rfl, _, poses⟩
  | @queued start middle names earlier later rest request name serves order before front =>
      have stood : request ∈ start.queueOf name :=
        (before.queueOf_sublist name).subset (front ▸ List.mem_cons_self)
      rw [queueOf_servesFrom serves] at stood
      have apart : request.lock.owner ≠ owner := fun same => idle ⟨name, request, stood, same⟩
      refine Or.inr ⟨⟨name, stood⟩, ?_⟩
      -- Nobody is served twice, so nothing has been granted to the owner yet.
      have nodup := (single.servesFrom serves).nodup_served (served_drain start names)
      rw [order, List.map_append, List.map_cons, List.nodup_middle, List.nodup_cons] at nodup
      have notEarlier : request.lock.owner ∉ earlier.map fun request => request.lock.owner :=
        fun member => nodup.1 (List.mem_append_left _ member)
      rw [← sound.modeOf_servesFrom serves apart,
        ← (sound.servesFrom serves).modeOf_served before notEarlier]
      exact funext fun other => modeOf_setQueue ..

end Table

namespace System

/-- What was checked when a call was made still holds when its request is granted, whatever calls
have been made, if nobody makes one while it waits.  Let a further call pass its checks and grant
some requests: its own, unless it is a release, and those that it serves from queues, one after the
other.  When the turn comes to a request, the checks of the last call of its owner stand; if the
request comes from a queue, that call is the one which was parked.  So each release that the request
lists takes off just the lock that was recorded; and if the owner still has a lock on the name that
it asks for, the call is a promotion of this lock or lists it to be released. -/
theorem checks_stand_afterCalls (config : Config) (handles : Std.ExtTreeMap TransactionId Handle)
    (calls : List (TransactionId × Call)) (patient : (opened config handles).Patient calls) :
    let table := ((opened config handles).afterCalls calls).store.table
    ∀ owner call done, ¬table.Waiting owner → ∀ passed : table.call owner call = .ok done,
      let tickets := Table.empty.tickets 0 calls ++
        [⟨calls.length, owner, call, table, done, passed⟩]
      (∀ request ∈ done.served, ∃ moment, table.GrantsAt owner call request moment) ∧
      ∀ request moment, table.GrantsAt owner call request moment →
        ∃ ticket, Ticket.lastOf request.lock.owner tickets = some ticket ∧
          (request ∈ done.served → ticket.done.parked = true) ∧
          ticket.Stands moment request ∧
          (∀ after lock, moment.ReleasesAt request after lock →
            ∃ fewer, after.remove lock.owner lock.name = some (lock, fewer)) ∧
          ((moment.afterReleases request).modeOf request.lock.owner request.lock.name ≠ .NL →
            (∃ mode, ticket.call = .promote request.lock.name mode) ∨
              ∃ mode released, ticket.call = .exchange request.lock.name mode released ∧
                request.lock.name ∈ released) := by
  intro table owner call done idle passed tickets
  have kept : table.Sound ∧ table.SingleFile ∧ table.Recalled (Table.empty.tickets 0 calls) := by
    refine patient.induction_opened
      (motive := fun system tickets => system.store.table.Sound ∧ system.store.table.SingleFile ∧
        system.store.table.Recalled tickets) calls ?_ ⟨.empty, .empty, ?_⟩
    · intro system tickets ticket _ before idle ⟨sound, single, recalled⟩
      rw [before] at idle
      have passed := ticket.passed
      rw [before] at passed
      rw [store_carryOut passed]
      exact ⟨sound.call passed, single.after_call idle passed,
        recalled.after_call sound single before idle⟩
    · intro name request member
      exact absurd ⟨name, request, member, rfl⟩ (Table.not_waiting_empty request.lock.owner)
  obtain ⟨sound, single, recalled⟩ := kept
  refine ⟨fun request served => Table.exists_grantsAt passed served, ?_⟩
  intro request moment grants
  have momentSound := sound.grantsAt grants
  let own : Ticket := ⟨calls.length, owner, call, table, done, passed⟩
  suffices origin : ∃ ticket, Ticket.lastOf request.lock.owner tickets = some ticket ∧
      (request ∈ done.served → ticket.done.parked = true) ∧ ticket.Stands moment request by
    obtain ⟨ticket, last, parked, stands⟩ := origin
    exact ⟨ticket, last, parked, stands, fun after lock => stands.takes_off momentSound,
      stands.replaces momentSound⟩
  rcases single.grantsAt_cases sound idle grants with
    ⟨rfl, side, poses⟩ | ⟨⟨name, stood⟩, same⟩
  · have waitsNot : request ∉ done.served := by
      intro served
      obtain ⟨name, stood⟩ := Table.queued_of_served passed served
      exact idle ⟨name, request, stood, poses.owner_eq⟩
    have stands : own.Stands table request := poses.stands sound sound rfl
    refine ⟨own, ?_, fun served => absurd served waitsNot, stands⟩
    rw [stands.owner_eq]
    exact Ticket.lastOf_append_own _ own
  · obtain ⟨ticket, last, awaits⟩ := recalled name request stood
    refine ⟨ticket, ?_, fun _ => awaits.parked, (awaits.of_kept same).stands momentSound⟩
    have apart : own.owner ≠ request.lock.owner :=
      fun same => idle ⟨name, request, stood, same.symm⟩
    rw [Ticket.lastOf_append_other _ apart, last]

/-- A reader gives up one table for another, which a writer still has. -/
def readerMovesOn : List (TransactionId × Call) :=
  [(1, .acquire ⟨"first", []⟩ .S), (2, .acquire ⟨"second", []⟩ .X),
    (1, .exchange ⟨"second", []⟩ .S [⟨"first", []⟩])]

/-- When the writer is done, the reader still has the lock that it gives up. -/
theorem reader_still_holds :
    let table := ((opened {} ∅).afterCalls readerMovesOn).store.table
    let request : Request := ⟨1, ⟨⟨"second", []⟩, .S, 1⟩, [⟨⟨"first", []⟩, .S, 1⟩]⟩
    ∃ ticket moment, table.GrantsAt 2 (.release ⟨"second", []⟩) request moment ∧
      Ticket.Stands ticket moment request := by
  intro table request
  have patient : (opened {} ∅).Patient readerMovesOn := by decide +kernel
  have idle : ¬table.Waiting 2 := by decide +kernel
  have served : ((table.call 2 (.release ⟨"second", []⟩)).toOption.map Section.served) =
      some [request] := by
    decide +kernel
  cases passed : table.call 2 (.release ⟨"second", []⟩) with
  | error refusal =>
      rw [passed] at served
      cases served
  | ok done =>
      rw [passed] at served
      have member : request ∈ done.served := by
        rw [Option.some.inj served]
        exact List.mem_singleton_self request
      obtain ⟨moments, stands⟩ :=
        checks_stand_afterCalls {} ∅ readerMovesOn patient 2 _ done idle passed
      obtain ⟨moment, grants⟩ := moments request member
      obtain ⟨ticket, _, _, stands, _⟩ := stands request moment grants
      exact ⟨ticket, moment, grants, stands⟩

end System

end Granularity
