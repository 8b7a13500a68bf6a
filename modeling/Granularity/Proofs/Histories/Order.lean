import Granularity.Proofs.Calls

/-!
First come, first served.

A request does not say which call it comes from, so every call that passes its checks gets a ticket,
numbered by its place among all calls.  For one resource, a `Ledger` keeps the tickets of those that
wait and of those that have been granted their locks, as the sections of the calls tell: a ticket
joins the end of the queue at which its request is put, and the tickets in front leave as requests
are served.

The calls to acquire are granted in the order in which they were made.  Promotions and exchanges
stand in front of all of them, the latest in front, and nothing else ever overtakes a call to
acquire.
-/

namespace Granularity

/-- The call asks for a lock; all calls do but releases. -/
def Call.asks : Call → Bool
  | .acquire .. | .promote .. | .exchange .. => true
  | .release _ => false

/-- The call is a plain acquisition. -/
def Call.isAcquire : Call → Bool
  | .acquire .. => true
  | .release .. | .promote .. | .exchange .. => false

/-- A call that has passed its checks: its place among all calls, the table on which it was made,
and what it has done. -/
structure Ticket where
  number : Nat
  owner : TransactionId
  call : Call
  before : Table
  done : Section
  passed : before.call owner call = .ok done

namespace Ticket

/-- The call is a plain acquisition. -/
def isAcquire (ticket : Ticket) : Bool :=
  ticket.call.isAcquire

/-- The call asks for a lock on the name. -/
def asksFor (ticket : Ticket) (name : ResourceName) : Bool :=
  ticket.call.asks && ticket.call.name == name

/-- The lock that the call asks for. -/
def lock (ticket : Ticket) : Lock :=
  ticket.call.lock ticket.owner

/-- The ticket alone if it asks for a lock on the name, and else no ticket. -/
def own (ticket : Ticket) (name : ResourceName) : List Ticket :=
  if ticket.asksFor name then [ticket] else []

/-- The requests for locks on the name that were granted from a queue, in order. -/
def servedOn (ticket : Ticket) (name : ResourceName) : List Request :=
  ticket.done.served.filter fun request => request.lock.name == name

/-- The locks on the name that the call has led to, in the order of granting: its own, unless it
waits, and those of the requests served. -/
def grantsOn (ticket : Ticket) (name : ResourceName) : List Lock :=
  (if ticket.done.parked then [] else (ticket.own name).map lock) ++
    (ticket.servedOn name).map Request.lock

/-- The first may stand in front of the second in a queue.  Behind a plain acquisition stand only
later ones; and of two other requests, the later stands in front. -/
def MayPrecede (front back : Ticket) : Prop :=
  (front.isAcquire = true → back.isAcquire = true ∧ front.number < back.number) ∧
    (front.isAcquire = false → back.isAcquire = false → back.number < front.number)

theorem filter_asksFor (ticket : Ticket) (name : ResourceName) :
    ([ticket].filter fun ticket => ticket.asksFor name) = ticket.own name := by
  rw [List.filter_singleton, own]
  cases ticket.asksFor name <;> rfl

theorem mem_own {ticket other : Ticket} {name : ResourceName} :
    other ∈ ticket.own name ↔ other = ticket ∧ ticket.asksFor name = true := by
  rw [own]
  split <;> simp [*]

theorem pairwise_own {relation : Ticket → Ticket → Prop} (ticket : Ticket) (name : ResourceName) :
    (ticket.own name).Pairwise relation := by
  rw [own]
  split <;> simp

theorem MayPrecede.back {front back : Ticket} (acquires : back.isAcquire = true)
    (later : front.number < back.number) : front.MayPrecede back :=
  ⟨fun _ => ⟨acquires, later⟩, fun _ jumps => by simp [acquires] at jumps⟩

theorem MayPrecede.front {front back : Ticket} (jumps : ¬front.isAcquire = true)
    (earlier : back.number < front.number) : front.MayPrecede back :=
  ⟨fun acquires => absurd acquires jumps, fun _ _ => earlier⟩

/-- A plain acquisition asks for a lock on its name only. -/
theorem asksFor_of_isAcquire {ticket : Ticket} {name : ResourceName}
    (acquires : ticket.isAcquire = true) :
    ticket.asksFor name = true ↔ ticket.call.name = name := by
  have asks : ticket.call.asks = true := by
    rw [isAcquire] at acquires
    cases called : ticket.call with
    | acquire => rfl
    | release => simp [called, Call.isAcquire] at acquires
    | promote => rfl
    | exchange => rfl
  simp [asksFor, asks]

end Ticket

/-- The tickets of the calls that pass among some, made one after the other and numbered from
`number` on. -/
def Table.tickets : Nat → Table → List (TransactionId × Call) → List Ticket
  | _, _, [] => []
  | number, table, made :: calls =>
      match answer : table.call made.1 made.2 with
      | .error _ => tickets (number + 1) table calls
      | .ok done =>
          ⟨number, made.1, made.2, table, done, answer⟩ :: tickets (number + 1) done.table calls

/-- The tickets for one resource: those that wait, front of the queue first, and those that have
been granted, in order. -/
structure Ledger where
  waiting : List Ticket
  granted : List Ticket

namespace Ledger

/-- The ledger of a resource after a call.  The call's own ticket joins the queue if the call has to
wait, and else it is granted, followed by the tickets in front, one for each request served. -/
def after (name : ResourceName) (ledger : Ledger) (ticket : Ticket) : Ledger :=
  if ticket.done.parked then
    { waiting :=
        if ticket.isAcquire then ledger.waiting ++ ticket.own name
        else ticket.own name ++ ledger.waiting
      granted := ledger.granted }
  else
    let leaving := (ticket.servedOn name).length
    { waiting := ledger.waiting.drop leaving
      granted := ledger.granted ++ ticket.own name ++ ledger.waiting.take leaving }

/-- The ledger of a resource after some calls. -/
def of (name : ResourceName) (tickets : List Ticket) : Ledger :=
  tickets.foldl (after name) ⟨[], []⟩

end Ledger

/-! ### What a call does to a queue -/

namespace Table

variable {table : Table}

/-- Serving takes requests off the front of each queue, in order. -/
theorem Served.queueOf_eq {final : Table} {served : List Request}
    (chain : Served table served final) (sound : table.Sound) (name : ResourceName) :
    table.queueOf name =
      (served.filter fun request => request.lock.name == name) ++ final.queueOf name := by
  induction chain with
  | nobody => rfl
  | @front table final other request rest served queued room _ inductionHypothesis =>
      have named : request.lock.name = other := (sound.front queued).2.1
      have later := inductionHypothesis (sound.apply_front queued room)
      rw [queueOf_apply, queueOf_setQueue] at later
      -- Only the queue that the request leaves gets shorter.
      by_cases same : other = name
      · subst same
        rw [if_pos rfl] at later
        rw [queued, List.filter_cons_of_pos (by simpa using named), List.cons_append, ← later]
      · rw [if_neg same] at later
        rw [List.filter_cons_of_neg (by simpa [named] using same), ← later]

variable {owner : TransactionId} {call : Call} {done : Section}

/-- A call that does not wait takes the requests that it serves off the front of each queue. -/
theorem queueOf_of_not_parked (sound : table.Sound) (passed : table.call owner call = .ok done)
    (free : done.parked = false) (name : ResourceName) :
    table.queueOf name =
      (done.served.filter fun request => request.lock.name == name) ++
        done.table.queueOf name := by
  cases passes_call passed with
  | released _ removed left served =>
      rw [left, served, ← (served_drain _ _).queueOf_eq (sound.remove removed),
        queueOf_remove removed]
  | granted poses admits left served =>
      rw [left, served, ← (served_drain _ _).queueOf_eq (sound.apply poses.locked admits.1),
        queueOf_apply]
  | parked _ _ _ _ waits => cases waits.symm.trans free

theorem Poses.asks {request : Request} {side : QueueEnd}
    (poses : table.Poses owner call request side) : call.asks = true := by
  cases poses <;> rfl

theorem Poses.side_eq {request : Request} {side : QueueEnd}
    (poses : table.Poses owner call request side) :
    side = if call.isAcquire then .back else .front := by
  cases poses <;> rfl

theorem name_lock (owner : TransactionId) (call : Call) : (call.lock owner).name = call.name := by
  cases call <;> rfl

/-- A call that waits puts one request at an end of its queue: at the back if it is a plain
acquisition, and else at the front. -/
theorem queueOf_of_parked (passed : table.call owner call = .ok done)
    (waits : done.parked = true) (name : ResourceName) :
    call.asks = true ∧ done.served = [] ∧ ∃ request, request.lock = call.lock owner ∧
      done.table.queueOf name =
        if call.name = name then
          if call.isAcquire then table.queueOf name ++ [request] else request :: table.queueOf name
        else table.queueOf name := by
  cases passes_call passed with
  | released _ _ _ _ free => cases free.symm.trans waits
  | granted _ _ _ _ free => cases free.symm.trans waits
  | @parked request side poses _ left served =>
      refine ⟨poses.asks, served, request, poses.lock_eq, ?_⟩
      have named : request.lock.name = call.name := by rw [poses.lock_eq, name_lock]
      rw [left, enqueue_eq, queueOf_setQueue, named]
      split
      · next same =>
          subst same
          rw [poses.side_eq]
          split
          · rfl
          · rfl
      · rfl

/-- A plain acquisition that does not wait finds nobody waiting. -/
theorem queueOf_of_acquired (passed : table.call owner call = .ok done)
    (acquires : call.isAcquire = true) (free : done.parked = false) :
    table.queueOf call.name = [] := by
  cases passes_call passed with
  | released called =>
      rw [called] at acquires
      cases acquires
  | @granted request side poses admits =>
      have back : side = .back := by rw [poses.side_eq, if_pos acquires]
      have named : request.lock.name = call.name := by rw [poses.lock_eq, name_lock]
      rw [← named]
      exact admits.2 back
  | parked _ _ _ _ waits => cases waits.symm.trans free

end Table

/-- A call that waits lets its ticket join the queue, if the queue is the one it asks for. -/
theorem Ticket.locks_of_parked {ticket : Ticket} (waits : ticket.done.parked = true)
    (name : ResourceName) :
    (ticket.done.table.queueOf name).map Request.lock =
      if ticket.isAcquire then
        (ticket.before.queueOf name).map Request.lock ++ (ticket.own name).map Ticket.lock
      else (ticket.own name).map Ticket.lock ++ (ticket.before.queueOf name).map Request.lock := by
  obtain ⟨asks, _, request, posed, queued⟩ := Table.queueOf_of_parked ticket.passed waits name
  simp only [own, asksFor, isAcquire, asks, queued, Bool.true_and, beq_iff_eq]
  split
  · split
    · rw [List.map_append, List.map_singleton, List.map_singleton, posed, Ticket.lock]
    · rw [List.map_cons, List.map_singleton, posed, Ticket.lock, List.singleton_append]
  · simp

/-! ### The ledger is right -/

/-- A ledger that agrees with the table about one resource, once the calls with some tickets have
been made, the next of which is numbered `next` at least. -/
structure Ledger.Agrees (ledger : Ledger) (name : ResourceName) (table : Table) (next : Nat)
    (tickets : List Ticket) : Prop where
  queue : ledger.waiting.map Ticket.lock = (table.queueOf name).map Request.lock
  grants : ledger.granted.map Ticket.lock = tickets.flatMap fun ticket => ticket.grantsOn name
  everyone : (ledger.granted ++ ledger.waiting).Perm
    (tickets.filter fun ticket => ticket.asksFor name)
  earlier : ∀ ticket ∈ ledger.waiting, ticket.number < next
  ordered : ledger.waiting.Pairwise Ticket.MayPrecede
  in_turn : (tickets.filter fun ticket => ticket.asksFor name).filter Ticket.isAcquire =
    (ledger.granted ++ ledger.waiting).filter Ticket.isAcquire

namespace Ledger.Agrees

variable {ledger : Ledger} {name : ResourceName} {tickets : List Ticket}

theorem empty (name : ResourceName) : Agrees ⟨[], []⟩ name .empty 0 [] := by
  constructor <;> simp [Table.queueOf]

/-- A later number may be given to the next call. -/
theorem mono {table : Table} {next later : Nat} (agrees : ledger.Agrees name table next tickets)
    (bound : next ≤ later) : ledger.Agrees name table later tickets where
  queue := agrees.queue
  grants := agrees.grants
  everyone := agrees.everyone
  earlier ticket member := Nat.lt_of_lt_of_le (agrees.earlier ticket member) bound
  ordered := agrees.ordered
  in_turn := agrees.in_turn

/-! What the ledger of the calls so far says once the next ticket is in. -/

variable {ticket : Ticket} (agrees : ledger.Agrees name ticket.before ticket.number tickets)
include agrees

/-- Whoever is in the ledger stays in it, and the next ticket joins them if it asks for a lock. -/
theorem everyone_after :
    ((ledger.after name ticket).granted ++ (ledger.after name ticket).waiting).Perm
      ((tickets ++ [ticket]).filter fun ticket => ticket.asksFor name) := by
  have joined : ((ledger.after name ticket).granted ++ (ledger.after name ticket).waiting).Perm
      (ledger.granted ++ (ledger.waiting ++ ticket.own name)) := by
    rw [Ledger.after]
    split
    · split
      · exact .refl _
      · exact List.perm_append_comm.append_left _
    · rw [List.append_assoc, List.take_append_drop, List.append_assoc]
      exact List.perm_append_comm.append_left _
  rw [List.filter_append, Ticket.filter_asksFor]
  rw [← List.append_assoc] at joined
  exact joined.trans (agrees.everyone.append_right _)

/-- A plain acquisition goes ahead only when nobody waits. -/
theorem nobody_or_not_acquiring (free : ticket.done.parked = false) :
    ledger.waiting = [] ∨ (ticket.own name).filter Ticket.isAcquire = [] := by
  refine or_iff_not_imp_right.mpr fun acquiring => ?_
  obtain ⟨other, member⟩ := List.exists_mem_of_ne_nil _ acquiring
  obtain ⟨own, acquires⟩ := List.mem_filter.mp member
  obtain ⟨rfl, asks⟩ := Ticket.mem_own.mp own
  have nobody := Table.queueOf_of_acquired other.passed acquires free
  rw [(Ticket.asksFor_of_isAcquire acquires).mp asks] at nobody
  have queue := agrees.queue
  rw [nobody, List.map_nil] at queue
  exact List.map_eq_nil_iff.mp queue

/-- The plain acquisitions stay in turn: the next one comes last. -/
theorem in_turn_after :
    ((tickets ++ [ticket]).filter fun ticket => ticket.asksFor name).filter Ticket.isAcquire =
      ((ledger.after name ticket).granted ++ (ledger.after name ticket).waiting).filter
        Ticket.isAcquire := by
  rw [List.filter_append, Ticket.filter_asksFor, List.filter_append, agrees.in_turn,
    ← List.filter_append, Ledger.after]
  split
  · split
    · rw [List.append_assoc]
    · next jumps =>
        have nothing : (ticket.own name).filter Ticket.isAcquire = [] := by
          refine List.filter_eq_nil_iff.mpr fun other own => ?_
          rw [(Ticket.mem_own.mp own).1]
          exact jumps
        simp only [List.filter_append, nothing, List.append_nil, List.nil_append]
  · next free =>
      -- Here the ticket stands in front of all that wait, which a plain acquisition may not.
      dsimp only
      rw [List.append_assoc (ledger.granted ++ _), List.take_append_drop]
      rcases agrees.nobody_or_not_acquiring (Bool.eq_false_iff.mpr free) with nobody | nothing
      · rw [nobody, List.append_nil, List.append_nil]
      · simp only [List.filter_append, nothing, List.append_nil]

/-- The end of the queue at which a ticket joins is the one that keeps the queue ordered. -/
theorem ordered_joined :
    (if ticket.isAcquire then ledger.waiting ++ ticket.own name
      else ticket.own name ++ ledger.waiting).Pairwise Ticket.MayPrecede := by
  split
  · next acquires =>
      refine List.pairwise_append.mpr ⟨agrees.ordered, Ticket.pairwise_own _ _, ?_⟩
      intro front waiting back own
      obtain ⟨rfl, _⟩ := Ticket.mem_own.mp own
      exact .back acquires (agrees.earlier front waiting)
  · next jumps =>
      refine List.pairwise_append.mpr ⟨Ticket.pairwise_own _ _, agrees.ordered, ?_⟩
      intro front own back waiting
      obtain ⟨rfl, _⟩ := Ticket.mem_own.mp own
      exact .front jumps (agrees.earlier back waiting)

/-- A call that does not wait keeps the ledger right. -/
theorem after_not_parked (sound : ticket.before.Sound) (free : ticket.done.parked = false) :
    (ledger.after name ticket).Agrees name ticket.done.table (ticket.number + 1)
      (tickets ++ [ticket]) := by
  have left : ticket.before.queueOf name =
      ticket.servedOn name ++ ticket.done.table.queueOf name :=
    Table.queueOf_of_not_parked sound ticket.passed free name
  -- The tickets in front are those of the requests served.
  have locks : ledger.waiting.map Ticket.lock = (ticket.servedOn name).map Request.lock ++
      (ticket.done.table.queueOf name).map Request.lock := by
    rw [agrees.queue, left, List.map_append]
  have unparked : ¬ticket.done.parked = true := Bool.eq_false_iff.mp free
  have everyone := agrees.everyone_after
  have in_turn := agrees.in_turn_after
  rw [Ledger.after, if_neg unparked] at everyone in_turn ⊢
  refine ⟨?queue, ?grants, everyone, ?earlier, agrees.ordered.drop, in_turn⟩
  case queue => rw [List.map_drop, locks, List.drop_left' (List.length_map _)]
  case grants =>
    rw [List.map_append, List.map_append, agrees.grants, List.map_take, locks,
      List.take_left' (List.length_map _), List.flatMap_append, List.flatMap_singleton,
      Ticket.grantsOn, if_neg unparked, List.append_assoc]
  case earlier =>
    intro waiter member
    exact Nat.lt_succ_of_lt (agrees.earlier waiter (List.mem_of_mem_drop member))

/-- A call that waits keeps the ledger right. -/
theorem after_parked (waits : ticket.done.parked = true) :
    (ledger.after name ticket).Agrees name ticket.done.table (ticket.number + 1)
      (tickets ++ [ticket]) := by
  have everyone := agrees.everyone_after
  have in_turn := agrees.in_turn_after
  rw [Ledger.after, if_pos waits] at everyone in_turn ⊢
  refine ⟨?queue, ?grants, everyone, ?earlier, agrees.ordered_joined, in_turn⟩
  case queue =>
    rw [Ticket.locks_of_parked waits name, apply_ite (List.map Ticket.lock), List.map_append,
      List.map_append, agrees.queue]
  case grants =>
    have nothing : ticket.grantsOn name = [] := by
      rw [Ticket.grantsOn, if_pos waits, Ticket.servedOn,
        (Table.queueOf_of_parked ticket.passed waits name).2.1]
      rfl
    rw [agrees.grants, List.flatMap_append, List.flatMap_singleton, nothing, List.append_nil]
  case earlier =>
    intro waiter member
    have either : waiter ∈ ledger.waiting ∨ waiter ∈ ticket.own name := by
      split at member
      · exact List.mem_append.mp member
      · exact (List.mem_append.mp member).symm
    rcases either with waiting | own
    · exact Nat.lt_succ_of_lt (agrees.earlier waiter waiting)
    · rw [(Ticket.mem_own.mp own).1]
      exact Nat.lt_succ_self _

/-- Every call that passes its checks keeps the ledger right. -/
theorem after (sound : ticket.before.Sound) :
    (ledger.after name ticket).Agrees name ticket.done.table (ticket.number + 1)
      (tickets ++ [ticket]) := by
  cases parked : ticket.done.parked with
  | true => exact agrees.after_parked parked
  | false => exact agrees.after_not_parked sound parked

end Ledger.Agrees

/-- Tickets are numbered upwards. -/
theorem Table.pairwise_tickets (calls : List (TransactionId × Call)) (number : Nat)
    (table : Table) :
    (∀ ticket ∈ table.tickets number calls, number ≤ ticket.number) ∧
      (table.tickets number calls).Pairwise fun first second => first.number < second.number := by
  induction calls generalizing number table with
  | nil => exact ⟨nofun, .nil⟩
  | cons made calls inductionHypothesis =>
      rw [tickets]
      split
      · obtain ⟨later, ascending⟩ := inductionHypothesis (number + 1) table
        exact ⟨fun ticket member => Nat.le_of_succ_le (later ticket member), ascending⟩
      · next done _ =>
          obtain ⟨later, ascending⟩ := inductionHypothesis (number + 1) done.table
          constructor
          · intro ticket member
            rcases List.mem_cons.mp member with rfl | member
            · exact Nat.le_refl _
            · exact Nat.le_of_succ_le (later ticket member)
          · exact .cons later ascending

namespace System

/-- Calls keep the ledger of a resource right. -/
theorem agrees_afterCalls (name : ResourceName) (calls : List (TransactionId × Call))
    {system : System} {ledger : Ledger} {number : Nat} {tickets : List Ticket}
    (sound : system.store.table.Sound)
    (agrees : ledger.Agrees name system.store.table number tickets) :
    ((system.store.table.tickets number calls).foldl (Ledger.after name) ledger).Agrees name
      (system.afterCalls calls).store.table (number + calls.length)
      (tickets ++ system.store.table.tickets number calls) := by
  induction calls generalizing system ledger number tickets with
  | nil =>
      rw [Table.tickets, List.append_nil]
      exact agrees
  | cons made calls inductionHypothesis =>
      rw [List.length_cons, Nat.add_comm calls.length, ← Nat.add_assoc, Table.tickets, afterCalls,
        List.foldl_cons]
      split
      · next refused =>
          rw [carryOut_of_refused refused]
          exact inductionHypothesis sound (agrees.mono (Nat.le_succ number))
      · next done passed =>
          let ticket : Ticket := ⟨number, made.1, made.2, system.store.table, done, passed⟩
          have table : (system.carryOut made.1 made.2).2.store.table = done.table := by
            rw [store_carryOut passed]
          have next : (ledger.after name ticket).Agrees name done.table (number + 1)
              (tickets ++ [ticket]) := agrees.after sound
          have nextSound := sound.call passed
          rw [← table] at next nextSound
          have later := inductionHypothesis nextSound next
          rw [table, List.append_assoc] at later
          exact later

/-- Plain acquisitions are served first come, first served, whatever calls have been made by
whomever.  The ledger of a resource knows the queue as it is and the locks as they have been
granted, and everybody who has asked for a lock is in it once.  The plain acquisitions among them
are granted in the order in which they were made; whoever comes before one that was made earlier is
a promotion or an exchange; and these stand in front of all plain acquisitions, the latest in
front.  A plain acquisition is granted at once only if nobody waits, and requests are granted from
a queue only front first. -/
theorem acquires_in_turn_afterCalls (config : Config)
    (handles : Std.ExtTreeMap TransactionId Handle) (calls : List (TransactionId × Call))
    (name : ResourceName) :
    let table := ((opened config handles).afterCalls calls).store.table
    let tickets := Table.empty.tickets 0 calls
    let asking := tickets.filter fun ticket => ticket.asksFor name
    let ledger := Ledger.of name tickets
    ledger.waiting.map Ticket.lock = (table.queueOf name).map Request.lock ∧
      (ledger.granted.map Ticket.lock = tickets.flatMap fun ticket => ticket.grantsOn name) ∧
      (ledger.granted ++ ledger.waiting).Perm asking ∧
      asking.filter Ticket.isAcquire =
        (ledger.granted ++ ledger.waiting).filter Ticket.isAcquire ∧
      ((ledger.granted ++ ledger.waiting).Pairwise fun first second =>
        second.isAcquire = true → second.number < first.number → first.isAcquire = false) ∧
      ledger.waiting.Pairwise Ticket.MayPrecede ∧
      ∀ owner call done, table.call owner call = .ok done → done.parked = false →
        (call.isAcquire = true → table.queueOf call.name = []) ∧
          table.queueOf name =
            (done.served.filter fun request => request.lock.name == name) ++
              done.table.queueOf name := by
  intro table tickets asking ledger
  have sound : table.Sound := sound_afterCalls config handles calls
  have agrees : ledger.Agrees name table (0 + calls.length) tickets :=
    @agrees_afterCalls name calls (opened config handles) _ _ _ .empty (.empty name)
  refine ⟨agrees.queue, agrees.grants, agrees.everyone, agrees.in_turn, ?_, agrees.ordered, ?_⟩
  · -- A list that ascends where it is filtered has no later acquisition before an earlier one.
    have ascending : (asking.filter Ticket.isAcquire).Pairwise fun first second =>
        first.number < second.number :=
      ((Table.pairwise_tickets calls 0 .empty).2.filter _).filter _
    rw [agrees.in_turn, List.pairwise_filter] at ascending
    refine ascending.imp fun {first second} inOrder later overtaken => ?_
    refine Bool.eq_false_iff.mpr fun earlier => ?_
    exact Nat.lt_asymm (inOrder earlier later) overtaken
  · intro owner call done passed free
    exact ⟨fun acquires => Table.queueOf_of_acquired passed acquires free,
      Table.queueOf_of_not_parked sound passed free name⟩

-- A promotion is put in front of an acquisition that waits.
example :
    let table : ResourceName := ⟨"table", []⟩
    let ledger := Ledger.of table (Table.empty.tickets 0
      [(1, .acquire table .S), (2, .acquire table .S), (3, .acquire table .X),
        (1, .promote table .X)])
    ledger.granted.map Ticket.number = [0, 1] ∧ ledger.waiting.map Ticket.number = [3, 2] := by
  decide

end System

end Granularity
