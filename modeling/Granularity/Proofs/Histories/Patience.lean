import Granularity.Proofs.Histories.Order
import Granularity.Proofs.Table.Waiting

/-!
Calls of transactions that wait for their requests.

Nothing in the lock table keeps a transaction with a request in a queue from making further calls;
it is the transaction that does not, since it is suspended.  `System.Patient` says so of a sequence
of calls.  What holds at the start, and survives every call of a transaction that does not wait,
holds after such a sequence; the tickets of the calls tell its history.
-/

namespace Granularity

namespace Table

variable {table : Table} {owner : TransactionId} {call : Call} {done : Section}

/-- Whatever a call serves has stood in a queue. -/
theorem queued_of_served (passed : table.call owner call = .ok done) {request : Request}
    (member : request ∈ done.served) : ∃ name, request ∈ table.queueOf name := by
  cases parked : done.parked with
  | true =>
      obtain ⟨_, _, _, _, nobody⟩ := enqueued_of_parked passed parked
      rw [nobody] at member
      cases member
  | false =>
      obtain ⟨start, names, serves, _, served⟩ := servesFrom_of_not_parked passed parked
      rw [served] at member
      obtain ⟨name, stands⟩ := (served_drain start names).queued_of_mem member
      exact ⟨name, queueOf_servesFrom serves name ▸ stands⟩

/-- Whoever makes a call without waiting is not served by it. -/
theorem caller_not_served (idle : ¬table.Waiting owner)
    (passed : table.call owner call = .ok done) :
    owner ∉ done.served.map fun request => request.lock.owner := by
  intro member
  obtain ⟨request, served, owned⟩ := List.mem_map.mp member
  obtain ⟨name, stands⟩ := queued_of_served passed served
  exact idle ⟨name, request, stands, owned⟩

/-- Only the caller and those who are served have other modes than before. -/
theorem Sound.modeOf_call (sound : table.Sound) (passed : table.call owner call = .ok done)
    {other : TransactionId} (notCaller : other ≠ owner)
    (notServed : other ∉ done.served.map fun request => request.lock.owner) :
    done.table.modeOf other = table.modeOf other := by
  cases parked : done.parked with
  | true =>
      obtain ⟨request, side, _, left, _⟩ := enqueued_of_parked passed parked
      rw [left, modeOf_enqueue]
  | false =>
      obtain ⟨start, names, serves, left, served⟩ := servesFrom_of_not_parked passed parked
      rw [left, ← sound.modeOf_servesFrom serves notCaller]
      rw [served] at notServed
      exact (sound.servesFrom serves).modeOf_served (served_drain start names) notServed

namespace SingleFile

/-- Whom a call that is not parked leaves waiting. -/
theorem waiting_of_not_parked (single : table.SingleFile)
    (passed : table.call owner call = .ok done) (free : done.parked = false)
    {other : TransactionId} :
    done.table.Waiting other ↔
      table.Waiting other ∧ other ∉ done.served.map fun request => request.lock.owner := by
  obtain ⟨start, names, serves, left, served⟩ := servesFrom_of_not_parked passed free
  rw [left, served, (single.servesFrom serves).waiting_served (served_drain start names),
    waiting_congr (queueOf_servesFrom serves)]

/-- Whom a call leaves waiting: its own transaction if it is parked, and everybody else who has
waited and is not served. -/
theorem waiting_call (single : table.SingleFile) (passed : table.call owner call = .ok done)
    {other : TransactionId} :
    done.table.Waiting other ↔ done.parked = true ∧ owner = other ∨
      table.Waiting other ∧ other ∉ done.served.map fun request => request.lock.owner := by
  cases parked : done.parked with
  | true =>
      obtain ⟨request, side, poses, left, nobody⟩ := enqueued_of_parked passed parked
      rw [left, waiting_enqueue, poses.owner_eq, nobody, eq_comm]
      simp
  | false =>
      rw [single.waiting_of_not_parked passed parked]
      simp

/-- A call serves nobody twice. -/
theorem nodup_served_call (single : table.SingleFile)
    (passed : table.call owner call = .ok done) :
    (done.served.map fun request => request.lock.owner).Nodup := by
  cases parked : done.parked with
  | true =>
      obtain ⟨_, _, _, _, served⟩ := enqueued_of_parked passed parked
      rw [served]
      exact .nil
  | false =>
      obtain ⟨start, names, serves, _, served⟩ := servesFrom_of_not_parked passed parked
      rw [served]
      exact (single.servesFrom serves).nodup_served (served_drain start names)

/-- A call of a transaction that does not wait gives nobody a second request. -/
theorem after_call (single : table.SingleFile) (idle : ¬table.Waiting owner)
    (passed : table.call owner call = .ok done) : done.table.SingleFile := by
  cases parked : done.parked with
  | true =>
      obtain ⟨request, side, poses, left, _⟩ := enqueued_of_parked passed parked
      rw [left]
      exact single.enqueue side (poses.owner_eq ▸ idle)
  | false =>
      obtain ⟨start, names, serves, left, _⟩ := servesFrom_of_not_parked passed parked
      rw [left]
      exact (single.servesFrom serves).of_sublist (served_drain start names).queueOf_sublist

end SingleFile

end Table

namespace System

/-- Nobody makes one of the calls, in order, while it has a request in a queue. -/
def Patient (system : System) : List (TransactionId × Call) → Prop
  | [] => True
  | made :: calls =>
      ¬system.store.table.Waiting made.1 ∧ (system.carryOut made.1 made.2).2.Patient calls

instance decidablePatient (system : System) :
    (calls : List (TransactionId × Call)) → Decidable (system.Patient calls)
  | [] => isTrue trivial
  | made :: calls =>
      have := decidablePatient (system.carryOut made.1 made.2).2 calls
      inferInstanceAs (Decidable (_ ∧ _))

/-- What holds at the start, and survives every call that passes its checks and is made by a
transaction that does not wait, holds after patient calls; the tickets of those that have passed
tell what has happened. -/
theorem Patient.induction {motive : System → List Ticket → Prop}
    (calls : List (TransactionId × Call)) {system : System} (patient : system.Patient calls)
    (step : ∀ (system : System) (tickets : List Ticket) (ticket : Ticket),
      (ticket.owner, ticket.call) ∈ calls → ticket.before = system.store.table →
      ¬ticket.before.Waiting ticket.owner → motive system tickets →
      motive (system.carryOut ticket.owner ticket.call).2 (tickets ++ [ticket]))
    (number : Nat) {tickets : List Ticket} (start : motive system tickets) :
    motive (system.afterCalls calls) (tickets ++ system.store.table.tickets number calls) := by
  induction calls generalizing system number tickets with
  | nil =>
      rw [Table.tickets, List.append_nil]
      exact start
  | cons made calls inductionHypothesis =>
      obtain ⟨idle, patient⟩ := patient
      have laterStep := fun system tickets ticket member =>
        step system tickets ticket (List.mem_cons_of_mem made member)
      rw [Table.tickets, afterCalls, List.foldl_cons]
      split
      · next refused =>
          rw [carryOut_of_refused refused] at patient ⊢
          exact inductionHypothesis patient laterStep (number + 1) start
      · next done passed =>
          let ticket : Ticket := ⟨number, made.1, made.2, system.store.table, done, passed⟩
          have table : (system.carryOut made.1 made.2).2.store.table = done.table := by
            rw [store_carryOut passed]
          have next := step system tickets ticket List.mem_cons_self rfl idle start
          have later := inductionHypothesis patient laterStep (number + 1) next
          rw [table, List.append_assoc] at later
          exact later

/-- The same for calls that begin with an empty table. -/
theorem Patient.induction_opened {motive : System → List Ticket → Prop} {config : Config}
    {handles : Std.ExtTreeMap TransactionId Handle} (calls : List (TransactionId × Call))
    (patient : (opened config handles).Patient calls)
    (step : ∀ (system : System) (tickets : List Ticket) (ticket : Ticket),
      (ticket.owner, ticket.call) ∈ calls → ticket.before = system.store.table →
      ¬ticket.before.Waiting ticket.owner → motive system tickets →
      motive (system.carryOut ticket.owner ticket.call).2 (tickets ++ [ticket]))
    (start : motive (opened config handles) []) :
    motive ((opened config handles).afterCalls calls) (Table.empty.tickets 0 calls) :=
  patient.induction calls step 0 start

end System

end Granularity
