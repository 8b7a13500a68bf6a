import Granularity.Proofs.Table.Settled
import Granularity.System

/-!
Sequences of calls on the lock table.

Any transactions may make any calls in any order, waiting or not, and calls may fail; what a call
needs to hold afterwards is proved once for a single call and then carried along a sequence.  In
every state that a sequence reaches, granted locks do not conflict, and whoever waits at the front
of a queue waits for somebody.
-/

namespace Granularity

namespace System

/-- A manager in which nothing has happened yet, with handles for its transactions. -/
def opened (config : Config) (handles : Std.ExtTreeMap TransactionId Handle) : System :=
  ⟨.fresh config, handles, []⟩

/-- The manager after some calls in order, each with the transaction that makes it. -/
def afterCalls (system : System) (calls : List (TransactionId × Call)) : System :=
  calls.foldl (fun before made => (before.carryOut made.1 made.2).2) system

@[simp] theorem store_wake (system : System) (served : List Request) :
    (system.wake served).store = system.store := rfl

@[simp] theorem store_note (system : System) (notices : List Notice) :
    (system.note notices).store = system.store := rfl

theorem note_nil (system : System) : system.note [] = system := by
  rw [note, List.append_nil]

@[simp] theorem store_block (system : System) (owner : TransactionId) :
    (system.block owner).2.store = system.store := by
  rw [block]
  split
  · rfl
  · split
    · rfl
    · rfl

/-- A refused call changes nothing. -/
theorem carryOut_of_refused {system : System} {owner : TransactionId} {call : Call}
    {refusal : Refusal} (refused : system.store.table.call owner call = .error refusal) :
    system.carryOut owner call = (.refused refusal, system) := by
  rw [carryOut, refused]

theorem carryOut_of_passed {system : System} {owner : TransactionId} {call : Call}
    {done : Section} (passed : system.store.table.call owner call = .ok done) :
    system.carryOut owner call =
      if done.parked then ((system.enter owner done).wake done.served).block owner
      else (.returned, (system.enter owner done).wake done.served) := by
  rw [carryOut, passed]

theorem block_not_refused (system : System) (owner : TransactionId) (refusal : Refusal) :
    (system.block owner).1 ≠ .refused refusal := by
  rw [block]
  split
  · simp
  · split
    · simp
    · simp

theorem carryOut_not_refused {system : System} {owner : TransactionId} {call : Call}
    {done : Section} (passed : system.store.table.call owner call = .ok done) (refusal : Refusal) :
    (system.carryOut owner call).1 ≠ .refused refusal := by
  rw [carryOut_of_passed passed]
  split
  · exact block_not_refused _ owner refusal
  · nofun

/-- A call that passes its checks leaves the table of its section. -/
theorem store_carryOut {system : System} {owner : TransactionId} {call : Call} {done : Section}
    (passed : system.store.table.call owner call = .ok done) :
    (system.carryOut owner call).2.store = { system.store with table := done.table } := by
  rw [carryOut_of_passed passed]
  split
  · exact store_block _ owner
  · rfl

/-- What every call that passes its checks preserves, a call preserves. -/
theorem carryOut_induction {motive : Table → Prop}
    (step : ∀ table owner call done, motive table → Table.call table owner call = .ok done →
      motive done.table)
    {system : System} (owner : TransactionId) (call : Call) (start : motive system.store.table) :
    motive (system.carryOut owner call).2.store.table := by
  cases answer : system.store.table.call owner call with
  | error refusal =>
      rw [carryOut_of_refused answer]
      exact start
  | ok done =>
      rw [store_carryOut answer]
      exact step _ _ _ done start answer

/-- What holds of the table at the start and is preserved by every call that passes its checks
holds after any sequence of calls. -/
theorem afterCalls_induction {motive : Table → Prop} (system : System)
    (start : motive system.store.table)
    (step : ∀ table owner call done, motive table → Table.call table owner call = .ok done →
      motive done.table)
    (calls : List (TransactionId × Call)) : motive (system.afterCalls calls).store.table := by
  induction calls generalizing system with
  | nil => exact start
  | cons made calls inductionHypothesis =>
      exact inductionHypothesis (system.carryOut made.1 made.2).2
        (carryOut_induction step made.1 made.2 start)

theorem sound_afterCalls (config : Config) (handles : Std.ExtTreeMap TransactionId Handle)
    (calls : List (TransactionId × Call)) :
    ((opened config handles).afterCalls calls).store.table.Sound :=
  afterCalls_induction (motive := Table.Sound) _ .empty
    (fun _ _ _ _ sound passed => sound.call passed) calls

/-- Granted locks never conflict, whatever calls have been made by whomever: on every resource each
transaction has one lock at most, no lock is `NL` or on another name, and the locks of different
transactions are compatible. -/
theorem granted_compatible_afterCalls (config : Config)
    (handles : Std.ExtTreeMap TransactionId Handle) (calls : List (TransactionId × Call))
    (name : ResourceName) :
    (((opened config handles).afterCalls calls).store.table.entry name).Sound name :=
  (sound_afterCalls config handles calls).entries name

theorem settled_afterCalls (config : Config) (handles : Std.ExtTreeMap TransactionId Handle)
    (calls : List (TransactionId × Call)) :
    ((opened config handles).afterCalls calls).store.table.Settled := by
  refine (afterCalls_induction (motive := fun table => table.Sound ∧ table.Settled) _
    ⟨.empty, ?_⟩ ?_ calls).2
  · intro name
    exact .of_queue_nil (by rw [opened, Store.fresh, Table.entry_empty])
  · rintro table owner call done ⟨sound, settled⟩ passed
    exact ⟨sound.call passed, settled.call sound passed⟩

/-- No request waits that could be granted: whoever stands at the front of a queue is kept waiting
by a lock of another transaction.  So nobody waits for a resource on which nothing is granted, and
nobody waits at all when nothing is granted anywhere. -/
theorem front_blocked_afterCalls (config : Config)
    (handles : Std.ExtTreeMap TransactionId Handle) (calls : List (TransactionId × Call)) :
    let table := ((opened config handles).afterCalls calls).store.table
    (∀ name request rest, table.queueOf name = request :: rest →
      ∃ lock ∈ (table.entry name).granted, lock.owner ≠ request.lock.owner ∧
        Mode.compatible request.lock.mode lock.mode = false) ∧
    (∀ name, (table.entry name).granted = [] → table.queueOf name = []) ∧
    ((∀ name, (table.entry name).granted = []) → ∀ name, table.queueOf name = []) := by
  intro table
  have settled : table.Settled := settled_afterCalls config handles calls
  have nobody : ∀ name, (table.entry name).granted = [] → table.queueOf name = [] :=
    fun name nothing => (settled name).queue_eq_nil nothing
  refine ⟨?_, nobody, fun nothing name => nobody name (nothing name)⟩
  intro name request rest queued
  exact Entry.hasRoom_eq_false.mp (settled name request rest queued)

end System

end Granularity
