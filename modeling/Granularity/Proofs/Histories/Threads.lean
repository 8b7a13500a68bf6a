import Granularity.Proofs.Calls
import Mathlib.Logic.Function.Basic

/-!
Transactions that run side by side.

A transaction that waits is suspended in two phases.  Its flag is raised in the section that puts
the request in a queue; it blocks only after the section, and in between others may take their
turns.  So a request may be granted in the section of another transaction before the owner blocks,
and the wake-up, which comes after that section, may also come before.

Here a call is taken apart into these steps, and the steps of any number of transactions are
carried out in any order.  If nobody comes between the steps of a call, they come to what
`System.carryOut` does in one go.
-/

namespace Granularity

/-- How far a transaction has got in a call. -/
inductive Phase where
  /-- It makes no call. -/
  | idle
  /-- The section is over.  The owners of some requests have to be woken; then the transaction
  blocks if the call was parked, and else the call returns. -/
  | waking (call : Call) (left : List Request) (parked : Bool)
  /-- The transaction is blocked. -/
  | blocked (call : Call)

namespace Phase

/-- The requests whose owners the transaction still has to wake. -/
def left : Phase → List Request
  | waking _ left _ => left
  | idle | blocked _ => []

/-- The transaction still has to wake another one. -/
def Owes (phase : Phase) (owner : TransactionId) : Prop :=
  ∃ request ∈ phase.left, request.waiter = owner

/-- The call of the transaction, if it has been parked. -/
def parked? : Phase → Option Call
  | waking call _ true | blocked call => some call
  | idle | waking _ _ false => none

theorem parked?_waking {call other : Call} {left : List Request} {parked : Bool} :
    (waking call left parked).parked? = some other ↔ parked = true ∧ call = other := by
  cases parked <;> simp [parked?]

end Phase

/-- A step of a transaction. -/
inductive Step where
  /-- It begins a call and carries out the section. -/
  | enter (owner : TransactionId) (call : Call)
  /-- It wakes the owner of the next request that was granted in the section. -/
  | deliver (owner : TransactionId)
  /-- It blocks. -/
  | block (owner : TransactionId)
  /-- Its call returns. -/
  | leave (owner : TransactionId)

/-- A manager with transactions that run side by side. -/
structure Threads where
  system : System
  phase : TransactionId → Phase

/-- Whoever blocks returns at once, or stays blocked and leaves the manager as it is. -/
theorem System.block_returned_or (system : System) (owner : TransactionId) :
    (system.block owner).1 = .returned ∨ system.block owner = (.suspended, system) := by
  rw [block]
  split
  · exact Or.inl rfl
  · split
    · exact Or.inr rfl
    · exact Or.inl rfl

namespace Threads

/-- Nothing has happened yet, and some transactions are there, each with a gate. -/
def opened (config : Config) (owners : List TransactionId) : Threads where
  system := owners.foldl (fun system owner => system.enrol owner .newGate) (.fresh config)
  phase _ := .idle

/-- A transaction gets further in its call and leaves the manager in another state. -/
def proceed (threads : Threads) (owner : TransactionId) (phase : Phase) (system : System) :
    Threads :=
  ⟨system, Function.update threads.phase owner phase⟩

/-- Carry out a step.  A step that is not the next one of its transaction changes nothing, and a
call that is refused is over at once. -/
def step (threads : Threads) : Step → Threads
  | .enter owner call =>
      match threads.phase owner, threads.system.store.table.call owner call with
      | .idle, .ok done =>
          if owner ∈ threads.system.handles then
            threads.proceed owner (.waking call done.served done.parked)
              (threads.system.enter owner done)
          else threads
      | _, _ => threads
  | .deliver owner =>
      match threads.phase owner with
      | .waking call (request :: left) parked =>
          threads.proceed owner (.waking call left parked) (threads.system.wake [request])
      | _ => threads
  | .block owner =>
      match threads.phase owner with
      | .waking call [] true => threads.proceed owner (.blocked call) threads.system
      | _ => threads
  | .leave owner =>
      match threads.phase owner with
      | .waking _ [] false => threads.proceed owner .idle threads.system
      | .blocked _ =>
          match threads.system.block owner with
          | (.returned, system) => threads.proceed owner .idle system
          | _ => threads
      | _ => threads

/-- Carry out some steps in order. -/
def after (threads : Threads) (steps : List Step) : Threads :=
  steps.foldl step threads

/-- A request of the transaction has been granted, and the wake-up is still to come. -/
def AwaitsWakeup (threads : Threads) (owner : TransactionId) : Prop :=
  ∃ other, (threads.phase other).Owes owner

/-- What a step comes down to. -/
inductive Moved (threads : Threads) : Threads → Prop where
  | stayed : Moved threads threads
  | entered {owner : TransactionId} {call : Call} {done : Section}
      (idle : threads.phase owner = .idle) (known : owner ∈ threads.system.handles)
      (passed : threads.system.store.table.call owner call = .ok done) :
      Moved threads (threads.proceed owner (.waking call done.served done.parked)
        (threads.system.enter owner done))
  | delivered {owner : TransactionId} {call : Call} {request : Request} {left : List Request}
      {parked : Bool} (waking : threads.phase owner = .waking call (request :: left) parked) :
      Moved threads (threads.proceed owner (.waking call left parked)
        (threads.system.wake [request]))
  | blocked {owner : TransactionId} {call : Call}
      (waking : threads.phase owner = .waking call [] true) :
      Moved threads (threads.proceed owner (.blocked call) threads.system)
  | returned {owner : TransactionId} {call : Call}
      (waking : threads.phase owner = .waking call [] false) :
      Moved threads (threads.proceed owner .idle threads.system)
  | resumed {owner : TransactionId} {call : Call} {system : System}
      (blocked : threads.phase owner = .blocked call)
      (free : threads.system.block owner = (.returned, system)) :
      Moved threads (threads.proceed owner .idle system)

theorem moved_step (threads : Threads) (taken : Step) :
    threads.Moved (threads.step taken) := by
  cases taken with
  | enter owner call =>
      rw [step]
      split
      · next done idle passed =>
          split
          · next known => exact .entered idle known passed
          · exact .stayed
      · exact .stayed
  | deliver owner =>
      rw [step]
      split
      · next waking => exact .delivered waking
      · exact .stayed
  | block owner =>
      rw [step]
      split
      · next waking => exact .blocked waking
      · exact .stayed
  | leave owner =>
      rw [step]
      split
      · next waking => exact .returned waking
      · next blocked =>
          split
          · next free => exact .resumed blocked free
          · exact .stayed
      · exact .stayed

section

variable {threads : Threads} {owner : TransactionId}

theorem phase_proceed_self (threads : Threads) (owner : TransactionId) (phase : Phase)
    (system : System) : (threads.proceed owner phase system).phase owner = phase := by
  simp [proceed]

theorem phase_proceed_other {owner other : TransactionId} (apart : other ≠ owner) (phase : Phase)
    (system : System) : (threads.proceed owner phase system).phase other = threads.phase other := by
  simp [proceed, apart]

/-- What holds of the phase that a transaction enters, and of the phases of all others, holds of all
phases afterwards. -/
theorem forall_phase_proceed (property : TransactionId → Phase → Prop) {phase : Phase}
    {system : System} (own : property owner phase)
    (others : ∀ other, other ≠ owner → property other (threads.phase other))
    (other : TransactionId) :
    property other ((threads.proceed owner phase system).phase other) := by
  by_cases same : other = owner
  · subst same
    rw [phase_proceed_self]
    exact own
  · rw [phase_proceed_other same]
    exact others other same

@[simp] theorem proceed_proceed (owner : TransactionId) (first second : Phase)
    (earlier later : System) :
    (threads.proceed owner first earlier).proceed owner second later =
      threads.proceed owner second later := by
  simp [proceed]

@[simp] theorem after_nil : threads.after [] = threads := rfl

theorem after_cons (taken : Step) (steps : List Step) :
    threads.after (taken :: steps) = (threads.step taken).after steps := rfl

theorem after_append (earlier later : List Step) :
    threads.after (earlier ++ later) = (threads.after earlier).after later :=
  List.foldl_append

/-- Whoever is parked with nobody left to wake is blocked once it has blocked. -/
theorem blocked_step {call : Call} (parked : (threads.phase owner).parked? = some call)
    (nobody : (threads.phase owner).left = []) :
    (threads.step (.block owner)).phase owner = .blocked call ∧
      (threads.step (.block owner)).system = threads.system := by
  cases phase : threads.phase owner with
  | idle =>
      rw [phase] at parked
      cases parked
  | blocked other =>
      rw [phase] at parked
      cases parked
      rw [step, phase]
      exact ⟨phase, rfl⟩
  | waking other left waits =>
      rw [phase] at parked nobody
      cases waits with
      | false => cases parked
      | true =>
          cases parked
          cases nobody
          rw [step, phase]
          exact ⟨phase_proceed_self .., rfl⟩

/-- Whoever is blocked leaves if blocking returns, and else stays. -/
theorem step_leave_blocked {call : Call} (blocked : threads.phase owner = .blocked call) :
    threads.step (.leave owner) =
      if (threads.system.block owner).1 = .returned then
        threads.proceed owner .idle (threads.system.block owner).2
      else threads := by
  rw [step, blocked]
  cases ended : threads.system.block owner with
  | mk outcome system => cases outcome <;> rfl

/-- Whoever is parked with nobody left to wake gets out of its call just if blocking returns. -/
theorem block_leave {call : Call} (parked : (threads.phase owner).parked? = some call)
    (nobody : (threads.phase owner).left = []) :
    let after := threads.after [.block owner, .leave owner]
    after.system = (threads.system.block owner).2 ∧
      (after.phase owner = .idle ↔ (threads.system.block owner).1 = .returned) := by
  obtain ⟨blocked, same⟩ := blocked_step parked nobody
  intro after
  have left : after = (threads.step (.block owner)).step (.leave owner) := rfl
  rw [left, step_leave_blocked blocked, same]
  rcases System.block_returned_or threads.system owner with free | stuck
  · rw [if_pos free]
    exact ⟨rfl, iff_of_true (phase_proceed_self ..) free⟩
  · have waits : ¬(threads.system.block owner).1 = .returned := by simp [stuck]
    rw [if_neg waits, stuck]
    refine ⟨same, iff_of_false ?_ (by simp)⟩
    simp [blocked]

/-- The wake-ups of a section, delivered one after the other. -/
theorem after_delivers {call : Call} {parked : Bool} (left : List Request) {threads : Threads}
    (waking : threads.phase owner = .waking call left parked) :
    threads.after (left.map fun _ => .deliver owner) =
      threads.proceed owner (.waking call [] parked) (threads.system.wake left) := by
  induction left generalizing threads with
  | nil =>
      rw [List.map_nil, proceed, ← waking, Function.update_eq_self]
      rfl
  | cons request left inductionHypothesis =>
      have delivered : threads.step (.deliver owner) =
          threads.proceed owner (.waking call left parked) (threads.system.wake [request]) := by
        rw [step, waking]
      rw [List.map_cons, after_cons, delivered, inductionHypothesis (phase_proceed_self ..),
        proceed_proceed]
      rfl

/-- If nobody comes between the steps of a call, they come to the same as the call in one go, and
the transaction stays blocked just if the call is suspended. -/
theorem after_uninterrupted {call : Call} {done : Section} (idle : threads.phase owner = .idle)
    (known : owner ∈ threads.system.handles)
    (passed : threads.system.store.table.call owner call = .ok done) :
    let after := threads.after <| .enter owner call ::
      (done.served.map (fun _ => .deliver owner) ++ [.block owner, .leave owner])
    after.system = (threads.system.carryOut owner call).2 ∧
      (after.phase owner = .idle ↔ (threads.system.carryOut owner call).1 = .returned) := by
  have entered : threads.step (.enter owner call) =
      threads.proceed owner (.waking call done.served done.parked)
        (threads.system.enter owner done) := by
    simp [step, idle, passed, known]
  have delivered := after_delivers done.served
    (phase_proceed_self threads owner (.waking call done.served done.parked)
      (threads.system.enter owner done))
  intro after
  let woken := threads.proceed owner (.waking call [] done.parked)
    ((threads.system.enter owner done).wake done.served)
  have left : after = woken.after [.block owner, .leave owner] := by
    show threads.after _ = _
    rw [after_cons, entered, after_append, delivered, proceed_proceed]
    rfl
  have phase : woken.phase owner = .waking call [] done.parked := phase_proceed_self ..
  rw [System.carryOut_of_passed passed, left]
  cases parked : done.parked with
  | true =>
      rw [parked] at phase
      have suspended : (woken.phase owner).parked? = some call := by rw [phase]; rfl
      have nobody : (woken.phase owner).left = [] := by rw [phase]; rfl
      exact block_leave suspended nobody
  | false =>
      rw [parked] at phase
      have stays : woken.step (.block owner) = woken := by rw [step, phase]
      have leaves : woken.step (.leave owner) = woken.proceed owner .idle woken.system := by
        rw [step, phase]
      rw [after_cons, stays, after_cons, leaves]
      exact ⟨rfl, iff_of_true (phase_proceed_self ..) rfl⟩

end

end Threads

end Granularity
