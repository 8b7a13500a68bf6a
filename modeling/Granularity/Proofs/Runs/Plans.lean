import Granularity.Proofs.Runs.Steady

/-!
Plans run without interruption.

`System.run` carries out a plan until it is finished or its transaction is suspended.  For a
transaction that is suspended whenever it has to wait, this is a run of an interleaving in which
nobody else has a turn; so whatever holds in every state of a run holds before, between and after
the plans of sessions.
-/

namespace Granularity

/-- What a transaction has left to do once its plan has got so far. -/
def Progress.rest : Progress → Plan
  | finished _ => .done
  | suspended rest => rest

/-- The transaction is suspended while it has to wait. -/
def System.Gated (system : System) (owner : TransactionId) : Prop :=
  ∃ gate, system.handles[owner]? = some (Handle.suspending gate)

namespace System

variable {system : System} {owner : TransactionId}

/-- Changing somebody's handle leaves a gate a gate, if the change does. -/
theorem exists_gate_modify {handles : Std.ExtTreeMap TransactionId Handle} {gate : Gate}
    (gated : handles[owner]? = some (Handle.suspending gate)) (other : TransactionId)
    {change : Handle → Handle}
    (keeps : ∀ gate, ∃ after, change (.suspending gate) = Handle.suspending after) :
    ∃ after, (handles.modify other change)[owner]? = some (Handle.suspending after) := by
  rw [Std.ExtTreeMap.getElem?_modify]
  split
  · next same =>
      rw [Std.LawfulEqCmp.eq_of_compare same, gated]
      obtain ⟨after, changed⟩ := keeps gate
      exact ⟨after, congrArg some changed⟩
  · exact ⟨gate, gated⟩

theorem Gated.wake (gated : system.Gated owner) (served : List Request) :
    (system.wake served).Gated owner := by
  induction served generalizing system with
  | nil => exact gated
  | cons request rest inductionHypothesis =>
      obtain ⟨gate, gated⟩ := gated
      have next : Gated
          { system with handles := system.handles.modify request.waiter Handle.unblock } owner :=
        exists_gate_modify gated request.waiter fun _ => ⟨⟨false⟩, rfl⟩
      exact inductionHypothesis next

/-- A parked call suspends a gated transaction. -/
theorem Gated.suspended (gated : system.Gated owner) {call : Call} {done : Section}
    (passed : system.store.table.call owner call = .ok done) (parked : done.parked = true) :
    (system.carryOut owner call).1 = .suspended := by
  obtain ⟨gate, gated⟩ := gated
  have nobody : done.served = [] := by
    cases Table.passes_call passed with
    | released _ _ _ _ free => cases free.symm.trans parked
    | granted _ _ _ _ free => cases free.symm.trans parked
    | parked _ _ _ served => exact served
  have raised : ((system.enter owner done).wake done.served).handles[owner]? =
      some (Handle.suspending ⟨true⟩) := by
    rw [nobody]
    show (system.enter owner done).handles[owner]? = _
    simp only [enter, parked, if_true, Std.ExtTreeMap.getElem?_modify_self, gated]
    rfl
  rw [carryOut_of_passed passed, if_pos parked, block, raised]
  rfl

/-- A gated transaction gets through a call only if it has not been parked, and then it waits no
more than before. -/
theorem Gated.carryOut (gated : system.Gated owner) {call : Call}
    (returned : (system.carryOut owner call).1 = .returned) :
    (system.carryOut owner call).2.Gated owner ∧
      ((system.carryOut owner call).2.store.table.Waiting owner →
        system.store.table.Waiting owner) := by
  cases answer : system.store.table.call owner call with
  | error refusal =>
      rw [carryOut_of_refused answer] at returned
      cases returned
  | ok done =>
      have free : done.parked = false := by
        by_contra parked
        rw [gated.suspended answer (by simpa using parked)] at returned
        cases returned
      have after : (system.carryOut owner call).2 =
          (system.enter owner done).wake done.served := by
        rw [carryOut_of_passed answer, free]
        rfl
      rw [after]
      refine ⟨Gated.wake ?_ _, Table.waiting_of_not_parked answer free⟩
      obtain ⟨gate, gated⟩ := gated
      refine ⟨gate, ?_⟩
      simp only [enter, free]
      exact gated

/-- The same of an operation. -/
theorem Gated.perform (gated : system.Gated owner) {operation : Operation}
    (returned : (system.perform owner operation).1 = .returned) :
    (system.perform owner operation).2.Gated owner ∧
      ((system.perform owner operation).2.store.table.Waiting owner →
        system.store.table.Waiting owner) := by
  cases decided : operation.decide system.store owner with
  | error refusal =>
      simp only [System.perform, decided] at returned
      cases returned
  | ok move =>
      cases move with
      | stay =>
          simp only [System.perform, decided]
          exact ⟨gated, id⟩
      | make remark call =>
          let noted := system.note (remark.toList.map Notice.remark)
          have notedGated : noted.Gated owner := gated
          rw [perform_of_make decided] at returned ⊢
          exact notedGated.carryOut returned

end System

namespace Interleaving

variable {state : Interleaving} {owner : TransactionId}

@[simp] theorem rest_goOn (state : Interleaving) (owner : TransactionId) (system : System)
    (plan : Plan) : (state.goOn owner system plan).rest owner = plan :=
  if_pos rfl

/-- The step of a transaction that does not wait is the next one of its plan. -/
theorem advance_of_idle (idle : ¬state.table.Waiting owner) (plan : Plan) :
    state.rest owner = plan → state.advance owner =
      match plan with
      | .done => state
      | .fail _ => state.goOn owner state.system .done
      | .look next => state.goOn owner state.system (next state.system.store)
      | .say remark next => state.goOn owner (state.system.note [.remark remark]) next
      | .perform operation next =>
          state.goOn owner (state.system.perform owner operation).2
            (next.following (state.system.perform owner operation).1) := by
  have free : ¬state.table.isWaiting owner := fun waits => idle (Table.isWaiting_iff.mp waits)
  intro planned
  cases plan <;> simp only [advance, if_neg free, planned]

/-- So many steps of one transaction, one after the other. -/
def steps (state : Interleaving) (owner : TransactionId) (count : Nat) : Interleaving :=
  state.run (List.replicate count (.advance owner))

theorem steps_succ (state : Interleaving) (owner : TransactionId) (count : Nat) :
    state.steps owner (count + 1) = (state.advance owner).steps owner count := rfl

/-- What the steps after the next one come to, the steps from here come to. -/
theorem exists_steps_of_advance {next : Interleaving} (step : state.advance owner = next)
    {system : System} {rest : Plan}
    (reached : ∃ count,
      (next.steps owner count).system = system ∧ (next.steps owner count).rest owner = rest) :
    ∃ count,
      (state.steps owner count).system = system ∧ (state.steps owner count).rest owner = rest := by
  obtain ⟨count, reached⟩ := reached
  refine ⟨count + 1, ?_⟩
  rw [steps_succ, step]
  exact reached

/-- Running the plan of a gated transaction is taking turns of this transaction alone. -/
theorem exists_steps_eq_run (idle : ¬state.table.Waiting owner)
    (gated : state.system.Gated owner) :
    ∃ count, (state.steps owner count).system =
        (state.system.run owner (state.rest owner)).2 ∧
      (state.steps owner count).rest owner =
        (state.system.run owner (state.rest owner)).1.rest := by
  generalize planned : state.rest owner = plan
  induction plan generalizing state with
  | done => exact ⟨0, rfl, planned⟩
  | fail refusal =>
      exact exists_steps_of_advance (advance_of_idle idle _ planned) ⟨0, rfl, rest_goOn ..⟩
  | look next inductionHypothesis =>
      apply exists_steps_of_advance (advance_of_idle idle _ planned)
      exact inductionHypothesis state.system.store idle gated (rest_goOn ..)
  | say remark next inductionHypothesis =>
      apply exists_steps_of_advance (advance_of_idle idle _ planned)
      exact inductionHypothesis idle gated (rest_goOn ..)
  | perform operation next inductionHypothesis =>
      have step : state.advance owner = state.goOn owner (state.system.perform owner operation).2
          (next.following (state.system.perform owner operation).1) :=
        advance_of_idle idle _ planned
      rcases ended : state.system.perform owner operation with ⟨outcome, after⟩
      rw [ended] at step
      apply exists_steps_of_advance step
      rw [System.run, ended]
      cases outcome with
      | returned =>
          have returned : (state.system.perform owner operation).1 = .returned := by rw [ended]
          have kept := gated.perform returned
          rw [ended] at kept
          exact inductionHypothesis (fun waits => idle (kept.2 waits)) kept.1 (rest_goOn ..)
      | refused refusal => exact ⟨0, rfl, rest_goOn ..⟩
      | suspended => exact ⟨0, rfl, rest_goOn ..⟩

end Interleaving

end Granularity
