import Granularity.Proofs.Runs.Interleaving

/-!
Whatever can be done with a manager.

Transactions may make calls and run plans at any time, whether or not they wait, and carry on with
plans that have been broken off; in between the contexts may change.  The lock table is changed by
calls alone, so what every call preserves holds whatever is done.
-/

namespace Granularity

/-- What can be done with a manager, whether or not somebody waits. -/
inductive Action where
  /-- A transaction makes a call on the table. -/
  | call (owner : TransactionId) (call : Call)
  /-- A transaction runs a plan, such as one operation on a context. -/
  | run (owner : TransactionId) (plan : Plan)
  /-- A transaction carries on with what is left of a plan. -/
  | resume (owner : TransactionId) (rest : Plan)
  /-- Look-ups and prohibitions leave other contexts. -/
  | recontext (contexts : ContextTree)

namespace System

/-- The manager after an action. -/
def act (system : System) : Action → System
  | .call owner call => (system.carryOut owner call).2
  | .run owner plan => (system.run owner plan).2
  | .resume owner rest => (system.resume owner rest).2
  | .recontext contexts => { system with store := { system.store with contexts := contexts } }

/-- The manager after some actions in order. -/
def afterActions (system : System) (actions : List Action) : System :=
  actions.foldl act system

section

variable {motive : Table → Prop}
  (step : ∀ table owner call done, motive table → Table.call table owner call = .ok done →
    motive done.table)
include step

theorem perform_induction {system : System} (owner : TransactionId) (operation : Operation)
    (start : motive system.store.table) : motive (system.perform owner operation).2.store.table := by
  cases performed system owner operation with
  | refused _ same =>
      rw [same]
      exact start
  | stayed _ _ same =>
      rw [same]
      exact start
  | passed _ _ passed left =>
      rw [left]
      exact step _ _ _ _ start passed

theorem run_induction (owner : TransactionId) (plan : Plan) {system : System}
    (start : motive system.store.table) : motive (system.run owner plan).2.store.table := by
  induction plan generalizing system with
  | done => exact start
  | fail => exact start
  | look next inductionHypothesis => exact inductionHypothesis system.store start
  | say remark next inductionHypothesis => exact inductionHypothesis start
  | perform operation next inductionHypothesis =>
      have performed := perform_induction step owner operation start
      rw [run]
      rcases ended : system.perform owner operation with ⟨outcome, after⟩
      rw [ended] at performed
      cases outcome with
      | returned => exact inductionHypothesis performed
      | refused => exact performed
      | suspended => exact performed

theorem act_induction {system : System} (action : Action) (start : motive system.store.table) :
    motive (system.act action).store.table := by
  cases action with
  | call owner call => exact carryOut_induction step owner call start
  | run owner plan => exact run_induction step owner plan start
  | resume owner rest =>
      have blocked : motive (system.block owner).2.store.table := by
        rw [store_block]
        exact start
      rw [act, resume]
      rcases ended : system.block owner with ⟨outcome, after⟩
      rw [ended] at blocked
      cases outcome with
      | returned => exact run_induction step owner rest blocked
      | refused => exact blocked
      | suspended => exact blocked
  | recontext => exact start

/-- What holds of the table at the start and is preserved by every call that passes its checks
holds whatever is done with the manager. -/
theorem afterActions_induction (actions : List Action) {system : System}
    (start : motive system.store.table) : motive (system.afterActions actions).store.table := by
  induction actions generalizing system with
  | nil => exact start
  | cons action actions inductionHypothesis =>
      exact inductionHypothesis (act_induction step action start)

end

theorem sound_afterActions (config : Config) (handles : Std.ExtTreeMap TransactionId Handle)
    (actions : List Action) : ((opened config handles).afterActions actions).store.table.Sound :=
  afterActions_induction (motive := Table.Sound)
    (fun _ _ _ _ sound passed => sound.call passed) actions .empty

end System

end Granularity
