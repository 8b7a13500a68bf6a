import Granularity.Planner
import Granularity.Proofs.Calls
import Granularity.Proofs.Contexts.LookUp
import Granularity.Proofs.Contexts.Waiting

/-!
Interleaved transactions.

Transactions take turns at one manager, in any order and one step of a plan at a time: whatever
others do may come between two steps of a transaction.  A transaction works on one demand at a
time, and takes no step while it has a request in a queue.  Between the steps contexts are looked
up, and locks on the children of contexts may be stopped.

A turn that is not open changes nothing, so every list of turns is a run.
-/

namespace Granularity

/-! ### What a transaction can demand -/

/-- What a transaction demands: an operation on a context, or a plan. -/
inductive Demand where
  | acquire (context : Context) (mode : Mode)
  | release (context : Context)
  | promote (context : Context) (mode : Mode)
  | escalate (context : Context)
  | ensure (context : Context) (wanted : Mode)
  | ensureIntentions (context : Option Context) (intention : Mode)
  | releaseAll

namespace Demand

/-- The plan that meets a demand. -/
def plan (owner : TransactionId) : Demand → Plan
  | acquire context mode => .ask (.acquire context mode)
  | release context => .ask (.release context)
  | promote context mode => .ask (.promote context mode)
  | escalate context => .ask (.escalate context)
  | ensure context wanted => context.ensure owner wanted
  | ensureIntentions none _ => .done
  | ensureIntentions (some context) intention => context.ensureIntentions owner intention
  | releaseAll => Granularity.releaseAll owner

/-- The context at which a demand is made. -/
def context? : Demand → Option Context
  | acquire context _ | release context | promote context _ | escalate context
  | ensure context _ => some context
  | ensureIntentions context _ => context
  | releaseAll => none

end Demand

/-! ### Turns -/

/-- A manager, and what each transaction still has to do of its demand. -/
structure Interleaving where
  system : System
  rest : TransactionId → Plan

/-- What can happen next. -/
inductive Turn where
  /-- Somebody looks up a context. -/
  | lookUp (wanted : LookUp)
  /-- Somebody stops the locks on the children of a context. -/
  | disableChildLocks (context : Context)
  /-- A transaction that has nothing to do makes a demand. -/
  | demand (owner : TransactionId) (demand : Demand)
  /-- A transaction that does not wait takes the next step of its plan. -/
  | advance (owner : TransactionId)

/-- Nothing is left to do. -/
def Plan.isDone : Plan → Bool
  | done => true
  | _ => false

/-- What is left of a plan once an operation has ended: a refusal is the end of the plan. -/
def Plan.following (next : Plan) : Outcome → Plan
  | .refused _ => done
  | .returned | .suspended => next

theorem Plan.following_of_not_refused {outcome : Outcome}
    (ended : ∀ refusal, outcome ≠ .refused refusal) (next : Plan) :
    next.following outcome = next := by
  cases outcome with
  | refused refusal => exact absurd rfl (ended refusal)
  | returned => rfl
  | suspended => rfl

namespace Interleaving

/-- The lock table. -/
abbrev table (state : Interleaving) : Table :=
  state.system.store.table

/-- The tree of contexts. -/
abbrev contexts (state : Interleaving) : ContextTree :=
  state.system.store.contexts

/-- A manager in which nothing has happened, with handles for its transactions. -/
def opened (config : Config) (handles : Std.ExtTreeMap TransactionId Handle) : Interleaving :=
  ⟨.opened config handles, fun _ => .done⟩

/-- The state with other contexts. -/
def withContexts (state : Interleaving) (contexts : ContextTree) : Interleaving :=
  { state with
    system := { state.system with store := { state.system.store with contexts := contexts } } }

/-- The state after a step of a transaction, which goes on with a plan. -/
def goOn (state : Interleaving) (owner : TransactionId) (system : System) (plan : Plan) :
    Interleaving :=
  ⟨system, fun other => if other = owner then plan else state.rest other⟩

/-- The next step of a transaction, if it does not wait. -/
def advance (state : Interleaving) (owner : TransactionId) : Interleaving :=
  if state.table.isWaiting owner then state
  else
    match state.rest owner with
    | .done => state
    | .fail _ => state.goOn owner state.system .done
    | .look next => state.goOn owner state.system (next state.system.store)
    | .say remark next => state.goOn owner (state.system.note [.remark remark]) next
    | .perform operation next =>
        let ended := state.system.perform owner operation
        state.goOn owner ended.2 (next.following ended.1)

/-- The state after a turn; a turn that is not open changes nothing. -/
def after (state : Interleaving) : Turn → Interleaving
  | .lookUp wanted =>
      if wanted.start?.all fun context => state.contexts.Knows context then
        match wanted.resolve state.contexts state.system.store.config with
        | .error _ => state
        | .ok (_, grown) => state.withContexts grown
      else state
  | .disableChildLocks context =>
      state.withContexts (state.contexts.disableChildLocks context.place.id)
  | .demand owner demand =>
      if (state.rest owner).isDone && !state.table.isWaiting owner &&
          demand.context?.all fun context => state.contexts.Knows context then
        state.goOn owner state.system (demand.plan owner)
      else state
  | .advance owner => state.advance owner

/-- The state after some turns in order. -/
def run (state : Interleaving) (turns : List Turn) : Interleaving :=
  turns.foldl after state

end Interleaving

/-! ### Performing operations -/

namespace System

variable {system : System} {owner : TransactionId}

/-- An operation that comes down to a call makes its remark and carries out the call. -/
theorem perform_of_make {operation : Operation} {remark : Option Remark} {call : Call}
    (decided : operation.decide system.store owner = .ok (.make remark call)) :
    system.perform owner operation =
      (system.note (remark.toList.map Notice.remark)).carryOut owner call := by
  rw [perform, decided]

/-- How performing an operation ends: it is refused and the store stays, there is nothing to do and
the store stays, or the call that it comes down to passes and leaves its table. -/
inductive Performed (system : System) (owner : TransactionId) (operation : Operation)
    (outcome : Outcome) (store : Store) : Prop where
  | refused {refusal : Refusal} (ended : outcome = .refused refusal) (same : store = system.store)
  | stayed (ended : ∀ refusal, outcome ≠ .refused refusal)
      (decided : operation.decide system.store owner = .ok .stay) (same : store = system.store)
  | passed {remark : Option Remark} {call : Call} {done : Section}
      (ended : ∀ refusal, outcome ≠ .refused refusal)
      (decided : operation.decide system.store owner = .ok (.make remark call))
      (passed : system.store.table.call owner call = .ok done)
      (left : store = { system.store with table := done.table })

theorem performed (system : System) (owner : TransactionId) (operation : Operation) :
    Performed system owner operation (system.perform owner operation).1
      (system.perform owner operation).2.store := by
  cases decided : operation.decide system.store owner with
  | error refusal =>
      simp only [perform, decided]
      exact .refused rfl rfl
  | ok move =>
      cases move with
      | stay =>
          simp only [perform, decided]
          exact .stayed nofun decided rfl
      | make remark call =>
          let noted := system.note (remark.toList.map Notice.remark)
          rw [perform_of_make decided]
          cases answer : noted.store.table.call owner call with
          | error refusal =>
              rw [carryOut_of_refused answer]
              exact .refused rfl rfl
          | ok done =>
              exact .passed (carryOut_not_refused answer) decided answer (store_carryOut answer)

end System

end Granularity
