import Granularity.Proofs.Histories.Replay
import Granularity.Proofs.Runs.Assurance

/-!
What plans ask of the table.

A plan is carried out in a state in which nobody waits.  `Plan.Accounts` follows it through its
operations, whatever they come down to, and keeps an account of the calls that are made: the events
that report these calls, and the modes that are left at the end, meet a goal.  Nothing is said of a
plan that fails.
-/

namespace Granularity

/-- The name that an event is about. -/
def Event.name : Event → ResourceName
  | acquire _ name _ | release _ name | promote _ name _ | exchange _ name _ _
  | blocked _ name _ | granted _ name _ => name

/-! ### Operations carried out at once -/

/-- In some state in which its owner holds certain modes and nobody waits, an operation makes a call
that is not parked; the event reports it, and the modes after it are these. -/
inductive Operation.Yields (operation : Operation) (owner : TransactionId) (before : Modes) :
    Event → Modes → Prop where
  | made {store : Store} {remark : Option Remark} {call : Call} {done : Section}
      (ready : store.Ready owner before)
      (decided : operation.decide store owner = .ok (.make remark call))
      (passed : store.table.call owner call = .ok done) (free : done.parked = false) :
      Yields operation owner before (call.event owner) (done.table.modeOf owner)

/-- A call that asks for a lock, and is not parked, leaves the outcome of its request. -/
theorem Store.Ready.outcome {store : Store} {owner : TransactionId} {before : Modes} {call : Call}
    {done : Section} (ready : store.Ready owner before)
    (passed : store.table.call owner call = .ok done) (free : done.parked = false)
    (asks : ∀ name, call ≠ .release name) :
    ∃ request side, store.table.Poses owner call request side ∧
      done.table.modeOf owner = request.outcome before := by
  obtain ⟨names, serves⟩ := ready.quiet.servesFrom passed free
  generalize done.table = left at serves
  cases serves with
  | released called => exact absurd called (asks _)
  | @granted request side poses =>
      refine ⟨request, side, poses, ?_⟩
      rw [ready.sound.modeOf_apply (poses.coherent ready.sound), if_pos poses.owner_eq.symm,
        ready.held]

namespace Operation

variable {owner : TransactionId} {before after : Modes} {event : Event} {context : Context}
  {mode : Mode}

theorem yields_acquire (yields : (acquire context mode).Yields owner before event after) :
    event = .acquire owner context.name mode ∧
      after = before.take context.name mode fun _ => false := by
  cases yields with
  | made ready decided passed free =>
      obtain ⟨_, _, _, _, move⟩ := Context.acquire_eq_ok.mp decided
      cases move
      obtain ⟨request, side, poses, left⟩ := ready.outcome passed free fun _ => Call.noConfusion
      cases poses with
      | acquire => exact ⟨rfl, left.trans (outcome_plain before context.name mode)⟩

theorem yields_promote (yields : (promote context mode).Yields owner before event after)
    (plain : mode ≠ .SIX) :
    event = .promote owner context.name mode ∧
      after = before.take context.name mode fun _ => false := by
  cases yields with
  | made ready decided passed free =>
      obtain ⟨_, _, _, _, _, _, move⟩ := Context.promote_eq_ok.mp decided
      rw [Context.promotion, if_neg plain] at move
      cases move
      obtain ⟨request, side, poses, left⟩ := ready.outcome passed free fun _ => Call.noConfusion
      cases poses with
      | promote => exact ⟨rfl, left.trans (outcome_plain before context.name mode)⟩

/-- A promotion to `SIX` is one exchange, which gives up what only reads beneath. -/
theorem yields_promoteToSIX (yields : (promote context .SIX).Yields owner before event after) :
    (∃ released, event = .exchange owner context.name .SIX released) ∧
      after = before.take context.name .SIX Mode.onlyReads := by
  cases yields with
  | made ready decided passed free =>
      obtain ⟨_, _, _, _, _, _, move⟩ := Context.promote_eq_ok.mp decided
      cases move
      obtain ⟨request, side, poses, left⟩ := ready.outcome passed free fun _ => Call.noConfusion
      exact ⟨⟨_, rfl⟩, left.trans (outcome_promoteToSIX ready.sound ready.held poses)⟩

/-- An escalation is one exchange, which gives up everything beneath. -/
theorem yields_escalate (yields : (escalate context).Yields owner before event after) :
    ∃ target released, event = .exchange owner context.name target released ∧
      after = before.take context.name target (fun _ => true) ∧
      (target = .X ∧ before.WritesWithin context.name ∨
        target = .S ∧ ¬before.WritesWithin context.name) ∧
      ∀ other, other ∈ released ↔
        other = context.name ∨ other.isBeneath context.name = true ∧ before other ≠ .NL := by
  cases yields with
  | made ready decided passed free =>
      obtain ⟨_, _, move⟩ := Context.escalate_eq_ok.mp decided
      split at move
      · cases move
        obtain ⟨request, side, poses, left⟩ := ready.outcome passed free fun _ => Call.noConfusion
        refine ⟨_, _, rfl, left.trans (outcome_escalate ready.sound ready.held poses), ?_, ?_⟩
        · rw [← ready.held]
          exact Context.escalationTarget_cases ready.sound context.name
        · intro other
          rw [List.mem_eraseDups, List.mem_cons, ready.sound.mem_names_locksBeneath, ready.held]
      · cases move

end Operation

/-! ### Plans -/

namespace Plan

/-- Whatever a plan comes to in states in which nobody waits, the events that report its calls, in
order, and the modes at its end meet a goal, if it does not fail. -/
def Accounts (owner : TransactionId) (goal : List Event → Modes → Prop) : Plan → Modes → Prop
  | done, modes => goal [] modes
  | fail _, _ => True
  | look next, modes => ∀ store : Store, store.Ready owner modes →
      (next store).Accounts owner goal modes
  | say _ next, modes => next.Accounts owner goal modes
  | perform operation next, modes => ∀ event after, operation.Yields owner modes event after →
      next.Accounts owner (fun later => goal (event :: later)) after

variable {owner : TransactionId} {goal : List Event → Modes → Prop} {modes : Modes}

theorem accounts_ask {operation : Operation}
    (reached : ∀ event after, operation.Yields owner modes event after → goal [event] after) :
    (ask operation).Accounts owner goal modes :=
  reached

/-- An account can be given of every plan, if nothing is asked of it. -/
theorem accounts_of_forall {plan : Plan} (always : ∀ calls after, goal calls after) :
    plan.Accounts owner goal modes := by
  induction plan generalizing goal modes with
  | done => exact always [] modes
  | fail => exact trivial
  | look next inductionHypothesis => exact fun store _ => inductionHypothesis store always
  | say remark next inductionHypothesis => exact inductionHypothesis always
  | perform operation next inductionHypothesis =>
      exact fun event after _ => inductionHypothesis fun calls left => always (event :: calls) left

/-- The accounts of two plans one after the other. -/
theorem Accounts.andThen {middle : List Event → Modes → Prop} {first second : Plan}
    (earlier : first.Accounts owner middle modes)
    (later : ∀ calls between, middle calls between →
      second.Accounts owner (fun more => goal (calls ++ more)) between) :
    (first.andThen second).Accounts owner goal modes := by
  induction first generalizing middle goal modes with
  | done => exact later [] modes earlier
  | fail => exact trivial
  | look next inductionHypothesis =>
      exact fun store ready => inductionHypothesis store (earlier store ready) later
  | say remark next inductionHypothesis => exact inductionHypothesis earlier later
  | perform operation next inductionHypothesis =>
      exact fun event after yields => inductionHypothesis (earlier event after yields)
        fun calls between reached => later (event :: calls) between reached

theorem Accounts.mono {weaker : List Event → Modes → Prop} {plan : Plan}
    (accounts : plan.Accounts owner goal modes)
    (implies : ∀ calls after, goal calls after → weaker calls after) :
    plan.Accounts owner weaker modes := by
  induction plan generalizing goal weaker modes with
  | done => exact implies [] modes accounts
  | fail => exact trivial
  | look next inductionHypothesis =>
      exact fun store ready => inductionHypothesis store (accounts store ready) implies
  | say remark next inductionHypothesis => exact inductionHypothesis accounts implies
  | perform operation next inductionHypothesis =>
      exact fun event after yields => inductionHypothesis (accounts event after yields)
        fun calls left => implies (event :: calls) left

end Plan

end Granularity
