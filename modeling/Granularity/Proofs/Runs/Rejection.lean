import Granularity.Proofs.Runs.Success

/-!
Calls that are rejected at once.

Only `NL`, `S` and `X` can be ensured, and a call for another mode is rejected before it has looked
at anything.  So a run with such calls goes like the run in which they ask for `NL`, which is always
in force; and what is known of runs in which every mode can be planned is known of these runs too.
-/

namespace Granularity

/-- The mode, if it can be ensured, and otherwise `NL`. -/
def Mode.plannable (mode : Mode) : Mode :=
  if mode ∈ [NL, S, X] then mode else NL

theorem Mode.plannable_mem (mode : Mode) : mode.plannable ∈ [NL, S, X] := by
  cases mode <;> decide

theorem Mode.plannable_of_mem {mode : Mode} (member : mode ∈ [NL, S, X]) :
    mode.plannable = mode :=
  if_pos member

namespace Turn

/-- The turn belongs to a run in which transactions only have modes ensured, whether these can be
planned or not, and give up everything, while contexts are looked up. -/
def Ensures : Turn → Prop
  | .lookUp _ | .advance _ | .demand _ .releaseAll | .demand _ (.ensure _ _) => True
  | .disableChildLocks _ | .demand _ _ => False

/-- The turn with a mode that can be planned. -/
def plannable : Turn → Turn
  | .demand owner (.ensure context wanted) => .demand owner (.ensure context wanted.plannable)
  | turn => turn

theorem plans_plannable {turn : Turn} (ensures : turn.Ensures) : turn.plannable.Plans := by
  cases turn with
  | lookUp | advance => exact trivial
  | disableChildLocks => exact False.elim ensures
  | demand owner demand =>
      cases demand with
      | ensure context wanted => exact wanted.plannable_mem
      | releaseAll => exact trivial
      | acquire | release | promote | escalate | ensureIntentions => exact False.elim ensures

theorem plans_map_plannable {turns : List Turn} (ensures : ∀ turn ∈ turns, turn.Ensures) :
    ∀ turn ∈ turns.map plannable, turn.Plans := by
  rw [List.forall_mem_map]
  exact fun turn member => plans_plannable (ensures turn member)

theorem isStepOf_plannable (owner : TransactionId) (turn : Turn) :
    turn.plannable.isStepOf owner = turn.isStepOf owner := by
  cases turn with
  | lookUp | advance | disableChildLocks => rfl
  | demand other demand => cases demand <;> rfl

variable {turns : List Turn} {index : Nat} {owner : TransactionId}

theorem getElem?_ensure {context : Context} {wanted : Mode}
    (demanded : turns[index]? = some (.demand owner (.ensure context wanted))) :
    (turns.map plannable)[index]? = some (.demand owner (.ensure context wanted.plannable)) := by
  rw [List.getElem?_map, demanded]
  rfl

theorem getElem?_plannable {context : Context} {wanted : Mode} (member : wanted ∈ [.NL, .S, .X])
    (demanded : turns[index]? = some (.demand owner (.ensure context wanted))) :
    (turns.map plannable)[index]? = some (.demand owner (.ensure context wanted)) := by
  rw [getElem?_ensure demanded, Mode.plannable_of_mem member]

theorem getElem?_advance (next : turns[index]? = some (.advance owner)) :
    (turns.map plannable)[index]? = some (.advance owner) := by
  rw [List.getElem?_map, next]
  rfl

theorem countP_plannable (owner : TransactionId) {start stop : Nat} :
    (((turns.map plannable).take stop).drop start).countP (isStepOf owner) =
      ((turns.take stop).drop start).countP (isStepOf owner) := by
  rw [← List.map_take, ← List.map_drop, List.countP_map]
  congr 1
  exact funext (isStepOf_plannable owner)

end Turn

namespace Plan

/-- Two plans come to the same: they are the same, or one is the rejection of a call, and the other
has `NL` ensured instead. -/
inductive ComesTo (owner : TransactionId) : Plan → Plan → Prop where
  | same (plan : Plan) : ComesTo owner plan plan
  | rejected (context : Context) (refusal : Refusal) :
      ComesTo owner (.fail refusal) (context.ensure owner .NL)

/-- To ensure `NL` is to look at the state and to be done. -/
theorem ensure_NL (context : Context) (owner : TransactionId) :
    ∃ next, context.ensure owner .NL = .look next ∧ ∀ store, next store = .done := by
  rw [Context.ensure, if_pos (Or.inl rfl), Context.places, Planner.ensureAt]
  exact ⟨_, rfl, fun store => if_pos (Mode.covers_NL _)⟩

theorem ComesTo.isDone {owner : TransactionId} {plan other : Plan}
    (same : ComesTo owner plan other) : other.isDone = plan.isDone := by
  cases same with
  | same => rfl
  | rejected context refusal =>
      obtain ⟨next, planIs, _⟩ := ensure_NL context owner
      rw [planIs]
      rfl

end Plan

namespace Interleaving

/-- Two states are the same but for calls that have been rejected in one of them and ask for `NL` in
the other. -/
structure GoesLike (state other : Interleaving) : Prop where
  system : other.system = state.system
  rest : ∀ owner, (state.rest owner).ComesTo owner (other.rest owner)

namespace GoesLike

variable {state other : Interleaving}

theorem table (alike : state.GoesLike other) : other.table = state.table :=
  congrArg (·.store.table) alike.system

theorem contexts (alike : state.GoesLike other) : other.contexts = state.contexts :=
  congrArg (·.store.contexts) alike.system

theorem isDone (alike : state.GoesLike other) (owner : TransactionId) :
    (other.rest owner).isDone = (state.rest owner).isDone :=
  (alike.rest owner).isDone

theorem goOn (alike : state.GoesLike other) (owner : TransactionId) (system : System)
    {plan instead : Plan} (same : plan.ComesTo owner instead) :
    (state.goOn owner system plan).GoesLike (other.goOn owner system instead) where
  system := rfl
  rest third := by
    by_cases own : third = owner
    · subst own
      rw [rest_goOn, rest_goOn]
      exact same
    · rw [Interleaving.goOn, Interleaving.goOn]
      simp only [own, if_false]
      exact alike.rest third

theorem advance (alike : state.GoesLike other) (owner : TransactionId) :
    (state.advance owner).GoesLike (other.advance owner) := by
  have rest := alike.rest owner
  rw [Interleaving.advance, Interleaving.advance, alike.table, alike.system]
  split
  · exact alike
  · generalize state.rest owner = plan at rest ⊢
    generalize other.rest owner = instead at rest ⊢
    cases rest with
    | same =>
        cases plan with
        | done => exact alike
        | fail | look | say | perform => exact alike.goOn owner _ (.same _)
    | rejected context refusal =>
        obtain ⟨next, planIs, ends⟩ := Plan.ensure_NL context owner
        rw [planIs]
        show GoesLike _ (other.goOn owner state.system (next state.system.store))
        rw [ends]
        exact alike.goOn owner state.system (.same .done)

theorem withContexts (alike : state.GoesLike other) (contexts : ContextTree) :
    (state.withContexts contexts).GoesLike (other.withContexts contexts) where
  system := by rw [Interleaving.withContexts, Interleaving.withContexts, alike.system]
  rest := alike.rest

/-- Demands about the same context, the plans for which come to the same. -/
theorem demand (alike : state.GoesLike other) {owner : TransactionId} {demand instead : Demand}
    (about : instead.context? = demand.context?)
    (same : (demand.plan owner).ComesTo owner (instead.plan owner)) :
    (state.after (.demand owner demand)).GoesLike (other.after (.demand owner instead)) := by
  rw [Interleaving.after, Interleaving.after, alike.isDone, alike.table, alike.contexts,
    alike.system, about]
  split
  · exact alike.goOn owner state.system same
  · exact alike

theorem after (alike : state.GoesLike other) {turn : Turn} (ensures : turn.Ensures) :
    (state.after turn).GoesLike (other.after turn.plannable) := by
  cases turn with
  | lookUp wanted =>
      show GoesLike _ (other.after (.lookUp wanted))
      rw [Interleaving.after, Interleaving.after, alike.contexts, alike.system]
      split
      · split
        · exact alike
        · exact alike.withContexts _
      · exact alike
  | disableChildLocks => exact False.elim ensures
  | demand owner demand =>
      cases demand with
      | ensure context wanted =>
          show GoesLike _ (other.after (.demand owner (.ensure context wanted.plannable)))
          refine alike.demand rfl ?_
          show (context.ensure owner wanted).ComesTo owner (context.ensure owner wanted.plannable)
          by_cases member : wanted ∈ [.NL, .S, .X]
          · rw [Mode.plannable_of_mem member]
            exact .same _
          · have rejected : context.ensure owner wanted = .fail (.notPlannable wanted) := by
              rw [Context.ensure, if_neg (by simpa using member)]
            rw [rejected, Mode.plannable, if_neg member]
            exact .rejected context _
      | releaseAll => exact alike.demand rfl (.same _)
      | acquire | release | promote | escalate | ensureIntentions => exact False.elim ensures
  | advance owner => exact alike.advance owner

theorem run (alike : state.GoesLike other) {turns : List Turn}
    (ensures : ∀ turn ∈ turns, turn.Ensures) :
    (state.run turns).GoesLike (other.run (turns.map Turn.plannable)) := by
  induction turns generalizing state other with
  | nil => exact alike
  | cons turn turns inductionHypothesis =>
      obtain ⟨first, rest⟩ := List.forall_mem_cons.mp ensures
      exact inductionHypothesis (alike.after first) rest

end GoesLike

/-- A run in which transactions only ensure modes and give up everything goes, from turn to turn,
like the one in which they ask for `NL` instead of what cannot be planned. -/
theorem goesLike_take {state : Interleaving} {turns : List Turn}
    (ensures : ∀ turn ∈ turns, turn.Ensures) (count : Nat) :
    (state.run (turns.take count)).GoesLike
      (state.run ((turns.map Turn.plannable).take count)) := by
  have alike : state.GoesLike state := ⟨rfl, fun _ => .same _⟩
  rw [← List.map_take]
  exact alike.run fun turn member => ensures turn (List.mem_of_mem_take member)

end Interleaving

end Granularity
