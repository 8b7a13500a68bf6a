import Granularity.Proofs.Runs.Plans
import Granularity.Proofs.Runs.Sufficiency

/-!
Planning always succeeds.

In a run in which transactions do nothing but ensure modes and give up everything, and in which no
request ever has to wait, the modes of every transaction are tidy whenever it has nothing to do.  So
each of its plans is assured of its goal when it begins, and stays so: its own steps lead it there,
and the steps of the others change neither its modes nor the contexts in a way that matters.
-/

namespace Granularity

/-! ### Runs that only plan -/

/-- The turn belongs to a run in which transactions only have modes ensured and give up everything,
while contexts are looked up. -/
def Turn.Plans : Turn → Prop
  | .lookUp _ | .advance _ | .demand _ .releaseAll => True
  | .demand _ (.ensure _ wanted) => wanted ∈ [.NL, .S, .X]
  | .disableChildLocks _ | .demand _ _ => False

/-- The turn is a step of the transaction. -/
def Turn.isStepOf (owner : TransactionId) : Turn → Bool
  | .advance other => other == owner
  | _ => false

theorem Turn.eq_of_isStepOf {owner : TransactionId} {turn : Turn}
    (step : turn.isStepOf owner = true) : turn = .advance owner := by
  cases turn with
  | advance other => exact congrArg Turn.advance (eq_of_beq step)
  | lookUp | disableChildLocks | demand => cases step

/-- The next step of the transaction ends its plan with a refusal: the plan cannot be carried on, or
its next operation is refused. -/
def Interleaving.Fails (state : Interleaving) (owner : TransactionId) : Prop :=
  match state.rest owner with
  | .fail _ => True
  | .perform operation _ => ∃ refusal, (state.system.perform owner operation).1 = .refused refusal
  | .done | .look _ | .say _ _ => False

/-! ### Steps of assured plans -/

/-- Where nobody has to wait, an operation that leads somewhere makes a call that passes its checks
and is not parked. -/
theorem System.made_of_leads {system : System} {owner : TransactionId} {operation : Operation}
    {modes after : Modes} (ready : system.store.Ready owner modes)
    (leads : operation.Leads owner modes after)
    (quiet : (system.perform owner operation).2.store.table.Quiet) :
    ∃ remark call done, operation.decide system.store owner = .ok (.make remark call) ∧
      system.store.table.call owner call = .ok done ∧ done.parked = false ∧
      done.table.modeOf owner = after ∧
      (system.perform owner operation).2.store = { system.store with table := done.table } := by
  obtain ⟨remark, call, done, decided, passed, outcome⟩ := leads system.store ready
  let noted := system.note (remark.toList.map Notice.remark)
  have passes : noted.store.table.call owner call = .ok done := passed
  have left : (system.perform owner operation).2.store =
      { system.store with table := done.table } := by
    rw [perform_of_make decided]
    exact store_carryOut passes
  rw [left] at quiet
  have free : done.parked = false := by
    rw [← Bool.not_eq_true]
    exact fun waits => Table.not_quiet_of_parked passed waits quiet
  exact ⟨remark, call, done, decided, passed, free, outcome free, left⟩

/-- It is not refused, leads where it should, and changes the modes of nobody else. -/
theorem System.perform_of_leads {system : System} {owner : TransactionId} {operation : Operation}
    {modes after : Modes} (ready : system.store.Ready owner modes)
    (leads : operation.Leads owner modes after)
    (quiet : (system.perform owner operation).2.store.table.Quiet) :
    (∀ refusal, (system.perform owner operation).1 ≠ .refused refusal) ∧
      ∃ table : Table,
        (system.perform owner operation).2.store = { system.store with table := table } ∧
        table.modeOf owner = after ∧
        ∀ other, other ≠ owner → table.modeOf other = system.store.table.modeOf other := by
  obtain ⟨remark, call, done, decided, passed, free, reached, left⟩ :=
    System.made_of_leads ready leads quiet
  obtain ⟨names, serves⟩ := ready.quiet.servesFrom passed free
  refine ⟨?_, done.table, left, reached, fun other apart =>
    ready.sound.modeOf_servesFrom serves apart⟩
  rw [perform_of_make decided]
  have passes : (system.note (remark.toList.map Notice.remark)).store.table.call owner call =
      .ok done := passed
  exact carryOut_not_refused passes

theorem Plan.isDone_iff {plan : Plan} : plan.isDone = true ↔ plan = .done := by
  cases plan with
  | done => exact iff_of_true rfl rfl
  | fail | look | say | perform => exact iff_of_false nofun nofun

namespace Interleaving

/-- A step of a transaction leaves the contexts, and what the others hold and have to do. -/
structure StepOf (owner : TransactionId) (before after : Interleaving) : Prop where
  config : after.system.store.config = before.system.store.config
  contexts : after.contexts = before.contexts
  rest : ∀ other, other ≠ owner → after.rest other = before.rest other
  held : ∀ other, other ≠ owner → after.table.modeOf other = before.table.modeOf other

variable {state : Interleaving} {owner : TransactionId} {goal : Modes → Prop} {most : Nat}

theorem stepOf_goOn {system : System} {plan : Plan} {table : Table}
    (left : system.store = { state.system.store with table := table })
    (held : ∀ other, other ≠ owner → table.modeOf other = state.table.modeOf other) :
    StepOf owner state (state.goOn owner system plan) where
  config := by
    show system.store.config = _
    rw [left]
  contexts := by
    show system.store.contexts = _
    rw [left]
  rest other apart := if_neg apart
  held other apart := by
    show system.store.table.modeOf other = _
    rw [left]
    exact held other apart

/-- The next step of an assured plan, in a state where nobody waits, leaves an assured plan unless
somebody waits afterwards. -/
theorem advance_of_assured (ready : state.system.store.Ready owner (state.table.modeOf owner))
    (quiet : (state.advance owner).table.Quiet)
    (assured : (state.rest owner).Assured owner goal (state.table.modeOf owner)) :
    StepOf owner state (state.advance owner) ∧
      ((state.advance owner).rest owner).Assured owner goal
        ((state.advance owner).table.modeOf owner) := by
  have idle := ready.quiet.not_waiting owner
  generalize planned : state.rest owner = plan at assured
  have step := advance_of_idle idle plan planned
  have same (system : System) (rest : Plan) (unchanged : system.store = state.system.store)
      (assured : rest.Assured owner goal (state.table.modeOf owner)) :
      StepOf owner state (state.goOn owner system rest) ∧
        ((state.goOn owner system rest).rest owner).Assured owner goal
          ((state.goOn owner system rest).table.modeOf owner) := by
    have table : (state.goOn owner system rest).table = state.table :=
      congrArg Store.table unchanged
    refine ⟨stepOf_goOn unchanged fun _ _ => rfl, ?_⟩
    rw [rest_goOn, table]
    exact assured
  cases plan with
  | done =>
      rw [step]
      refine ⟨⟨rfl, rfl, fun _ _ => rfl, fun _ _ => rfl⟩, ?_⟩
      rw [planned]
      exact assured
  | fail => exact False.elim assured
  | look next =>
      rw [step]
      exact same _ _ rfl (assured state.system.store ready)
  | say remark next =>
      rw [step]
      exact same _ _ rfl assured
  | perform operation next =>
      obtain ⟨after, leads, assured⟩ := assured
      rw [step] at quiet ⊢
      obtain ⟨passes, table, left, own, others⟩ := System.perform_of_leads ready leads quiet
      refine ⟨stepOf_goOn left others, ?_⟩
      have table_eq : (state.goOn owner (state.system.perform owner operation).2
          (next.following (state.system.perform owner operation).1)).table = table :=
        congrArg Store.table left
      rw [rest_goOn, table_eq, own, Plan.following_of_not_refused passes]
      exact assured

/-- An assured plan does not fail. -/
theorem not_fails_of_assured (ready : state.system.store.Ready owner (state.table.modeOf owner))
    (assured : (state.rest owner).Assured owner goal (state.table.modeOf owner)) :
    ¬state.Fails owner := by
  intro fails
  rw [Fails] at fails
  cases planned : state.rest owner with
  | done | look | say =>
      rw [planned] at fails
      exact fails
  | fail =>
      rw [planned] at assured
      exact assured
  | perform operation next =>
      rw [planned] at fails assured
      obtain ⟨refusal, refused⟩ := fails
      obtain ⟨after, leads, _⟩ := assured
      obtain ⟨remark, call, done, decided, passed, _⟩ := leads state.system.store ready
      let noted := state.system.note (remark.toList.map Notice.remark)
      have passed : noted.store.table.call owner call = .ok done := passed
      rw [System.perform_of_make decided] at refused
      exact System.carryOut_not_refused passed refusal refused

/-- A step of a plan that has something to do is one of those that it has left. -/
theorem within_advance (idle : ¬state.table.Waiting owner)
    (busy : (state.rest owner).isDone = false) (within : (state.rest owner).Within most) :
    0 < most ∧ ((state.advance owner).rest owner).Within (most - 1) := by
  generalize planned : state.rest owner = plan at busy within
  rw [advance_of_idle idle plan planned]
  cases plan with
  | done => cases busy
  | fail =>
      refine ⟨within, ?_⟩
      rw [rest_goOn]
      trivial
  | look next =>
      refine ⟨within.1, ?_⟩
      rw [rest_goOn]
      exact within.2 state.system.store
  | say remark next =>
      refine ⟨within.1, ?_⟩
      rw [rest_goOn]
      exact within.2
  | perform operation next =>
      refine ⟨within.1, ?_⟩
      rw [rest_goOn]
      cases (state.system.perform owner operation).1 with
      | refused => trivial
      | returned | suspended => exact within.2

/-! ### Turns -/

/-- What holds in every state of a run that only plans and in which nobody has to wait. -/
structure Planned (state : Interleaving) : Prop where
  steady : state.Steady
  allowed : state.system.store.config.readOnlyRoots = []
  writable : state.contexts.Writable
  assured : ∀ owner, (state.rest owner).Assured owner Modes.Tidy (state.table.modeOf owner)

/-- A turn of a look-up that is made changes the contexts alone. -/
theorem after_lookUp (steady : state.Steady) (wanted : LookUp) :
    ∃ contexts, ContextTree.Made state.system.store.config state.contexts contexts ∧
      state.after (.lookUp wanted) = state.withContexts contexts := by
  rw [Interleaving.after]
  split
  · next known =>
      split
      · exact ⟨state.contexts, .nothing, rfl⟩
      · next context grown found =>
          refine ⟨grown, LookUp.made steady.contexts (fun start member => ?_) found, rfl⟩
          rw [Option.mem_def.mp member] at known
          exact of_decide_eq_true known
  · exact ⟨state.contexts, .nothing, rfl⟩

/-- A demand is open to a transaction that has nothing to do and does not wait. -/
theorem after_demand_of_idle {demand : Demand} (idle : (state.rest owner).isDone = true)
    (quiet : state.table.Quiet)
    (known : ∀ context ∈ demand.context?, state.contexts.Knows context) :
    state.after (.demand owner demand) = state.goOn owner state.system (demand.plan owner) := by
  have free : state.table.isWaiting owner = false := by
    rw [← Bool.not_eq_true, Table.isWaiting_iff]
    exact quiet.not_waiting owner
  have there : (demand.context?.all fun context => state.contexts.Knows context) = true := by
    cases about : demand.context? with
    | none => rfl
    | some context => exact decide_eq_true (known context about)
  rw [Interleaving.after, idle, free, there]
  rfl

namespace Planned

theorem opened (config : Config) (handles : Std.ExtTreeMap TransactionId Handle)
    (allowed : config.readOnlyRoots = []) : (Interleaving.opened config handles).Planned where
  steady := .opened config handles
  allowed := allowed
  writable := .empty
  assured := Modes.Tidy.empty

variable (planned : state.Planned) (quiet : state.table.Quiet)
include planned quiet

theorem ready (owner : TransactionId) :
    state.system.store.Ready owner (state.table.modeOf owner) :=
  ⟨planned.steady.sound, quiet, planned.writable, rfl⟩

/-- A turn that is not a step of the transaction, and does not give it a plan, leaves what it holds
and has to do. -/
theorem unchanged {turn : Turn} (quietAfter : (state.after turn).table.Quiet) (plans : turn.Plans)
    (busy : (state.rest owner).isDone = false ∨ ∀ demand, turn ≠ .demand owner demand)
    (apart : turn.isStepOf owner = false) :
    (state.after turn).rest owner = state.rest owner ∧
      (state.after turn).table.modeOf owner = state.table.modeOf owner := by
  cases turn with
  | lookUp wanted =>
      obtain ⟨contexts, _, same⟩ := after_lookUp planned.steady wanted
      rw [same]
      exact ⟨rfl, rfl⟩
  | disableChildLocks => exact False.elim plans
  | demand other demand =>
      rw [Interleaving.after]
      split
      · next isOpen =>
          refine ⟨if_neg ?_, rfl⟩
          rintro rfl
          simp only [Bool.and_eq_true] at isOpen
          rcases busy with busy | apart
          · rw [busy] at isOpen
            cases isOpen.1.1
          · exact apart demand rfl
      · exact ⟨rfl, rfl⟩
  | advance other =>
      have notOwn : owner ≠ other := by
        rintro rfl
        simp [Turn.isStepOf] at apart
      obtain ⟨step, _⟩ := advance_of_assured (planned.ready quiet other) quietAfter
        (planned.assured other)
      exact ⟨step.rest owner notOwn, step.held owner notOwn⟩

/-- A turn leaves a plan assured of its goal, unless it demands another plan. -/
theorem keeps {turn : Turn} (quietAfter : (state.after turn).table.Quiet) (plans : turn.Plans)
    (busy : (state.rest owner).isDone = false ∨ ∀ demand, turn ≠ .demand owner demand)
    (assured : (state.rest owner).Assured owner goal (state.table.modeOf owner)) :
    ((state.after turn).rest owner).Assured owner goal ((state.after turn).table.modeOf owner) := by
  cases step : turn.isStepOf owner with
  | true =>
      obtain rfl := Turn.eq_of_isStepOf step
      exact (advance_of_assured (planned.ready quiet owner) quietAfter assured).2
  | false =>
      obtain ⟨rest, held⟩ := planned.unchanged quiet quietAfter plans busy step
      rw [rest, held]
      exact assured

/-- Every step of a plan under way is one of those that it has left. -/
theorem within_after {turn : Turn} (quietAfter : (state.after turn).table.Quiet)
    (plans : turn.Plans) (busy : (state.rest owner).isDone = false)
    (within : (state.rest owner).Within most) : ∃ left, ((state.after turn).rest owner).Within left ∧
      left + (if turn.isStepOf owner then 1 else 0) ≤ most := by
  cases step : turn.isStepOf owner with
  | true =>
      obtain rfl := Turn.eq_of_isStepOf step
      obtain ⟨some, within⟩ := within_advance (quiet.not_waiting owner) busy within
      exact ⟨most - 1, within, by rw [if_pos rfl]; omega⟩
  | false =>
      obtain ⟨rest, _⟩ := planned.unchanged quiet quietAfter plans (Or.inl busy) step
      rw [rest]
      exact ⟨most, within, Nat.le_refl most⟩

omit quiet in
/-- The plan that ensures a mode at a context of the tree is assured. -/
theorem assured_ensure {context : Context} {wanted : Mode} (plannable : wanted ∈ [.NL, .S, .X])
    (known : state.contexts.Knows context) {modes : Modes} (tidy : modes.Tidy) :
    (context.ensure owner wanted).Assured owner (Modes.Suffices owner context wanted) modes := by
  have wants : wanted = .NL ∨ wanted = .S ∨ wanted = .X := by simpa using plannable
  rw [Context.ensure, if_pos wants]
  exact Planner.assured_ensureAt plannable (planned.steady.contexts.aligned known)
    (planned.writable.places known) tidy

omit quiet in
/-- So is every plan that is demanded in such a run. -/
theorem assured_plan {demand : Demand} (plans : (Turn.demand owner demand).Plans)
    (known : ∀ context ∈ demand.context?, state.contexts.Knows context) {modes : Modes}
    (tidy : modes.Tidy) : (demand.plan owner).Assured owner Modes.Tidy modes := by
  cases demand with
  | ensure context wanted =>
      exact (planned.assured_ensure plans (known context rfl) tidy).mono fun _ => (·.tidy)
  | releaseAll => exact assured_releaseAll tidy
  | acquire | release | promote | escalate | ensureIntentions => exact False.elim plans

omit quiet in
/-- A demand that is open leaves the transaction with a plan that is assured. -/
theorem demand {demand : Demand} (plans : (Turn.demand owner demand).Plans)
    (idle : (state.rest owner).isDone = true)
    (known : ∀ context ∈ demand.context?, state.contexts.Knows context) :
    (state.goOn owner state.system (demand.plan owner)).Planned where
  steady := (planned.steady.goOn_of_store_eq rfl (Demand.plan_fits owner fun context about =>
    planned.steady.contexts.aligned (known context about))).steady
  allowed := planned.allowed
  writable := planned.writable
  assured other := by
    show Plan.Assured other _ _ (state.table.modeOf other)
    by_cases own : other = owner
    · subst own
      rw [rest_goOn]
      have tidy := planned.assured other
      rw [Plan.isDone_iff.mp idle] at tidy
      exact planned.assured_plan plans known tidy
    · rw [goOn]
      simp only [own, if_false]
      exact planned.assured other

theorem after {turn : Turn} (quietAfter : (state.after turn).table.Quiet) (plans : turn.Plans) :
    (state.after turn).Planned := by
  have steady := (planned.steady.after turn).steady
  cases turn with
  | lookUp wanted =>
      obtain ⟨contexts, made, same⟩ := after_lookUp planned.steady wanted
      rw [same] at steady ⊢
      exact ⟨steady, planned.allowed, planned.writable.made planned.allowed made, planned.assured⟩
  | disableChildLocks => exact False.elim plans
  | demand owner demand =>
      rw [Interleaving.after]
      split
      · next isOpen =>
          simp only [Bool.and_eq_true] at isOpen
          apply planned.demand plans isOpen.1.1
          intro context member
          have known := isOpen.2
          rw [Option.mem_def.mp member] at known
          exact of_decide_eq_true known
      · exact planned
  | advance owner =>
      obtain ⟨step, _⟩ := advance_of_assured (planned.ready quiet owner) quietAfter
        (planned.assured owner)
      refine ⟨steady, step.config ▸ planned.allowed, step.contexts ▸ planned.writable, ?_⟩
      intro other
      apply planned.keeps quiet quietAfter plans _ (planned.assured other)
      exact Or.inr fun _ => Turn.noConfusion

end Planned

/-- One more turn of a run. -/
theorem run_take_succ (turns : List Turn) (count : Nat) :
    state.run (turns.take (count + 1)) =
      (turns[count]?.toList).foldl Interleaving.after (state.run (turns.take count)) := by
  rw [List.take_add_one, run, List.foldl_append]
  rfl

/-- The turn of a call that ensures a mode gives the transaction the plan for it. -/
theorem run_take_ensure {turns : List Turn} {start : Nat} {context : Context} {wanted : Mode}
    (demanded : turns[start]? = some (.demand owner (.ensure context wanted)))
    (idle : ((state.run (turns.take start)).rest owner).isDone = true)
    (quiet : (state.run (turns.take start)).table.Quiet)
    (known : (state.run (turns.take start)).contexts.Knows context) :
    state.run (turns.take (start + 1)) = (state.run (turns.take start)).goOn owner
      (state.run (turns.take start)).system (context.ensure owner wanted) := by
  rw [run_take_succ, demanded]
  exact after_demand_of_idle idle quiet fun other about => by cases about; exact known

theorem countP_take_succ {turns : List Turn} {start stop : Nat} (later : start < stop)
    (inside : start < turns.length) {counts : Turn → Bool} :
    ((turns.take (stop + 1)).drop (start + 1)).countP counts =
      ((turns.take stop).drop (start + 1)).countP counts + turns[stop]?.toList.countP counts := by
  have reaches : start + 1 ≤ (turns.take stop).length := by
    rw [List.length_take]
    omega
  rw [List.take_add_one, List.drop_append_of_le_length reaches, List.countP_append]

section

variable {turns : List Turn} (planned : state.Planned) (plans : ∀ turn ∈ turns, turn.Plans)
  (quiet : ∀ count, (state.run (turns.take count)).table.Quiet)
include planned plans quiet

theorem planned_run (count : Nat) : (state.run (turns.take count)).Planned := by
  induction count with
  | zero => exact planned
  | succ count inductionHypothesis =>
      have quietAfter := quiet (count + 1)
      rw [run_take_succ] at quietAfter ⊢
      cases next : turns[count]? with
      | none => exact inductionHypothesis
      | some turn =>
          rw [next] at quietAfter
          exact inductionHypothesis.after (quiet count) quietAfter
            (plans turn (List.mem_of_getElem? next))

/-- As long as a call that ensures a mode is under way, its plan is assured, and the steps taken and
those left together are no more than those of the plan. -/
theorem pursued_run {start stop : Nat} {owner : TransactionId} {context : Context} {wanted : Mode}
    (demanded : turns[start]? = some (.demand owner (.ensure context wanted)))
    (idle : ((state.run (turns.take start)).rest owner).isDone = true)
    (known : (state.run (turns.take start)).contexts.Knows context) (later : start < stop)
    (underWay : ∀ between, start < between → between < stop →
      ((state.run (turns.take between)).rest owner).isDone = false) :
    let now := state.run (turns.take stop)
    (now.rest owner).Assured owner (Modes.Suffices owner context wanted) (now.table.modeOf owner) ∧
      ∃ left, (now.rest owner).Within left ∧
        left + ((turns.take stop).drop (start + 1)).countP (Turn.isStepOf owner) ≤
          2 * context.places.length + 3 := by
  induction stop, later using Nat.le_induction with
  | base =>
      have plannable := plans _ (List.mem_of_getElem? demanded)
      have before := planned_run planned plans quiet start
      have tidy := before.assured owner
      rw [Plan.isDone_iff.mp idle] at tidy
      rw [Nat.succ_eq_add_one, run_take_ensure demanded idle (quiet start) known]
      intro now
      rw [rest_goOn]
      have steps := Context.within_ensure owner wanted context
      refine ⟨before.assured_ensure plannable known tidy, _, steps, ?_⟩
      rw [List.drop_of_length_le (List.length_take_le _ _)]
      exact Nat.le_refl _
  | succ stop later inductionHypothesis =>
      obtain ⟨assured, left, within, bound⟩ := inductionHypothesis fun between after before =>
        underWay between after (Nat.lt_succ_of_lt before)
      have busy := underWay stop later (Nat.lt_succ_self stop)
      have quietAfter := quiet (stop + 1)
      have now := planned_run planned plans quiet stop
      have inside := (List.getElem?_eq_some_iff.mp demanded).1
      rw [run_take_succ] at quietAfter ⊢
      rw [countP_take_succ later inside]
      cases next : turns[stop]? with
      | none => exact ⟨assured, left, within, bound⟩
      | some turn =>
          rw [next] at quietAfter
          have plansNext := plans turn (List.mem_of_getElem? next)
          obtain ⟨fewer, withinNext, spent⟩ :=
            now.within_after (quiet stop) quietAfter plansNext busy within
          refine ⟨now.keeps (quiet stop) quietAfter plansNext (Or.inl busy) assured, fewer,
            withinNext, ?_⟩
          rw [Option.toList_some, List.countP_singleton]
          omega

end

/-- The planner is totally correct.  Let no root be read-only, and let transactions, in any order
and one step at a time, look up contexts, have `NL`, `S` or `X` ensured at contexts of any depth,
and give up everything, so that nobody ever has to wait.  Then no step ends a plan with a refusal.
A call that ensures a mode takes at most two steps for every place from the root to the context and
three more; and when it returns, the mode in force at the context covers the wanted one, or reading
was wanted and the transaction holds `SIX` strictly above the context. -/
theorem ensure_succeeds_run (config : Config) (handles : Std.ExtTreeMap TransactionId Handle)
    (allowed : config.readOnlyRoots = []) (turns : List Turn)
    (plans : ∀ turn ∈ turns, turn.Plans)
    (quiet : ∀ count, ((opened config handles).run (turns.take count)).table.Quiet) :
    let state (count : Nat) := (opened config handles).run (turns.take count)
    (∀ count owner, ¬(state count).Fails owner) ∧
    ∀ start owner context wanted, turns[start]? = some (.demand owner (.ensure context wanted)) →
      ((state start).rest owner).isDone = true → (state start).contexts.Knows context →
      ∀ stop, start < stop →
        (∀ between, start < between → between < stop →
          ((state between).rest owner).isDone = false) →
        ((turns.take stop).drop (start + 1)).countP (Turn.isStepOf owner) ≤
            2 * context.places.length + 3 ∧
          (((state stop).rest owner).isDone = true →
            Mode.covers (context.effectiveMode (state stop).table owner) wanted = true ∨
              wanted = .S ∧ ∃ upper, context.name.isBeneath upper = true ∧
                (state stop).table.modeOf owner upper = .SIX) := by
  intro state
  have opening : (opened config handles).Planned := .opened config handles allowed
  have ready (count : Nat) (owner : TransactionId) :
      (state count).system.store.Ready owner ((state count).table.modeOf owner) :=
    (planned_run opening plans quiet count).ready (quiet count) owner
  constructor
  · intro count owner
    exact not_fails_of_assured (ready count owner)
      ((planned_run opening plans quiet count).assured owner)
  · intro start owner context wanted demanded idle known stop later underWay
    obtain ⟨assured, left, _, bound⟩ :=
      pursued_run opening plans quiet demanded idle known later underWay
    refine ⟨Nat.le_trans (Nat.le_add_left _ left) bound, fun returned => ?_⟩
    have ended : ((opened config handles).run (turns.take stop)).rest owner = .done :=
      Plan.isDone_iff.mp returned
    rw [ended] at assured
    rcases assured.sufficient _ (ready stop owner) with covered | ⟨reads, above⟩
    · exact Or.inl covered
    · exact Or.inr ⟨reads, (ready stop owner).sound.hasSIXAbove_iff.mp above⟩

/-- The context of the users of a database, as a look-up finds it. -/
def users : Context :=
  ⟨⟨1, ⟨"database", ["users"]⟩, false⟩, [⟨0, ⟨"database", []⟩, false⟩]⟩

/-- A transaction looks up the users and has `S` ensured there, in five steps. -/
def readingUsers : List Turn :=
  [.lookUp (.spelled "database/users"), .demand 1 (.ensure users .S)] ++
    List.replicate 5 (.advance 1)

/-- It succeeds. -/
theorem ensure_succeeds_readingUsers :
    (∀ turn ∈ readingUsers, turn.Plans) ∧
    (∀ count, ((opened {} ∅).run (readingUsers.take count)).table.Quiet) ∧
    (Mode.covers (users.effectiveMode ((opened {} ∅).run readingUsers).table 1) .S = true ∨
      Mode.S = .S ∧ ∃ upper, users.name.isBeneath upper = true ∧
        ((opened {} ∅).run readingUsers).table.modeOf 1 upper = .SIX) := by
  have plans : ∀ turn ∈ readingUsers, turn.Plans := by
    simp [readingUsers, Turn.Plans]
  have quiet : ∀ count, ((opened {} ∅).run (readingUsers.take count)).table.Quiet := by
    have early : ∀ count < 8, ((opened {} ∅).run (readingUsers.take count)).table.Quiet := by
      decide +kernel
    intro count
    by_cases inside : count < 8
    · exact early count inside
    · have whole : readingUsers.take count = readingUsers.take 7 :=
        List.take_of_length_le (Nat.le_trans (by decide) (Nat.le_of_not_lt inside))
      rw [whole]
      exact early 7 (by decide)
  have underWay : ∀ between < 7, 1 < between →
      (((opened {} ∅).run (readingUsers.take between)).rest 1).isDone = false := by
    decide +kernel
  obtain ⟨_, succeeds⟩ := ensure_succeeds_run {} ∅ rfl readingUsers plans quiet
  have ended := (succeeds 1 1 users .S rfl (by decide +kernel) (by decide +kernel) 7 (by decide)
    fun between after before => underWay between before after).2 (by decide +kernel)
  exact ⟨plans, quiet, ended⟩

end Interleaving

end Granularity
