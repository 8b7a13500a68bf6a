import Granularity.Proofs.Runs.Operations

/-!
What holds in every state of a run.

Plans either keep to operations on contexts, or give up locks one by one so that none is left
beneath a name that is given up.  Together with the soundness of the table and of the contexts, and
with the order among those that wait, this is an invariant of all turns; and every turn changes the
modes of every transaction by one `Change` at most.
-/

namespace Granularity

/-! ### Plans that keep to contexts -/

namespace Plan

/-- The plan performs operations on aligned contexts only. -/
def Aligned : Plan → Prop
  | done | fail _ => True
  | look next => ∀ store, (next store).Aligned
  | say _ next => next.Aligned
  | perform operation next => operation.Aligned ∧ next.Aligned

theorem aligned_iff_every {plan : Plan} : plan.Aligned ↔ plan.Every Operation.Aligned := by
  induction plan with
  | done => exact Iff.rfl
  | fail => exact Iff.rfl
  | look next inductionHypothesis => exact forall_congr' inductionHypothesis
  | say remark next inductionHypothesis => exact inductionHypothesis
  | perform operation next inductionHypothesis => exact and_congr_right' inductionHypothesis

end Plan

/-- At an aligned context and above it all operations are on aligned contexts. -/
theorem Context.Aligned.along {place : Place} {above : List Place}
    (aligned : Context.Aligned ⟨place, above⟩) :
    Planner.Along Operation.Aligned (place :: above) := by
  induction above generalizing place with
  | nil => exact ⟨fun _ about => ⟨_, about, aligned⟩, trivial⟩
  | cons upper above inductionHypothesis =>
      have upperAligned := (Context.Aligned.above aligned).2
      exact ⟨fun _ about => ⟨_, about, aligned⟩, inductionHypothesis upperAligned⟩

/-! ### Plans that give up locks -/

/-- The plan that gives up the locks on some names in order. -/
def releases (names : List ResourceName) : Plan :=
  .ofList (names.map fun name => .direct (.release name))

/-- Giving up some locks is giving up the locks on their names. -/
theorem releases_names (locks : List Lock) : releases (locks.map Lock.name) =
    .ofList (locks.map fun lock => .direct (.release lock.name)) := by
  rw [releases, List.map_map]
  rfl

/-- The names include every name with a lock, and none comes before a deeper one. -/
structure Modes.ShedBy (modes : Modes) (names : List ResourceName) : Prop where
  complete : ∀ name, modes name ≠ .NL → name ∈ names
  deepest_first : names.Pairwise fun first second => second.depth ≤ first.depth

namespace Modes.ShedBy

variable {modes : Modes} {name : ResourceName} {names : List ResourceName}

/-- When the first name has its turn, nothing is left beneath it. -/
theorem bare (shed : modes.ShedBy (name :: names)) : modes.Bare name := by
  intro other beneath
  by_contra held
  have deeper := ResourceName.depth_lt_of_isBeneath beneath
  rcases List.mem_cons.mp (shed.complete other held) with rfl | member
  · exact absurd deeper (Nat.lt_irrefl _)
  · have shallower := (List.pairwise_cons.mp shed.deepest_first).1 other member
    omega

/-- Once the first name has been given up, the others go on. -/
theorem next (shed : modes.ShedBy (name :: names)) : ShedBy (modes.drop name) names where
  complete other held := by
    rw [drop] at held
    split at held
    · exact absurd rfl held
    · next apart => exact (List.mem_cons.mp (shed.complete other held)).resolve_left apart
  deepest_first := (List.pairwise_cons.mp shed.deepest_first).2

end Modes.ShedBy

/-- The names on which a transaction holds locks, deepest first, shed all of its modes. -/
theorem Table.Sound.shedBy_deepestFirst {table : Table} (sound : table.Sound)
    (owner : TransactionId) :
    Modes.ShedBy (table.modeOf owner) ((deepestFirst (table.locksOf owner)).map Lock.name) where
  complete name held := by
    obtain ⟨lock, member, named⟩ := List.mem_map.mp (sound.modeOf_ne_NL_iff.mp held)
    exact List.mem_map.mpr ⟨lock, List.mem_mergeSort.mpr member, named⟩
  deepest_first := by
    rw [List.pairwise_map]
    have sorted : (deepestFirst (table.locksOf owner)).Pairwise fun first second =>
        decide (second.name.depth ≤ first.name.depth) = true := by
      refine List.pairwise_mergeSort ?_ ?_ _
      · intro first second third upper lower
        simp only [decide_eq_true_eq] at upper lower ⊢
        omega
      · intro first second
        simp only [Bool.or_eq_true, decide_eq_true_eq]
        omega
    exact sorted.imp fun le => of_decide_eq_true le

/-! ### The invariant -/

/-- What a transaction still has to do fits what it holds: its plan keeps to contexts, or it sheds
everything that is held, by a transaction that does not wait. -/
inductive Plan.Fits (table : Table) (owner : TransactionId) : Plan → Prop where
  | aligned {plan : Plan} (aligned : plan.Aligned) : Fits table owner plan
  | releaseAll : Fits table owner (Granularity.releaseAll owner)
  | announced {remark : Remark} {names : List ResourceName} (idle : ¬table.Waiting owner)
      (shed : Modes.ShedBy (table.modeOf owner) names) :
      Fits table owner (.say remark (releases names))
  | releasing {names : List ResourceName} (idle : ¬table.Waiting owner)
      (shed : Modes.ShedBy (table.modeOf owner) names) : Fits table owner (releases names)

namespace Plan.Fits

variable {table : Table} {owner : TransactionId}

/-- Looking at the table as it is, a plan goes on with one that fits it. -/
theorem look {store : Store} {next : Store → Plan} (sound : store.table.Sound)
    (idle : ¬store.table.Waiting owner) (fits : (Plan.look next).Fits store.table owner) :
    (next store).Fits store.table owner := by
  generalize looked : Plan.look next = plan at fits
  cases fits with
  | aligned aligned =>
      subst looked
      exact .aligned (aligned store)
  | releaseAll =>
      cases looked
      have shed := sound.shedBy_deepestFirst owner
      simp only [← releases_names]
      exact .announced idle shed
  | announced => cases looked
  | @releasing names => cases names <;> cases looked

theorem say {remark : Remark} {next : Plan} (fits : (Plan.say remark next).Fits table owner) :
    next.Fits table owner := by
  generalize said : Plan.say remark next = plan at fits
  cases fits with
  | aligned aligned =>
      subst said
      exact .aligned aligned
  | releaseAll => cases said
  | announced idle shed =>
      cases said
      exact .releasing idle shed
  | @releasing names => cases names <;> cases said

/-- The next operation is on an aligned context, or gives up the first of the names to shed. -/
theorem perform {operation : Operation} {next : Plan}
    (fits : (Plan.perform operation next).Fits table owner) :
    operation.Aligned ∧ next.Aligned ∨
      ∃ name names, operation = .direct (.release name) ∧ next = releases names ∧
        Modes.ShedBy (table.modeOf owner) (name :: names) := by
  generalize performed : Plan.perform operation next = plan at fits
  cases fits with
  | aligned aligned =>
      subst performed
      exact Or.inl aligned
  | releaseAll => cases performed
  | announced => cases performed
  | @releasing names idle shed =>
      cases names with
      | nil => cases performed
      | cons name names =>
          cases performed
          exact Or.inr ⟨name, names, rfl, rfl, shed⟩

/-- The step of another transaction leaves what a plan has to fit. -/
theorem other {before after : Table} {plan : Plan} (fits : plan.Fits before owner)
    (kept : ¬before.Waiting owner →
      after.modeOf owner = before.modeOf owner ∧ ¬after.Waiting owner) :
    plan.Fits after owner := by
  cases fits with
  | aligned aligned => exact .aligned aligned
  | releaseAll => exact .releaseAll
  | announced idle shed =>
      obtain ⟨same, stillIdle⟩ := kept idle
      exact .announced stillIdle (same ▸ shed)
  | releasing idle shed =>
      obtain ⟨same, stillIdle⟩ := kept idle
      exact .releasing stillIdle (same ▸ shed)

end Plan.Fits

/-- Every demand at a context whose places carry the names above it has a plan that fits. -/
theorem Demand.plan_fits {demand : Demand} {table : Table} (owner : TransactionId)
    (aligned : ∀ context ∈ demand.context?, context.Aligned) :
    (demand.plan owner).Fits table owner := by
  by_cases releases : demand = .releaseAll
  · subst releases
    exact .releaseAll
  · apply Plan.Fits.aligned
    apply Plan.aligned_iff_every.mpr
    exact demand.every_plan owner (fun context about => (aligned context about).along)
      fun same => absurd same releases

namespace Interleaving

/-- What holds in every state of a run. -/
structure Steady (state : Interleaving) : Prop where
  sound : state.table.Sound
  orderly : state.table.Orderly
  contexts : state.contexts.Sound
  plans : ∀ owner, (state.rest owner).Fits state.table owner

/-- A turn keeps the invariant and changes nobody's modes by more than one change. -/
structure Keeps (before after : Interleaving) : Prop where
  steady : after.Steady
  changes : ∀ owner, Change (before.table.modeOf owner) (after.table.modeOf owner)

variable {state : Interleaving}

namespace Steady

theorem opened (config : Config) (handles : Std.ExtTreeMap TransactionId Handle) :
    (Interleaving.opened config handles).Steady where
  sound := .empty
  orderly := .empty
  contexts := .empty
  plans _ := .aligned trivial

variable (steady : state.Steady)
include steady

theorem keeps : state.Keeps state :=
  ⟨steady, fun _ => .unchanged⟩

theorem withContexts {contexts : ContextTree} (sound : contexts.Sound) :
    state.Keeps (state.withContexts contexts) :=
  ⟨⟨steady.sound, steady.orderly, sound, steady.plans⟩, fun _ => .unchanged⟩

/-- A step that leaves the store alone. -/
theorem goOn_of_store_eq {owner : TransactionId} {system : System} {plan : Plan}
    (same : system.store = state.system.store) (fits : plan.Fits state.table owner) :
    state.Keeps (state.goOn owner system plan) := by
  have table : (state.goOn owner system plan).table = state.table := congrArg Store.table same
  have contexts : (state.goOn owner system plan).contexts = state.contexts :=
    congrArg Store.contexts same
  refine ⟨⟨table ▸ steady.sound, table ▸ steady.orderly, contexts ▸ steady.contexts, ?_⟩, ?_⟩
  · intro other
    rw [table, goOn]
    simp only
    split
    · next isOwner => exact isOwner ▸ fits
    · exact steady.plans other
  · intro other
    rw [table]
    exact .unchanged

/-- A step that carries out a call. -/
theorem goOn_of_call {owner : TransactionId} {system : System} {plan : Plan} {call : Call}
    {done : Section} (idle : ¬state.table.Waiting owner) (callFits : call.Fits state.table owner)
    (passed : state.table.call owner call = .ok done)
    (left : system.store = { state.system.store with table := done.table })
    (fits : plan.Fits done.table owner) : state.Keeps (state.goOn owner system plan) := by
  have table : (state.goOn owner system plan).table = done.table := congrArg Store.table left
  have contexts : (state.goOn owner system plan).contexts = state.contexts := by
    show system.store.contexts = state.contexts
    rw [left]
  obtain ⟨orderly, calledBy⟩ := steady.orderly.call steady.sound idle callFits passed
  refine ⟨⟨table ▸ steady.sound.call passed, table ▸ orderly, contexts ▸ steady.contexts, ?_⟩, ?_⟩
  · intro other
    rw [table, goOn]
    simp only
    split
    · next isOwner => exact isOwner ▸ fits
    · next apart => exact (steady.plans other).other (calledBy.others other apart)
  · intro other
    rw [table]
    exact calledBy.changes other

theorem lookUp (wanted : LookUp) : state.Keeps (state.after (.lookUp wanted)) := by
  rw [Interleaving.after]
  split
  · next known =>
      split
      · exact steady.keeps
      · next context grown found =>
          refine steady.withContexts
            (LookUp.finds steady.contexts (fun start member => ?_) found).sound
          rw [Option.mem_def.mp member] at known
          exact of_decide_eq_true known
  · exact steady.keeps

theorem demand (owner : TransactionId) (demand : Demand) :
    state.Keeps (state.after (.demand owner demand)) := by
  rw [Interleaving.after]
  split
  · next isOpen =>
      refine steady.goOn_of_store_eq rfl (Demand.plan_fits owner fun context member => ?_)
      simp only [Bool.and_eq_true] at isOpen
      have known := isOpen.2
      rw [Option.mem_def.mp member] at known
      exact steady.contexts.aligned (of_decide_eq_true known)
  · exact steady.keeps

/-- A performed operation keeps the invariant, whether the plan ends there or goes on. -/
theorem goOn_of_performed {owner : TransactionId} {operation : Operation} {next : Plan}
    (idle : ¬state.table.Waiting owner)
    (fits : (Plan.perform operation next).Fits state.table owner) {outcome : Outcome}
    {after : System} (performed : state.system.Performed owner operation outcome after.store) :
    state.Keeps (state.goOn owner after (next.following outcome)) := by
  cases performed with
  | refused ended same =>
      rw [ended]
      exact steady.goOn_of_store_eq same (.aligned trivial)
  | stayed ended decided same =>
      rw [Plan.following_of_not_refused ended]
      refine steady.goOn_of_store_eq same ?_
      rcases fits.perform with ⟨_, aligned⟩ | ⟨name, names, rfl, _⟩
      · exact .aligned aligned
      · cases decided
  | passed ended decided passed left =>
      rw [Plan.following_of_not_refused ended]
      rcases fits.perform with ⟨aligned, nextAligned⟩ | ⟨name, names, rfl, rfl, shed⟩
      · exact steady.goOn_of_call idle (aligned.fits steady.sound decided) passed left
          (.aligned nextAligned)
      · cases decided
        obtain ⟨_, _, dropped, stillIdle⟩ :=
          steady.orderly.release steady.sound idle shed.bare passed
        exact steady.goOn_of_call idle (.release shed.bare) passed left
          (.releasing stillIdle (dropped ▸ shed.next))

theorem advance (owner : TransactionId) : state.Keeps (state.advance owner) := by
  have fits := steady.plans owner
  rw [Interleaving.advance]
  split
  · exact steady.keeps
  · next free =>
      have idle : ¬state.table.Waiting owner := fun waits => free (Table.isWaiting_iff.mpr waits)
      split
      · exact steady.keeps
      · exact steady.goOn_of_store_eq rfl (.aligned trivial)
      · next looked =>
          rw [looked] at fits
          exact steady.goOn_of_store_eq rfl (fits.look steady.sound idle)
      · next said =>
          rw [said] at fits
          exact steady.goOn_of_store_eq rfl fits.say
      · next operation next performs =>
          rw [performs] at fits
          exact steady.goOn_of_performed idle fits (state.system.performed owner operation)

theorem after (turn : Turn) : state.Keeps (state.after turn) := by
  cases turn with
  | lookUp wanted => exact steady.lookUp wanted
  | disableChildLocks context =>
      exact steady.withContexts (steady.contexts.disableChildLocks context.place.id)
  | demand owner demand => exact steady.demand owner demand
  | advance owner => exact steady.advance owner

theorem run (turns : List Turn) : (state.run turns).Steady := by
  induction turns generalizing state with
  | nil => exact steady
  | cons turn turns inductionHypothesis => exact inductionHypothesis (steady.after turn).steady

/-- One more turn of a run changes nobody's modes by more than one change. -/
theorem keeps_take (turns : List Turn) (count : Nat) :
    (state.run (turns.take count)).Keeps (state.run (turns.take (count + 1))) := by
  have before := steady.run (turns.take count)
  rw [List.take_add_one, Interleaving.run, Interleaving.run, List.foldl_append]
  cases turns[count]? with
  | none => exact before.keeps
  | some turn => exact before.after turn

/-- What holds of the modes of a transaction at the start and survives every change of them holds
after any turns in order. -/
theorem modes_run {motive : Modes → Prop} {owner : TransactionId}
    (start : motive (state.table.modeOf owner))
    (change : ∀ before after, Change before after → motive before → motive after)
    (turns : List Turn) : motive ((state.run turns).table.modeOf owner) := by
  induction turns generalizing state with
  | nil => exact start
  | cons turn turns inductionHypothesis =>
      have keeps := steady.after turn
      exact inductionHypothesis keeps.steady (change _ _ (keeps.changes owner) start)

end Steady

end Interleaving

end Granularity
