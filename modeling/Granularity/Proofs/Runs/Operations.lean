import Granularity.Proofs.Runs.Interleaving

/-!
The operations of plans.

What a plan does depends on what it sees, but planning keeps to one place and those above it, and
giving up everything only releases.  So a property of operations that holds at all these places
holds of every operation that a demand can lead to; and the number of the places bounds the number
of steps.
-/

namespace Granularity

/-- The operation takes, promotes or escalates a lock at a context. -/
def Operation.isUpgrade : Operation → Bool
  | acquire .. | promote .. | escalate _ => true
  | direct _ | release _ => false

namespace Plan

/-- Every operation of the plan has a property, whatever the plan sees. -/
def Every (holds : Operation → Prop) : Plan → Prop
  | done | fail _ => True
  | look next => ∀ store, (next store).Every holds
  | say _ next => next.Every holds
  | perform operation next => holds operation ∧ next.Every holds

variable {holds : Operation → Prop}

theorem every_ask {operation : Operation} (here : holds operation) : (ask operation).Every holds :=
  ⟨here, trivial⟩

theorem Every.andThen {first second : Plan} (earlier : first.Every holds)
    (later : second.Every holds) : (first.andThen second).Every holds := by
  induction first with
  | done => exact later
  | fail => exact trivial
  | look next inductionHypothesis => exact fun store => inductionHypothesis store (earlier store)
  | say remark next inductionHypothesis => exact inductionHypothesis earlier
  | perform operation next inductionHypothesis =>
      exact ⟨earlier.1, inductionHypothesis earlier.2⟩

theorem Every.mono {weaker : Operation → Prop} {plan : Plan} (every : plan.Every holds)
    (implies : ∀ operation, holds operation → weaker operation) : plan.Every weaker := by
  induction plan with
  | done => exact trivial
  | fail => exact trivial
  | look next inductionHypothesis => exact fun store => inductionHypothesis store (every store)
  | say remark next inductionHypothesis => exact inductionHypothesis every
  | perform operation next inductionHypothesis =>
      exact ⟨implies operation every.1, inductionHypothesis every.2⟩

/-- However an operation ends, what follows keeps the property. -/
theorem Every.following {next : Plan} (every : next.Every holds) (outcome : Outcome) :
    (next.following outcome).Every holds := by
  cases outcome with
  | returned => exact every
  | refused => exact trivial
  | suspended => exact every

theorem every_ofList {operations : List Operation}
    (all : ∀ operation ∈ operations, holds operation) : (ofList operations).Every holds := by
  induction operations with
  | nil => exact trivial
  | cons first rest inductionHypothesis =>
      refine ⟨all first List.mem_cons_self, inductionHypothesis ?_⟩
      exact fun operation member => all operation (List.mem_cons_of_mem first member)

end Plan

namespace Planner

variable {owner : TransactionId} {holds : Operation → Prop}

/-- At the first of some places, and at every place after it with those after that one, every
operation has a property. -/
def Along (holds : Operation → Prop) : List Place → Prop
  | [] => True
  | place :: above =>
      (∀ operation : Operation, operation.context? = some ⟨place, above⟩ → holds operation) ∧
        Along holds above

theorem along_of_forall (all : ∀ operation, holds operation) : ∀ places, Along holds places
  | [] => trivial
  | _ :: above => ⟨fun operation _ => all operation, along_of_forall all above⟩

theorem Along.mono {weaker : Operation → Prop} {places : List Place} (along : Along holds places)
    (implies : ∀ operation, holds operation → weaker operation) : Along weaker places := by
  induction places with
  | nil => exact trivial
  | cons place above inductionHypothesis =>
      exact ⟨fun operation about => implies operation (along.1 operation about),
        inductionHypothesis along.2⟩

open Plan (every_ask)

/-- Planning does nothing but upgrades. -/
theorem every_ensureIntentions (intention : Mode) {places : List Place}
    (along : Along (fun operation => operation.isUpgrade = true → holds operation) places) :
    (ensureIntentions owner intention places).Every holds := by
  induction places with
  | nil => exact trivial
  | cons place above inductionHypothesis =>
      obtain ⟨here, above⟩ := along
      rw [ensureIntentions]
      split
      · exact trivial
      · intro store
        dsimp only
        split
        · exact trivial
        · apply (inductionHypothesis above).andThen
          apply every_ask
          -- Whatever is held there, the one operation is on this very place.
          split
          · exact here _ rfl rfl
          · exact here _ rfl rfl
          · exact here _ rfl rfl

theorem every_ensureAt (wanted : Mode) {places : List Place}
    (along : Along (fun operation => operation.isUpgrade = true → holds operation) places) :
    (ensureAt owner wanted places).Every holds := by
  induction places with
  | nil => exact trivial
  | cons place above inductionHypothesis =>
      obtain ⟨here, alongAbove⟩ := along
      have intentions (intention : Mode) : (ensureIntentions owner intention above).Every holds :=
        every_ensureIntentions intention alongAbove
      rw [ensureAt]
      intro store
      dsimp only
      -- The cases are those of the planner, in its order.
      split
      · exact trivial
      · split
        · exact trivial
        · show Plan.Every holds (ite _ _ _)
          split
          · exact (intentions .IX).andThen (every_ask (here _ rfl rfl))
          · split
            · refine (intentions _).andThen ⟨here _ rfl rfl, fun later => ?_⟩
              dsimp only
              split
              · exact trivial
              · exact every_ask (here _ rfl rfl)
            · split
              · exact (intentions _).andThen (every_ask (here _ rfl rfl))
              · split
                · exact (intentions .IX).andThen (every_ask (here _ rfl rfl))
                · split
                  · exact trivial
                  · split
                    · exact every_ask (here _ rfl rfl)
                    · exact inductionHypothesis alongAbove

end Planner

/-- The demand is for giving up a lock, or all of them. -/
def Demand.givesUp : Demand → Bool
  | release _ | releaseAll => true
  | acquire .. | promote .. | escalate _ | ensure .. | ensureIntentions .. => false

/-- Whatever a demand leads to is an operation at the context of the demand or above it, or a
release. -/
theorem Demand.every_plan {holds : Operation → Prop} (demand : Demand) (owner : TransactionId)
    (along : ∀ context ∈ demand.context?, Planner.Along holds context.places)
    (releases : demand = .releaseAll → ∀ name, holds (.direct (.release name))) :
    (demand.plan owner).Every holds := by
  have asks (operation : Operation) {context : Context}
      (about : operation.context? = some context) (made : demand.context? = some context) :
      (Plan.ask operation).Every holds :=
    Plan.every_ask ((along context made).1 operation about)
  cases demand with
  | acquire context mode => exact asks _ rfl rfl
  | release context => exact asks _ rfl rfl
  | promote context mode => exact asks _ rfl rfl
  | escalate context => exact asks _ rfl rfl
  | ensure context wanted =>
      rw [plan, Context.ensure]
      split
      · exact Planner.every_ensureAt wanted ((along context rfl).mono fun _ here _ => here)
      · exact trivial
  | ensureIntentions context intention =>
      cases context with
      | none => exact trivial
      | some context =>
          exact Planner.every_ensureIntentions intention
            ((along context rfl).mono fun _ here _ => here)
  | releaseAll =>
      intro store
      apply Plan.every_ofList
      intro operation member
      obtain ⟨lock, _, rfl⟩ := List.mem_map.mp member
      exact releases rfl lock.name

/-- A demand that gives up no lock is met by upgrades alone. -/
theorem Demand.every_upgrade (demand : Demand) (owner : TransactionId)
    (keeps : demand.givesUp = false) :
    (demand.plan owner).Every fun operation => operation.isUpgrade = true := by
  cases demand with
  | acquire | promote | escalate => exact Plan.every_ask rfl
  | release => cases keeps
  | ensure context wanted =>
      rw [plan, Context.ensure]
      split
      · exact Planner.every_ensureAt wanted (Planner.along_of_forall (fun _ => id) _)
      · exact trivial
  | ensureIntentions context intention =>
      cases context with
      | none => exact trivial
      | some context =>
          exact Planner.every_ensureIntentions intention (Planner.along_of_forall (fun _ => id) _)
  | releaseAll => cases keeps

/-! ### The number of steps -/

namespace Plan

/-- The plan ends within so many steps, whatever it sees. -/
def Within : Plan → Nat → Prop
  | done, _ => True
  | fail _, most => 0 < most
  | look next, most => 0 < most ∧ ∀ store, (next store).Within (most - 1)
  | say _ next, most => 0 < most ∧ next.Within (most - 1)
  | perform _ next, most => 0 < most ∧ next.Within (most - 1)

theorem Within.mono {plan : Plan} {most more : Nat} (within : plan.Within most)
    (le : most ≤ more) : plan.Within more := by
  induction plan generalizing most more with
  | done => trivial
  | fail => exact Nat.lt_of_lt_of_le within le
  | look next inductionHypothesis =>
      exact ⟨Nat.lt_of_lt_of_le within.1 le, fun store =>
        inductionHypothesis store (within.2 store) (Nat.sub_le_sub_right le 1)⟩
  | say _ next inductionHypothesis | perform _ next inductionHypothesis =>
      exact ⟨Nat.lt_of_lt_of_le within.1 le,
        inductionHypothesis within.2 (Nat.sub_le_sub_right le 1)⟩

theorem Within.andThen {first second : Plan} {most more : Nat} (earlier : first.Within most)
    (later : second.Within more) : (first.andThen second).Within (most + more) := by
  induction first generalizing most with
  | done => exact later.mono (Nat.le_add_left more most)
  | fail => exact Nat.lt_of_lt_of_le earlier (Nat.le_add_right most more)
  | look next inductionHypothesis =>
      refine ⟨Nat.lt_of_lt_of_le earlier.1 (Nat.le_add_right most more), fun store => ?_⟩
      rw [Nat.sub_add_comm earlier.1]
      exact inductionHypothesis store (earlier.2 store)
  | say _ next inductionHypothesis | perform _ next inductionHypothesis =>
      refine ⟨Nat.lt_of_lt_of_le earlier.1 (Nat.le_add_right most more), ?_⟩
      rw [Nat.sub_add_comm earlier.1]
      exact inductionHypothesis earlier.2

theorem within_ask (operation : Operation) : (ask operation).Within 1 :=
  ⟨Nat.one_pos, trivial⟩

end Plan

namespace Planner

variable (owner : TransactionId)

open Plan (within_ask)

/-- At every place there is a look and an operation at most. -/
theorem within_ensureIntentions (intention : Mode) (places : List Place) :
    (ensureIntentions owner intention places).Within (2 * places.length) := by
  induction places with
  | nil => trivial
  | cons place above inductionHypothesis =>
      rw [ensureIntentions, List.length_cons]
      split
      · trivial
      · refine ⟨by omega, fun store => ?_⟩
        dsimp only
        split
        · trivial
        · exact (inductionHypothesis.andThen (within_ask _)).mono (by omega)

/-- And three steps more at the place for which a mode is wanted. -/
theorem within_ensureAt (wanted : Mode) (places : List Place) :
    (ensureAt owner wanted places).Within (2 * places.length + 3) := by
  induction places with
  | nil => trivial
  | cons place above inductionHypothesis =>
      have intentions (intention : Mode) (operation : Operation) :
          ((ensureIntentions owner intention above).andThen (.ask operation)).Within
            (2 * above.length + 3) :=
        ((within_ensureIntentions owner intention above).andThen (within_ask operation)).mono
          (by omega)
      rw [ensureAt, List.length_cons]
      refine ⟨by omega, fun store => ?_⟩
      dsimp only
      -- The cases are those of the planner, in its order.
      split
      · trivial
      · split
        · trivial
        · refine ⟨by omega, ?_⟩
          show Plan.Within _ (2 * above.length + 3)
          split
          · exact intentions _ _
          · split
            · have rest (operation : Operation) (enough : Store → Bool) : Plan.Within
                  (.perform operation (.look fun later =>
                    if enough later then .done else .ask (.promote ⟨place, above⟩ wanted))) 3 := by
                refine ⟨Nat.succ_pos _, Nat.succ_pos _, fun later => ?_⟩
                dsimp only
                split
                · trivial
                · exact within_ask _
              exact ((within_ensureIntentions owner _ above).andThen (rest _ _)).mono (by omega)
            · split
              · exact intentions _ _
              · split
                · exact intentions _ _
                · split
                  · exact Nat.succ_pos _
                  · split
                    · exact (within_ask _).mono (by omega)
                    · exact inductionHypothesis

end Planner

theorem Context.within_ensure (owner : TransactionId) (wanted : Mode) (context : Context) :
    (context.ensure owner wanted).Within (2 * context.places.length + 3) := by
  rw [ensure]
  split
  · exact Planner.within_ensureAt owner wanted context.places
  · exact Nat.succ_pos _

end Granularity
