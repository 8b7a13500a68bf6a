import Granularity.Planner
import Granularity.Proofs.Histories.Refusals

/-!
Planning that fails.

A single operation is refused before anything is done, but a plan performs several, and what it has
performed is not taken back when a later one is refused.  So planning that fails leaves the manager
as it was just when the very first operation of the plan is refused.  On a context that takes no
locks the intentions above are taken all the same, and stay.
-/

namespace Granularity

/-! ### The first operation of a plan -/

/-- The refusal that an operation meets in a state, if it meets one. -/
def Operation.refusal? (operation : Operation) (store : Store) (owner : TransactionId) :
    Option Refusal :=
  match operation.decide store owner with
  | .error refusal => some refusal
  | .ok .stay => none
  | .ok (.make _ call) =>
      match store.table.call owner call with
      | .error refusal => some refusal
      | .ok _ => none

namespace Plan

/-- The operation that a plan performs first in a state, if it performs any. -/
def first? (store : Store) : Plan → Option Operation
  | done | fail _ => none
  | look next => (next store).first? store
  | say _ next => next.first? store
  | perform operation _ => some operation

/-- The first of two plans in a row has the first operation, unless it has none. -/
theorem first?_andThen {store : Store} {operation : Operation} {first second : Plan}
    (starts : (first.andThen second).first? store = some operation) :
    first.first? store = some operation ∨ second.first? store = some operation := by
  induction first with
  | done => exact Or.inr starts
  | fail => cases starts
  | look next inductionHypothesis => exact inductionHypothesis store starts
  | say _ next inductionHypothesis => exact inductionHypothesis starts
  | perform => exact Or.inl starts

end Plan

namespace System

variable {system after : System} {owner : TransactionId}

/-- The other manager differs by remarks at most. -/
structure Untouched (system after : System) : Prop where
  store : after.store = system.store
  handles : after.handles = system.handles
  events : Notice.events after.journal = Notice.events system.journal

theorem Untouched.trans {last : System} (first : system.Untouched after)
    (second : after.Untouched last) : system.Untouched last :=
  ⟨second.store.trans first.store, second.handles.trans first.handles,
    second.events.trans first.events⟩

theorem untouched_note (system : System) (remarks : List Remark) :
    system.Untouched (system.note (remarks.map Notice.remark)) :=
  ⟨rfl, rfl, events_note_remarks system remarks⟩

theorem note_note (system : System) (first second : List Notice) :
    (system.note first).note second = system.note (first ++ second) := by
  rw [note, note, note, List.append_assoc]

/-- Until its first operation a plan only looks and makes remarks. -/
theorem run_of_first (system : System) (owner : TransactionId) {plan : Plan}
    {operation : Operation} (starts : plan.first? system.store = some operation) :
    ∃ (remarks : List Remark) (next : Plan), run owner plan system =
      run owner (.perform operation next) (system.note (remarks.map Notice.remark)) := by
  induction plan generalizing system with
  | done => cases starts
  | fail => cases starts
  | look next inductionHypothesis => exact inductionHypothesis system.store system starts
  | say remark next inductionHypothesis =>
      obtain ⟨remarks, last, ran⟩ := inductionHypothesis (system.note [.remark remark]) starts
      refine ⟨remark :: remarks, last, ?_⟩
      rw [run, ran, note_note]
      rfl
  | perform operation next =>
      cases starts
      exact ⟨[], next, by rw [List.map_nil, note_nil]⟩

/-- A plan without operations only looks and makes remarks. -/
theorem run_of_no_first (system : System) (owner : TransactionId) {plan : Plan}
    (idle : plan.first? system.store = none) :
    ∃ (remarks : List Remark) (result : Except Refusal Unit), run owner plan system =
      (.finished result, system.note (remarks.map Notice.remark)) := by
  induction plan generalizing system with
  | done => exact ⟨[], .ok (), by rw [run, List.map_nil, note_nil]⟩
  | fail refusal => exact ⟨[], .error refusal, by rw [run, List.map_nil, note_nil]⟩
  | look next inductionHypothesis => exact inductionHypothesis system.store system idle
  | say remark next inductionHypothesis =>
      obtain ⟨remarks, result, ran⟩ := inductionHypothesis (system.note [.remark remark]) idle
      refine ⟨remark :: remarks, result, ?_⟩
      rw [run, ran, note_note]
      rfl
  | perform => cases idle

/-! ### Events are never taken back -/

theorem events_perform_extends (system : System) (owner : TransactionId) (operation : Operation) :
    Notice.events system.journal <+: Notice.events (system.perform owner operation).2.journal := by
  cases decided : operation.decide system.store owner with
  | error => rw [perform, decided]
  | ok move =>
      cases move with
      | stay => rw [perform, decided]
      | make remark call =>
          let noted := system.note (remark.toList.map Notice.remark)
          rw [perform_of_make decided, ← events_note_remarks system remark.toList]
          cases answer : noted.store.table.call owner call with
          | error => rw [carryOut_of_refused answer]
          | ok done =>
              rw [journal_carryOut answer, events_append]
              exact List.prefix_append _ _

/-- Whatever follows an operation in a plan adds to its events. -/
theorem events_following_extends {owner : TransactionId} {next : Plan}
    (adds : ∀ system : System, Notice.events system.journal <+:
      Notice.events (run owner next system).2.journal) (system : System) (operation : Operation) :
    Notice.events (system.perform owner operation).2.journal <+:
      Notice.events (run owner (.perform operation next) system).2.journal := by
  rw [run]
  rcases system.perform owner operation with ⟨outcome, after⟩
  cases outcome with
  | returned => exact adds after
  | refused => exact List.prefix_refl _
  | suspended => exact List.prefix_refl _

theorem events_run_extends (owner : TransactionId) (plan : Plan) (system : System) :
    Notice.events system.journal <+: Notice.events (run owner plan system).2.journal := by
  induction plan generalizing system with
  | done => exact List.prefix_refl _
  | fail => exact List.prefix_refl _
  | look next inductionHypothesis => exact inductionHypothesis system.store system
  | say remark next inductionHypothesis =>
      rw [← events_note_remarks system [remark]]
      exact inductionHypothesis (system.note [.remark remark])
  | perform operation next inductionHypothesis =>
      exact (events_perform_extends system owner operation).trans
        (events_following_extends inductionHypothesis system operation)

/-! ### Refused at once, or too late -/

/-- An operation that meets a refusal leaves the manager untouched. -/
theorem perform_of_refusal {operation : Operation} {refusal : Refusal}
    (meets : operation.refusal? system.store owner = some refusal) :
    (system.perform owner operation).1 = .refused refusal ∧
      system.Untouched (system.perform owner operation).2 := by
  rw [Operation.refusal?] at meets
  split at meets
  · next decided =>
      cases meets
      rw [perform, decided]
      exact ⟨rfl, rfl, rfl, rfl⟩
  · cases meets
  · next remark call decided =>
      split at meets
      · next answer =>
          cases meets
          have refused : (system.note (remark.toList.map Notice.remark)).store.table.call owner call
              = .error refusal := answer
          rw [perform_of_make decided, carryOut_of_refused refused]
          exact ⟨rfl, untouched_note system remark.toList⟩
      · cases meets

/-- An operation that meets none leaves an event, unless there is nothing to do. -/
theorem events_perform_ne {operation : Operation}
    (meetsNone : operation.refusal? system.store owner = none)
    (moves : operation.decide system.store owner ≠ .ok .stay) :
    Notice.events (system.perform owner operation).2.journal ≠ Notice.events system.journal := by
  rw [ne_eq, events_perform_eq_iff, not_or]
  refine ⟨?_, moves⟩
  intro ⟨refusal, refused⟩
  rw [Operation.refusal?] at meetsNone
  split at meetsNone
  · cases meetsNone
  · next decided => exact moves decided
  · next remark call decided =>
      split at meetsNone
      · cases meetsNone
      · next done answer =>
          have passed : (system.note (remark.toList.map Notice.remark)).store.table.call owner call
              = .ok done := answer
          rw [perform_of_make decided] at refused
          exact carryOut_not_refused passed refusal refused

/-- A plan that fails leaves the manager untouched just when its first operation meets the refusal,
if there always is something to do for its first operation. -/
theorem untouched_of_failed_iff {plan : Plan} {refusal : Refusal}
    (moves : ∀ operation, plan.first? system.store = some operation →
      operation.decide system.store owner ≠ .ok .stay)
    (failed : run owner plan system = (.finished (.error refusal), after)) :
    system.Untouched after ↔ ∀ operation, plan.first? system.store = some operation →
      operation.refusal? system.store owner = some refusal := by
  cases starts : plan.first? system.store with
  | none =>
      obtain ⟨remarks, result, ran⟩ := run_of_no_first system owner starts
      rw [ran, Prod.mk.injEq] at failed
      rw [← failed.2]
      exact iff_of_true (untouched_note system remarks) nofun
  | some operation =>
      obtain ⟨remarks, next, ran⟩ := run_of_first system owner starts
      let noted := system.note (remarks.map Notice.remark)
      have untouched : system.Untouched noted := untouched_note system remarks
      rw [ran] at failed
      have stored : operation.refusal? noted.store owner =
          operation.refusal? system.store owner := rfl
      cases meets : operation.refusal? system.store owner with
      | some other =>
          obtain ⟨refused, same⟩ := perform_of_refusal (stored.trans meets)
          have ended : run owner (.perform operation next) noted =
              (.finished (.error other), (noted.perform owner operation).2) := by
            rw [run]
            rcases answered : noted.perform owner operation with ⟨outcome, left⟩
            rw [answered] at refused
            cases refused
            rfl
          rw [ended] at failed
          cases failed
          refine iff_of_true (untouched.trans same) ?_
          intro first same
          cases same
          exact meets
      | none =>
          refine iff_of_false ?_ fun all => ?_
          · intro left
            have same : Notice.events after.journal = Notice.events noted.journal :=
              left.events.trans untouched.events.symm
            have follows := events_following_extends (events_run_extends owner next) noted operation
            rw [failed, same] at follows
            exact events_perform_ne (stored.trans meets) (moves operation starts)
              (follows.sublist.antisymm (events_perform_extends noted owner operation).sublist)
          · have := all operation rfl
            rw [meets] at this
            cases this

end System

/-! ### Planning -/

theorem Context.acquire_ne_stay (context : Context) (store : Store) (owner : TransactionId)
    (mode : Mode) : context.acquire store owner mode ≠ .ok .stay := by
  intro stays
  obtain ⟨_, _, _, _, move⟩ := acquire_eq_ok.mp stays
  cases move

theorem Context.promote_ne_stay (context : Context) (store : Store) (owner : TransactionId)
    (mode : Mode) : context.promote store owner mode ≠ .ok .stay := by
  intro stays
  obtain ⟨_, _, _, _, _, _, move⟩ := promote_eq_ok.mp stays
  rw [promotion] at move
  split at move
  · cases move
  · cases move

/-- Where an intention is held there is something to escalate. -/
theorem Context.escalate_ne_stay {context : Context} {store : Store} {owner : TransactionId}
    (intent : (context.explicitMode store.table owner).isIntent = true) :
    context.escalate store owner ≠ .ok .stay := by
  intro stays
  obtain ⟨_, _, move⟩ := escalate_eq_ok.mp stays
  rw [if_pos intent] at move
  cases move

namespace Plan

/-- If a plan begins with an operation, there is something to do for it. -/
def Moves (plan : Plan) (store : Store) (owner : TransactionId) : Prop :=
  ∀ operation, plan.first? store = some operation → operation.decide store owner ≠ .ok .stay

variable {store : Store} {owner : TransactionId}

theorem moves_done : done.Moves store owner := nofun

theorem moves_fail (refusal : Refusal) : (fail refusal).Moves store owner := nofun

theorem Moves.look {next : Store → Plan} (moves : (next store).Moves store owner) :
    (look next).Moves store owner := moves

theorem Moves.say {remark : Remark} {next : Plan} (moves : next.Moves store owner) :
    (say remark next).Moves store owner := moves

theorem moves_perform {operation : Operation} {next : Plan}
    (moves : operation.decide store owner ≠ .ok .stay) :
    (perform operation next).Moves store owner := by
  intro first starts
  cases starts
  exact moves

theorem Moves.andThen {first second : Plan} (moves : first.Moves store owner)
    (movesLater : second.Moves store owner) : (first.andThen second).Moves store owner :=
  fun operation starts => (first?_andThen starts).elim (moves operation) (movesLater operation)

theorem moves_acquire {context : Context} {mode : Mode} :
    (ask (.acquire context mode)).Moves store owner :=
  moves_perform (context.acquire_ne_stay store owner mode)

theorem moves_promote {context : Context} {mode : Mode} :
    (ask (.promote context mode)).Moves store owner :=
  moves_perform (context.promote_ne_stay store owner mode)

end Plan

namespace Planner

variable {store : Store} {owner : TransactionId}

open Plan

theorem moves_ensureIntentions (intention : Mode) (places : List Place) :
    (ensureIntentions owner intention places).Moves store owner := by
  induction places with
  | nil => exact moves_done
  | cons place above inductionHypothesis =>
      rw [ensureIntentions]
      by_cases nothing : intention = .NL
      · rw [if_pos nothing]
        exact moves_done
      · rw [if_neg nothing]
        refine Moves.look ?_
        dsimp only
        by_cases enough :
            Mode.covers ((Context.mk place above).explicitMode store.table owner) intention = true
        · rw [if_pos enough]
          exact moves_done
        · rw [if_neg enough]
          refine inductionHypothesis.andThen ?_
          cases (Context.mk place above).explicitMode store.table owner with
          | NL => exact moves_acquire
          | IS | IX | S | SIX | X => exact moves_promote

theorem moves_ensureAt (wanted : Mode) (places : List Place) :
    (ensureAt owner wanted places).Moves store owner := by
  induction places with
  | nil => exact moves_done
  | cons place above inductionHypothesis =>
      rw [ensureAt]
      refine Moves.look ?_
      dsimp only
      -- The cases are those of the planner, in its order.
      split
      · exact moves_done
      · split
        · exact moves_done
        · refine Moves.say ?_
          split
          · exact (moves_ensureIntentions .IX above).andThen moves_promote
          · split
            · next intent =>
                exact (moves_ensureIntentions wanted.intention above).andThen
                  (moves_perform (Context.escalate_ne_stay intent))
            · split
              · exact (moves_ensureIntentions wanted.intention above).andThen moves_acquire
              · split
                · exact (moves_ensureIntentions .IX above).andThen moves_promote
                · split
                  · exact moves_fail _
                  · split
                    · exact moves_acquire
                    · exact inductionHypothesis

end Planner

namespace System

/-- Planning that fails leaves the manager as it was, but for remarks, just when the first operation
of the plan, if there is one, is refused; in whatever state it begins.  What has been performed
before a later refusal stays. -/
theorem untouched_of_failed_planning_iff (system : System) (owner : TransactionId)
    (context : Context) (mode : Mode) :
    ∀ plan ∈ [context.ensure owner mode, context.ensureIntentions owner mode],
      ∀ refusal after, run owner plan system = (.finished (.error refusal), after) →
        (system.Untouched after ↔ ∀ operation, plan.first? system.store = some operation →
          operation.refusal? system.store owner = some refusal) := by
  intro plan planned refusal after failed
  refine untouched_of_failed_iff ?_ failed
  rcases List.mem_pair.mp planned with rfl | rfl
  · rw [Context.ensure]
    split
    · exact Planner.moves_ensureAt mode context.places
    · exact Plan.moves_fail _
  · exact Planner.moves_ensureIntentions mode context.places

/-- Names of indices, beneath which no locks are taken. -/
def withIndices : Config := { readOnlyRoots := ["indices"] }

/-- A context that takes no locks, as a look-up finds it. -/
def readOnlyIndex : Context :=
  ⟨⟨1, ⟨"indices", ["users_pk"]⟩, true⟩, [⟨0, ⟨"indices", []⟩, false⟩]⟩

/-- A manager in which the index has been looked up and nothing else has been done. -/
def indexLookedUp : System :=
  ((Interleaving.opened withIndices ∅).run [.lookUp (.spelled "indices/users_pk")]).system

/-- Planning to read the index fails, because it takes no locks, but only once the intention above
has been taken; and that is still granted afterwards. -/
theorem not_untouched_reading_readOnlyIndex :
    indexLookedUp.store.contexts.Knows readOnlyIndex ∧
      ∃ refusal after, run 1 (readOnlyIndex.ensure 1 .S) indexLookedUp =
          (.finished (.error refusal), after) ∧
        (after.store.table.entry ⟨"indices", []⟩).granted = [⟨⟨"indices", []⟩, .IS, 1⟩] ∧
        ¬indexLookedUp.Untouched after := by
  refine ⟨by decide +kernel, .readOnly readOnlyIndex.name,
    (run 1 (readOnlyIndex.ensure 1 .S) indexLookedUp).2, ?_, by decide +kernel, ?_⟩
  · rfl
  · intro untouched
    have stored : (run 1 (readOnlyIndex.ensure 1 .S) indexLookedUp).2.store.table =
        indexLookedUp.store.table := congrArg Store.table untouched.store
    revert stored
    decide +kernel

/-- Planning to read the index again fails again, and now it changes nothing. -/
theorem untouched_rereading_readOnlyIndex :
    let again := (run 1 (readOnlyIndex.ensure 1 .S) indexLookedUp).2
    ∃ after, run 1 (readOnlyIndex.ensure 1 .S) again =
        (.finished (.error (.readOnly readOnlyIndex.name)), after) ∧
      again.Untouched after := by
  intro again
  have starts : (readOnlyIndex.ensure 1 .S).first? again.store =
      some (.acquire readOnlyIndex .S) := by
    decide +kernel
  have meets : Operation.refusal? (.acquire readOnlyIndex .S) again.store 1 =
      some (.readOnly readOnlyIndex.name) := by
    decide +kernel
  refine ⟨(run 1 (readOnlyIndex.ensure 1 .S) again).2, rfl, ?_⟩
  refine (untouched_of_failed_planning_iff again 1 readOnlyIndex .S _ List.mem_cons_self
    (.readOnly readOnlyIndex.name) _ rfl).mpr ?_
  intro operation first
  rw [starts, Option.some.injEq] at first
  rw [← first, meets]

end System

end Granularity
