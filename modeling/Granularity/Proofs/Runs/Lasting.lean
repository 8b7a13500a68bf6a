import Granularity.Proofs.Runs.Rejection
import Granularity.Proofs.Runs.Upgrades

/-!
What has been ensured stays ensured.

Where the modes are tidy, a mode in force suffices at a context just when the transaction has the
rights of the wanted mode there: this is about what is held above, and not about how it came to be
held.  Rights go down to everything beneath, and no upgrade loses them.  So a plan that has been
carried out once has nothing left to do, at its own context and at all those beneath, until its
transaction gives up its locks.
-/

namespace Granularity

/-! ### Rights and the modes in force -/

namespace Modes

/-- The rights that a mode gives: whoever has the mode on a name may read there if the mode reads,
and write if it writes. -/
structure Allows (modes : Modes) (name : ResourceName) (mode : Mode) : Prop where
  reads : Mode.covers mode .S = true → modes.HeldOver [.S, .SIX, .X] name
  writes : mode = .X → modes.HeldOver [.X] name

namespace Allows

variable {modes after : Modes} {name : ResourceName} {mode : Mode}

theorem of_covers (allows : modes.Allows name mode) {less : Mode}
    (covered : Mode.covers mode less = true) : modes.Allows name less where
  reads reads := allows.reads (Mode.covers_trans covered reads)
  writes writes := allows.writes (Mode.covers_X_iff.mp (writes ▸ covered))

theorem beneath {upper : ResourceName} (allows : modes.Allows upper mode)
    (within : upper ∈ name :: name.ancestors) : modes.Allows name mode where
  reads reads := (allows.reads reads).beneath within
  writes writes := (allows.writes writes).beneath within

theorem retained (allows : modes.Allows name mode) (retains : modes.Retains after) :
    after.Allows name mode where
  reads reads := retains.reads name (allows.reads reads)
  writes writes := retains.writes name (allows.writes writes)

end Allows

end Modes

namespace Table

variable {table : Table} {owner : TransactionId} {name : ResourceName}

/-- Where the modes are tidy, an `X` held on a name or above it is in force there. -/
theorem effectiveOn_eq_X_of_tidy (tidy : Modes.Tidy (table.modeOf owner))
    (writes : Modes.HeldOver (table.modeOf owner) [.X] name) :
    table.effectiveOn owner (name :: name.ancestors) = .X := by
  induction name using ResourceName.induction_child with
  | root segment =>
      have held := List.mem_singleton.mp (Modes.heldOver_root.mp writes)
      rw [effectiveOn_of_held (by simp [held]), held]
  | child parent segment inductionHypothesis =>
      rcases Modes.heldOver_child.mp writes with own | above
      · have held := List.mem_singleton.mp own
        rw [effectiveOn_of_held (by simp [held]), held]
      · exact effectiveOn_eq_X_of_parent tidy (ResourceName.parent?_child parent segment)
          (inductionHypothesis above)

/-- Where the modes are tidy, what reads a name on which a lock is held is held on the name itself,
or it is a `SIX` above: beneath `S` and `X` nothing is held. -/
theorem Sound.six_of_tidy (sound : table.Sound) (tidy : Modes.Tidy (table.modeOf owner))
    (held : table.modeOf owner name ≠ .NL)
    (reads : Modes.HeldOver (table.modeOf owner) [.S, .SIX, .X] name) :
    table.modeOf owner name ∈ [.S, .SIX, .X] ∨ table.hasSIXAbove owner name = true := by
  obtain ⟨upper, within, kind⟩ := reads
  rcases List.mem_cons.mp within with rfl | above
  · exact Or.inl kind
  · right
    have beneath := ResourceName.mem_ancestors.mp above
    refine sound.hasSIXAbove_iff.mpr ⟨upper, beneath, ?_⟩
    by_contra other
    have whole : table.modeOf owner upper ∈ [Mode.NL, .S, .X] := by
      simp only [List.mem_cons, List.not_mem_nil, or_false, other, false_or] at kind ⊢
      exact Or.inr kind
    exact held (tidy.bare whole name beneath)

/-- Where the modes are tidy, a mode that is held on a name or above it and reads is in force there,
or there is a `SIX` above. -/
theorem Sound.reads_of_tidy (sound : table.Sound) (tidy : Modes.Tidy (table.modeOf owner))
    (reads : Modes.HeldOver (table.modeOf owner) [.S, .SIX, .X] name) :
    Mode.covers (table.effectiveOn owner (name :: name.ancestors)) .S = true ∨
      table.hasSIXAbove owner name = true := by
  induction name using ResourceName.induction_child with
  | root segment =>
      have kind := Modes.heldOver_root.mp reads
      have held : table.modeOf owner ⟨segment, []⟩ ≠ .NL := fun free => by simp [free] at kind
      rw [effectiveOn_of_held held]
      exact Or.inl (Mode.covers_S_iff.mpr kind)
  | child parent segment inductionHypothesis =>
      by_cases free : table.modeOf owner (parent.child segment) = .NL
      · have above := (Modes.heldOver_child.mp reads).resolve_left (by simp [free])
        rcases inductionHypothesis above with parentReads | six
        · rw [effectiveOn_of_free free, ResourceName.ancestors_child]
          exact Or.inl (reads_handedDown parentReads)
        · obtain ⟨upper, beneath, held⟩ := sound.hasSIXAbove_iff.mp six
          exact Or.inr (sound.hasSIXAbove_iff.mpr
            ⟨upper, ResourceName.isBeneath_child.mpr (Or.inr beneath), held⟩)
      · rw [effectiveOn_of_held free, Mode.covers_S_iff]
        exact sound.six_of_tidy tidy free reads

end Table

namespace Context

variable {context : Context} {table : Table} {owner : TransactionId} {wanted : Mode}

/-- What suffices at a context are the rights there. -/
theorem sufficient_iff (aligned : context.Aligned) (sound : table.Sound)
    (tidy : Modes.Tidy (table.modeOf owner)) (plannable : wanted ∈ [.NL, .S, .X]) :
    context.Sufficient table owner wanted ↔
      Modes.Allows (table.modeOf owner) context.name wanted := by
  rw [Sufficient, aligned.effectiveMode_eq, hasSIXAbove]
  constructor
  · intro sufficient
    constructor
    case reads =>
      intro reads
      rcases sufficient with covered | ⟨rfl, six⟩
      · exact sound.heldOver_of_reads (Mode.covers_trans covered reads)
      · obtain ⟨upper, beneath, held⟩ := sound.hasSIXAbove_iff.mp six
        exact ⟨upper, List.mem_cons_of_mem _ (ResourceName.mem_ancestors.mpr beneath),
          by simp [held]⟩
    case writes =>
      rintro rfl
      have covered := sufficient.resolve_right fun both => Mode.noConfusion both.1
      obtain ⟨upper, within, held⟩ := Table.exists_X_of_effectiveOn (Mode.covers_X_iff.mp covered)
      rw [← ResourceName.mem_ancestors, ← List.mem_cons] at within
      exact ⟨upper, within, List.mem_singleton.mpr held⟩
  · intro allows
    simp only [List.mem_cons, List.not_mem_nil, or_false] at plannable
    rcases plannable with rfl | rfl | rfl
    · exact Or.inl (Mode.covers_NL _)
    · exact (sound.reads_of_tidy tidy (allows.reads rfl)).imp_right fun six => ⟨rfl, six⟩
    · left
      rw [Table.effectiveOn_eq_X_of_tidy tidy (allows.writes rfl)]
      rfl

/-- Where a mode suffices, ensuring it is to look at the state and to be done. -/
theorem ensure_of_sufficient (context : Context) (owner : TransactionId)
    (plannable : wanted ∈ [.NL, .S, .X]) :
    ∃ next, context.ensure owner wanted = .look next ∧
      ∀ store : Store, context.Sufficient store.table owner wanted → next store = .done := by
  have wants : wanted = .NL ∨ wanted = .S ∨ wanted = .X := by simpa using plannable
  rw [ensure, if_pos wants, places, Planner.ensureAt]
  refine ⟨_, rfl, fun store sufficient => ?_⟩
  by_cases covered : Mode.covers (context.effectiveMode store.table owner) wanted = true
  · exact if_pos covered
  · exact (if_neg covered).trans (if_pos (sufficient.resolve_left covered))

end Context

namespace Interleaving

variable {state : Interleaving}

/-- A run has only as many states as it has turns, and one more. -/
theorem quiet_of_prefixes {turns : List Turn}
    (early : ∀ count < turns.length + 1, (state.run (turns.take count)).table.Quiet)
    (count : Nat) : (state.run (turns.take count)).table.Quiet := by
  by_cases inside : count < turns.length + 1
  · exact early count inside
  · have ended : turns.take count = turns.take turns.length := by
      rw [List.take_of_length_le (by omega), List.take_length]
    rw [ended]
    exact early turns.length (Nat.lt_succ_self _)

/-- In any run, a transaction that has nothing under way keeps its rights until it gives up locks. -/
theorem allows_run (steady : state.Steady) {turns : List Turn} {stop later : Nat}
    {owner : TransactionId} {name : ResourceName} {wanted : Mode}
    (allows : Modes.Allows ((state.run (turns.take stop)).table.modeOf owner) name wanted)
    (returned : ((state.run (turns.take stop)).rest owner).isDone = true) (reaches : stop ≤ later)
    (keeps : ∀ turn ∈ (turns.take later).drop stop, turn.givesUp owner = false) :
    Modes.Allows ((state.run (turns.take later)).table.modeOf owner) name wanted := by
  have retained := (steady.run (turns.take stop)).retained_run (upgrades_of_isDone returned) keeps
  have split : turns.take stop ++ (turns.take later).drop stop = turns.take later := by
    have prefixes : (turns.take later).take stop = turns.take stop := by
      rw [List.take_take, Nat.min_eq_left reaches]
    rw [← prefixes]
    exact List.take_append_drop stop (turns.take later)
  have whole : (state.run (turns.take stop)).run ((turns.take later).drop stop) =
      state.run (turns.take later) := by
    rw [run, run, run, ← List.foldl_append, split]
  rw [whole] at retained
  exact allows.retained retained.rights

section

variable {turns : List Turn} (planned : state.Planned) (plans : ∀ turn ∈ turns, turn.Plans)
  (quiet : ∀ count, (state.run (turns.take count)).table.Quiet)
include planned plans quiet

theorem tidy_of_isDone {count : Nat} {owner : TransactionId}
    (idle : ((state.run (turns.take count)).rest owner).isDone = true) :
    Modes.Tidy ((state.run (turns.take count)).table.modeOf owner) := by
  have assured := (planned_run planned plans quiet count).assured owner
  rw [Plan.isDone_iff.mp idle] at assured
  exact assured

/-- As long as a transaction takes no step, what it has under way and what it holds stay. -/
theorem unmoved_run {start stop : Nat} {owner : TransactionId}
    (busy : ((state.run (turns.take (start + 1))).rest owner).isDone = false)
    (inside : start < turns.length) (later : start < stop)
    (still : ((turns.take stop).drop (start + 1)).countP (Turn.isStepOf owner) = 0) :
    (state.run (turns.take stop)).rest owner = (state.run (turns.take (start + 1))).rest owner ∧
      (state.run (turns.take stop)).table.modeOf owner =
        (state.run (turns.take (start + 1))).table.modeOf owner := by
  induction stop, later using Nat.le_induction with
  | base => exact ⟨rfl, rfl⟩
  | succ stop later inductionHypothesis =>
      rw [countP_take_succ later inside, Nat.add_eq_zero_iff] at still
      obtain ⟨rest, held⟩ := inductionHypothesis still.1
      have quietAfter := quiet (stop + 1)
      have now := planned_run planned plans quiet stop
      rw [run_take_succ] at quietAfter ⊢
      cases next : turns[stop]? with
      | none => exact ⟨rest, held⟩
      | some turn =>
          rw [next] at quietAfter still
          have apart : turn.isStepOf owner = false := by simpa using still.2
          obtain ⟨sameRest, sameHeld⟩ := now.unchanged (quiet stop) quietAfter
            (plans turn (List.mem_of_getElem? next)) (Or.inl (rest ▸ busy)) apart
          exact ⟨sameRest.trans rest, sameHeld.trans held⟩

/-- When a call that ensures a mode has returned, the transaction has the rights of the mode. -/
theorem allows_of_returned {start stop : Nat} {owner : TransactionId} {context : Context}
    {wanted : Mode} (demanded : turns[start]? = some (.demand owner (.ensure context wanted)))
    (idle : ((state.run (turns.take start)).rest owner).isDone = true)
    (known : (state.run (turns.take start)).contexts.Knows context) (later : start < stop)
    (underWay : ∀ between, start < between → between < stop →
      ((state.run (turns.take between)).rest owner).isDone = false)
    (returned : ((state.run (turns.take stop)).rest owner).isDone = true) :
    Modes.Allows ((state.run (turns.take stop)).table.modeOf owner) context.name wanted := by
  have now := planned_run planned plans quiet stop
  have plannable : wanted ∈ [.NL, .S, .X] := plans _ (List.mem_of_getElem? demanded)
  have aligned := (planned_run planned plans quiet start).steady.contexts.aligned known
  obtain ⟨assured, _⟩ := pursued_run planned plans quiet demanded idle known later underWay
  rw [Plan.isDone_iff.mp returned] at assured
  have sufficient := assured.sufficient _ (now.ready (quiet stop) owner)
  exact (Context.sufficient_iff aligned now.steady.sound assured.tidy plannable).mp sufficient

/-- A call for what suffices already ends with its first step, whoever takes turns before. -/
theorem first_step_run {start step : Nat} {owner : TransactionId} {context : Context}
    {wanted : Mode} (demanded : turns[start]? = some (.demand owner (.ensure context wanted)))
    (idle : ((state.run (turns.take start)).rest owner).isDone = true)
    (known : (state.run (turns.take start)).contexts.Knows context)
    (sufficient : context.Sufficient (state.run (turns.take start)).table owner wanted)
    (later : start < step) (next : turns[step]? = some (.advance owner))
    (still : ((turns.take step).drop (start + 1)).countP (Turn.isStepOf owner) = 0) :
    (state.run (turns.take (step + 1))).system = (state.run (turns.take step)).system ∧
      ((state.run (turns.take (step + 1))).rest owner).isDone = true := by
  have before := planned_run planned plans quiet start
  have now := planned_run planned plans quiet step
  have plannable : wanted ∈ [.NL, .S, .X] := plans _ (List.mem_of_getElem? demanded)
  obtain ⟨goOn, planIs, ends⟩ := context.ensure_of_sufficient owner plannable
  have opens : state.run (turns.take (start + 1)) = (state.run (turns.take start)).goOn owner
      (state.run (turns.take start)).system (.look goOn) := by
    rw [← planIs]
    exact run_take_ensure demanded idle (quiet start) known
  have asked : (state.run (turns.take (start + 1))).rest owner = .look goOn := by
    rw [opens, rest_goOn]
  have inside := (List.getElem?_eq_some_iff.mp demanded).1
  obtain ⟨rest, held⟩ := unmoved_run planned plans quiet (by rw [asked]; rfl) inside later still
  -- The modes of the transaction are those with which it began, and what suffices depends on them.
  have enough := (tidy_of_isDone planned plans quiet idle).suffices_of_ready
    (before.ready (quiet start) owner) sufficient
  have ready : (state.run (turns.take step)).system.store.Ready owner
      ((state.run (turns.take start)).table.modeOf owner) :=
    ⟨now.steady.sound, quiet step, now.writable, held.trans (by rw [opens]; rfl)⟩
  have done := ends _ (enough.sufficient _ ready)
  have steps : state.run (turns.take (step + 1)) = (state.run (turns.take step)).goOn owner
      (state.run (turns.take step)).system .done := by
    rw [run_take_succ, next, ← done]
    exact advance_of_idle ((quiet step).not_waiting owner) _ (rest.trans asked)
  rw [steps, rest_goOn]
  exact ⟨rfl, rfl⟩

end

/-- What has been ensured stays ensured, for everything beneath.  Take any run in which transactions
only ensure modes and give up everything, and nobody ever has to wait; and in it a call that has
ensured a mode at a context and has returned.  From then on, until its transaction demands that its
locks be given up, let the transaction ensure a mode that the first one covers, at the same context
or at one beneath it.  Whenever it does so, the call succeeds at once and changes nothing at all: no
call is made, nothing is reported, and the table stays.  And if others take turns while the call is
under way, its first step is its last, and changes nothing. -/
theorem ensured_lasts_run (config : Config) (handles : Std.ExtTreeMap TransactionId Handle)
    (allowed : config.readOnlyRoots = []) (turns : List Turn)
    (ensures : ∀ turn ∈ turns, turn.Ensures)
    (quiet : ∀ count, ((opened config handles).run (turns.take count)).table.Quiet) :
    let state (count : Nat) := (opened config handles).run (turns.take count)
    ∀ start owner context wanted, wanted ∈ [.NL, .S, .X] →
      turns[start]? = some (.demand owner (.ensure context wanted)) →
      ((state start).rest owner).isDone = true → (state start).contexts.Knows context →
      ∀ stop, start < stop →
        (∀ between, start < between → between < stop →
          ((state between).rest owner).isDone = false) →
        ((state stop).rest owner).isDone = true →
        ∀ later, stop ≤ later →
          (∀ turn ∈ (turns.take later).drop stop, turn.givesUp owner = false) →
          ((state later).rest owner).isDone = true →
          ∀ lower less, (state later).contexts.Knows lower →
            lower.name = context.name ∨ lower.name.isBeneath context.name = true →
            less ∈ [.NL, .S, .X] → Mode.covers wanted less = true →
            (state later).system.run owner (lower.ensure owner less) =
                (.finished (.ok ()), (state later).system) ∧
              (turns[later]? = some (.demand owner (.ensure lower less)) →
                ∀ step, later < step → turns[step]? = some (.advance owner) →
                  ((turns.take step).drop (later + 1)).countP (Turn.isStepOf owner) = 0 →
                  (state (step + 1)).system = (state step).system ∧
                    ((state (step + 1)).rest owner).isDone = true) := by
  intro state start owner context wanted member demanded idle known stop after underWay returned
    later reaches keeps idleLater lower less knownLower within lessMember covered
  -- What cannot be planned is rejected, so the run goes like one in which all of it can be planned.
  let planning := turns.map Turn.plannable
  have alike (count : Nat) :
      (state count).GoesLike ((opened config handles).run (planning.take count)) :=
    goesLike_take ensures count
  have opening : (opened config handles).Planned := .opened config handles allowed
  have plans : ∀ turn ∈ planning, turn.Plans := Turn.plans_map_plannable ensures
  have quietToo (count : Nat) : ((opened config handles).run (planning.take count)).table.Quiet :=
    (alike count).table ▸ quiet count
  have tidy : Modes.Tidy ((state later).table.modeOf owner) :=
    (alike later).table ▸
      tidy_of_isDone opening plans quietToo ((alike later).isDone owner ▸ idleLater)
  have ensured : Modes.Allows ((state stop).table.modeOf owner) context.name wanted := by
    rw [← (alike stop).table]
    exact allows_of_returned opening plans quietToo (Turn.getElem?_plannable member demanded)
      ((alike start).isDone owner ▸ idle) ((alike start).contexts ▸ known) after
      (fun between first last => (alike between).isDone owner ▸ underWay between first last)
      ((alike stop).isDone owner ▸ returned)
  have lasting := allows_run opening.steady ensured returned reaches keeps
  have above : context.name ∈ lower.name :: lower.name.ancestors := by
    rw [List.mem_cons, ResourceName.mem_ancestors]
    exact within.imp_left Eq.symm
  have steady : (state later).Steady := opening.steady.run _
  have sufficient : lower.Sufficient (state later).table owner less :=
    (Context.sufficient_iff (steady.contexts.aligned knownLower) steady.sound tidy lessMember).mpr
      ((lasting.beneath above).of_covers covered)
  constructor
  · obtain ⟨next, planIs, ends⟩ := lower.ensure_of_sufficient owner lessMember
    rw [planIs, System.run, ends _ sufficient]
    rfl
  · intro demandedAgain step afterwards next still
    have first := first_step_run opening plans quietToo
      (Turn.getElem?_plannable lessMember demandedAgain) ((alike later).isDone owner ▸ idleLater)
      ((alike later).contexts ▸ knownLower) ((alike later).table ▸ sufficient) afterwards
      (Turn.getElem?_advance next) ((Turn.countP_plannable owner).trans still)
    rw [(alike (step + 1)).system, (alike step).system, (alike (step + 1)).isDone] at first
    exact first

/-- A page of the users, as a look-up finds it. -/
def usersPage : Context :=
  ⟨⟨2, ⟨"database", ["users", "3"]⟩, false⟩, users.places⟩

/-- A transaction has `X` ensured at the users, and then `S` at a page of them. -/
def readingPageOfWriter : List Turn :=
  [.lookUp (.spelled "database/users/3"), .demand 1 (.ensure users .X)] ++
    List.replicate 5 (.advance 1) ++ [.demand 1 (.ensure usersPage .S), .advance 1]

/-- The second call changes nothing, whether it is made at once or step by step. -/
theorem page_read_by_writer :
    let state (count : Nat) := (opened {} ∅).run (readingPageOfWriter.take count)
    ((state 7).table.locksOf 1).map Lock.mode = [.IX, .X] ∧
      (state 7).system.run 1 (usersPage.ensure 1 .S) = (.finished (.ok ()), (state 7).system) ∧
      (state 9).system = (state 8).system ∧ ((state 9).rest 1).isDone = true := by
  have ensures : ∀ turn ∈ readingPageOfWriter, turn.Ensures := by
    simp [readingPageOfWriter, Turn.Ensures]
  have quiet := @quiet_of_prefixes (opened {} ∅) readingPageOfWriter (by decide +kernel)
  have underWay : ∀ between < 7, 1 < between →
      (((opened {} ∅).run (readingPageOfWriter.take between)).rest 1).isDone = false := by
    decide +kernel
  have lasts := ensured_lasts_run {} ∅ rfl readingPageOfWriter ensures quiet 1 1 users .X
    (by decide) rfl (by decide +kernel) (by decide +kernel) 7 (by decide)
    (fun between after before => underWay between before after) (by decide +kernel) 7 (by decide)
    (by simp [readingPageOfWriter]) (by decide +kernel) usersPage .S (by decide +kernel)
    (.inr (by decide +kernel)) (by decide) rfl
  exact ⟨by decide +kernel, lasts.1, lasts.2 rfl 8 (by decide) rfl rfl⟩

end Interleaving

end Granularity
