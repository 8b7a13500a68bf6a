import Granularity.Proofs.Runs.Assurance
import Granularity.Proofs.Runs.Steady

/-!
Planning reaches its goal.

Beginning with tidy modes, the plan that ensures a mode at a context is assured to end with tidy
modes by which the wanted mode is in force.  Whatever the plan is about to take on a name, it first
sees to it that all names above admit it; each case of the planner has a lemma that says why this
works.
-/

namespace Granularity

/-- The mode in force at a context is as good as the wanted one, or reading is wanted and a `SIX`
above reads the whole subtree. -/
def Context.Sufficient (context : Context) (table : Table) (owner : TransactionId)
    (wanted : Mode) : Prop :=
  Mode.covers (context.effectiveMode table owner) wanted = true ∨
    wanted = .S ∧ context.hasSIXAbove table owner = true

theorem Context.Aligned.effectiveMode_eq {context : Context} (aligned : context.Aligned)
    (table : Table) (owner : TransactionId) : context.effectiveMode table owner =
      table.effectiveOn owner (context.name :: context.name.ancestors) := by
  rw [← show context.above.map Place.name = context.name.ancestors from aligned]
  rfl

/-- Above an aligned context without places above there is no name. -/
theorem Context.Aligned.top {place : Place} (aligned : Context.Aligned ⟨place, []⟩) :
    place.name.parent? = none := by
  have nothing : [] = place.name.ancestors := aligned
  cases parent : place.name.parent? with
  | none => rfl
  | some upper =>
      rw [ResourceName.ancestors_of_parent parent] at nothing
      cases nothing

namespace Modes

/-- The modes are tidy, and by them a mode that is wanted at a context is in force. -/
structure Suffices (owner : TransactionId) (context : Context) (wanted : Mode)
    (modes : Modes) : Prop where
  tidy : modes.Tidy
  sufficient : ∀ store : Store, store.Ready owner modes →
    context.Sufficient store.table owner wanted

/-- The modes are tidy, the names above a name admit a mode there, and elsewhere nothing has
changed. -/
structure Prepared (before : Modes) (name : ResourceName) (mode : Mode) (after : Modes) : Prop where
  tidy : after.Tidy
  admits : after.AdmitsAbove name mode
  kept : ∀ other, name.isBeneath other = false → after other = before other

variable {modes : Modes} {owner : TransactionId} {context : Context} {mode wanted : Mode}

theorem Prepared.own {before : Modes} {name : ResourceName}
    (prepared : before.Prepared name mode modes) : modes name = before name :=
  prepared.kept name name.isBeneath_self

/-- What suffices in one state suffices in every state with the same modes. -/
theorem Tidy.suffices_of_ready (tidy : modes.Tidy) {store : Store} (ready : store.Ready owner modes)
    (sufficient : context.Sufficient store.table owner wanted) :
    modes.Suffices owner context wanted where
  tidy := tidy
  sufficient other otherReady := by
    have same : other.table.modeOf owner = store.table.modeOf owner :=
      otherReady.held.trans ready.held.symm
    have inForce :
        context.effectiveMode other.table owner = context.effectiveMode store.table owner :=
      ready.sound.effectiveOn_congr otherReady.sound same context.names
    have above : context.hasSIXAbove other.table owner = context.hasSIXAbove store.table owner :=
      ready.sound.hasSIXAbove_congr otherReady.sound same
    rw [Context.Sufficient, inForce, above]
    exact sufficient

/-- A mode that is held at the context and covers the wanted one suffices. -/
theorem Tidy.suffices (tidy : modes.Tidy) (locked : wanted ≠ .NL)
    (covered : Mode.covers (modes context.name) wanted = true) :
    modes.Suffices owner context wanted where
  tidy := tidy
  sufficient store ready := by
    left
    rw [← ready.held] at covered
    have held : context.explicitMode store.table owner ≠ .NL := by
      intro (free : store.table.modeOf owner context.name = .NL)
      rw [free] at covered
      exact locked (Mode.eq_NL_of_covers_NL covered)
    rw [Context.effectiveMode_of_held held]
    exact covered

/-- So does a mode that has been taken there. -/
theorem suffices_take {given : Mode → Bool} (tidy : Tidy (modes.take context.name mode given))
    (locked : wanted ≠ .NL) (covered : Mode.covers mode wanted = true) :
    Suffices owner context wanted (modes.take context.name mode given) := by
  apply tidy.suffices locked
  rw [take_own]
  exact covered

/-- An `X` in force on the parent suffices for a name. -/
theorem Suffices.of_parent {place parent : Place} {above : List Place}
    (aligned : Context.Aligned ⟨place, parent :: above⟩)
    (enough : modes.Suffices owner ⟨parent, above⟩ .X) :
    modes.Suffices owner ⟨place, parent :: above⟩ .X where
  tidy := enough.tidy
  sufficient store ready := by
    left
    have tidy : Tidy (store.table.modeOf owner) := ready.held ▸ enough.tidy
    have covered := (enough.sufficient store ready).resolve_right nofun
    rw [Mode.covers_X_iff, aligned.above.2.effectiveMode_eq] at covered
    rw [Mode.covers_X_iff, aligned.effectiveMode_eq]
    exact Table.effectiveOn_eq_X_of_parent tidy aligned.above.1 covered

end Modes

namespace Planner

variable {owner : TransactionId} {modes : Modes} {place : Place} {above : List Place}
  {wanted mode : Mode}

open Plan (assured_ask)

/-! ### What is found at a name -/

/-- What a planner finds where the mode in force does not cover the wanted one: the mode in force,
the mode held there, and the wanted mode. -/
inductive Situation : Mode → Mode → Mode → Prop where
  | readsBeneath : Situation .IX .IX .S
  | intends {held wanted : Mode} (intent : held.isIntent = true)
      (wants : wanted = .X ∨ wanted = .S ∧ held = .IS) : Situation held held wanted
  | nothing {wanted : Mode} (locked : wanted ≠ .NL) : Situation .NL .NL wanted
  | holds : Situation .S .S .X
  | inherits : Situation .S .NL .X

/-- Nothing else is found. -/
theorem situation_of_store {context : Context} (owner : TransactionId) (store : Store)
    (plannable : wanted ∈ [.NL, .S, .X])
    (below : ¬Mode.covers (context.effectiveMode store.table owner) wanted = true) :
    Situation (context.effectiveMode store.table owner) (context.explicitMode store.table owner)
      wanted := by
  have locked : wanted ≠ .NL := by
    rintro rfl
    exact below (Mode.covers_NL _)
  have wants : wanted = .S ∨ wanted = .X := by
    simpa [locked] using plannable
  by_cases free : store.table.modeOf owner context.name = .NL
  · have implied : context.effectiveMode store.table owner ∈ [.NL, .S, .X] := by
      rw [Context.effectiveMode, Context.names, Table.effectiveOn_of_free free]
      exact Table.handedDown_mem _
    rw [Context.explicitMode, free]
    generalize context.effectiveMode store.table owner = inForce at implied below ⊢
    cases inForce with
    | NL => exact .nothing locked
    | S =>
        rcases wants with rfl | rfl
        · exact absurd rfl below
        · exact .inherits
    | X => cases wanted <;> exact absurd rfl below
    | IS | IX | SIX => simp at implied
  · have same : context.effectiveMode store.table owner = store.table.modeOf owner context.name :=
      Context.effectiveMode_of_held free
    rw [same] at below ⊢
    rw [Context.explicitMode]
    generalize store.table.modeOf owner context.name = held at free below ⊢
    rcases wants with rfl | rfl
    · cases held with
      | NL => exact absurd rfl free
      | IS => exact .intends rfl (Or.inr ⟨rfl, rfl⟩)
      | IX => exact .readsBeneath
      | S | SIX | X => exact absurd rfl below
    · cases held with
      | NL => exact absurd rfl free
      | IS | IX | SIX => exact .intends rfl (Or.inl rfl)
      | S => exact .holds
      | X => exact absurd rfl below

/-! ### Intentions above a name -/

section

variable (aligned : Context.Aligned ⟨place, above⟩)
include aligned

omit aligned in
/-- What is asked for at a name that gives way to an intention, and does not cover it yet, leads to
the intention there. -/
theorem leads_intention {context : Context} {intention : Mode} (aligned : context.Aligned)
    (isOpen : context.place.readOnly = false) (intends : intention ∈ [.IS, .IX])
    (gives : Mode.givesWay (modes context.name) intention = true)
    (below : ¬Mode.covers (modes context.name) intention = true)
    (admitted : modes.AdmitsAt context.name intention) :
    Operation.Leads
      (match modes context.name with
      | .NL => .acquire context intention
      | .S => .promote context (if intention = .IX then .SIX else intention)
      | _ => .promote context intention) owner modes
      (modes.take context.name intention fun _ => false) := by
  cases held : modes context.name with
  | NL =>
      have locked : intention ≠ .NL := by
        rintro rfl
        simp at intends
      exact Operation.leads_acquire aligned isOpen held locked admitted
  | IS =>
      rw [held] at below
      obtain rfl : intention = .IX := by
        rcases List.mem_pair.mp intends with rfl | rfl
        · exact absurd rfl below
        · rfl
      have locked : modes context.name ≠ .NL := by simp [held]
      have raised : modes context.name ≠ .IX := by simp [held]
      have covered : Mode.covers .IX (modes context.name) = true := by
        rw [held]
        rfl
      exact Operation.leads_promote aligned isOpen locked raised covered nofun admitted
  | IX | SIX =>
      rw [held] at below
      rcases List.mem_pair.mp intends with rfl | rfl
      · exact absurd rfl below
      · exact absurd rfl below
  | S | X =>
      rw [held] at gives
      rcases List.mem_pair.mp intends with rfl | rfl
      · cases gives
      · cases gives

omit aligned in
/-- A promotion of `S` to `X`. -/
theorem leads_fromS {context : Context} (aligned : context.Aligned)
    (isOpen : context.place.readOnly = false) (held : modes context.name = .S)
    (admitted : modes.AdmitsAt context.name .X) :
    Operation.Leads (.promote context .X) owner modes
      (modes.take context.name .X fun _ => false) := by
  have locked : modes context.name ≠ .NL := by simp [held]
  have raised : modes context.name ≠ .X := by simp [held]
  have covered : Mode.covers .X (modes context.name) = true := by
    rw [held]
    rfl
  exact Operation.leads_promote aligned isOpen locked raised covered nofun admitted

/-- Where everything above gives way to an intention, it is announced, from the root down. -/
theorem assured_ensureIntentions {intention : Mode} (intends : intention ∈ [.IS, .IX])
    (isOpen : ∀ upper ∈ above, upper.readOnly = false) (tidy : modes.Tidy)
    (gives : ∀ upper, place.name.isBeneath upper = true →
      Mode.givesWay (modes upper) intention = true) :
    (ensureIntentions owner intention above).Assured owner
      (· = modes.announce place.name intention) modes := by
  induction above generalizing place with
  | nil => exact (Modes.announce_root aligned.top).symm
  | cons upper above inductionHypothesis =>
      obtain ⟨parent, upperAligned⟩ := aligned.above
      have locked : intention ≠ .NL := by
        rintro rfl
        simp at intends
      rw [ensureIntentions, if_neg locked]
      intro store ready
      have explicit : (Context.mk upper above).explicitMode store.table owner = modes upper.name :=
        congrFun ready.held upper.name
      dsimp only
      rw [explicit]
      by_cases covered : Mode.covers (modes upper.name) intention = true
      · rw [if_pos covered]
        exact (tidy.announce_eq intends parent covered).symm
      · rw [if_neg covered]
        have parentGives := gives upper.name (ResourceName.isBeneath_parent parent)
        have givesAbove : ∀ other, upper.name.isBeneath other = true →
            Mode.givesWay (modes other) intention = true := fun other beneath =>
          gives other (ResourceName.isBeneath_trans (ResourceName.isBeneath_parent parent) beneath)
        have openAbove : ∀ other ∈ above, other.readOnly = false := fun other member =>
          isOpen other (List.mem_cons_of_mem upper member)
        apply (inductionHypothesis upperAligned openAbove givesAbove).andThen
        intro between same
        subst same
        have admitted :
            Modes.AdmitsAt (modes.announce upper.name intention) upper.name intention := by
          have above := (Modes.admitsAbove_announce givesAbove).admitsAt
          rwa [Mode.intention_of_intent intends] at above
        rw [← Modes.take_announce parent (Bool.eq_false_iff.mpr covered)]
        have kept : modes.announce upper.name intention upper.name = modes upper.name :=
          Modes.announce_own
        rw [← kept] at parentGives covered ⊢
        exact assured_ask (leads_intention upperAligned (isOpen upper List.mem_cons_self) intends
          parentGives covered admitted) rfl

/-- Where everything above gives way to a mode, its intention is announced and the mode admitted. -/
theorem assured_prepared (isOpen : ∀ upper ∈ above, upper.readOnly = false) (tidy : modes.Tidy)
    (locked : mode ≠ .NL)
    (gives : ∀ upper, place.name.isBeneath upper = true →
      Mode.givesWay (modes upper) mode = true) :
    (ensureIntentions owner mode.intention above).Assured owner
      (modes.Prepared place.name mode) modes := by
  have intends : mode.intention ∈ [Mode.IS, .IX] := Mode.intention_mem locked
  have givesIntention : ∀ upper, place.name.isBeneath upper = true →
      Mode.givesWay (modes upper) mode.intention = true :=
    fun upper beneath => Mode.givesWay_intention (gives upper beneath)
  apply (assured_ensureIntentions aligned intends isOpen tidy givesIntention).mono
  intro between same
  rw [same]
  exact ⟨tidy.announce intends givesIntention, Modes.admitsAbove_announce gives,
    fun other outside => Modes.announce_outside outside⟩

end

/-! ### The cases of the planner -/

section

variable (aligned : Context.Aligned ⟨place, above⟩)
  (isOpen : ∀ upper ∈ place :: above, upper.readOnly = false) (tidy : modes.Tidy)
include aligned isOpen tidy

/-- To read beneath an `IX`, the `IX` becomes a `SIX`. -/
theorem assured_makeSIX (held : modes place.name = .IX)
    (alone : ∀ upper, place.name.isBeneath upper = true → modes upper ≠ .SIX) :
    ((ensureIntentions owner .IX above).andThen (.ask (.promote ⟨place, above⟩ .SIX))).Assured owner
      (Modes.Suffices owner ⟨place, above⟩ .S) modes := by
  obtain ⟨isOpen, openAbove⟩ := List.forall_mem_cons.mp isOpen
  have gives : ∀ upper, place.name.isBeneath upper = true →
      Mode.givesWay (modes upper) .SIX = true := by
    intro upper beneath
    have permitted := tidy place.name upper beneath
    rw [held] at permitted
    exact Mode.givesWay_of_permits Mode.noConfusion permitted (Or.inr (alone upper beneath))
  have prepares : (ensureIntentions owner Mode.SIX.intention above).Assured owner
      (modes.Prepared place.name .SIX) modes :=
    assured_prepared aligned openAbove tidy nofun gives
  apply prepares.andThen
  intro between prepared
  have stillHeld : between place.name = .IX := prepared.own.trans held
  have stillAlone : ∀ upper, place.name.isBeneath upper = true → between upper ≠ .SIX := by
    intro upper beneath six
    have admits := prepared.admits upper beneath
    rw [six] at admits
    cases admits
  have leads : Operation.Leads (.promote ⟨place, above⟩ .SIX) owner between _ :=
    Operation.leads_promoteToSIX aligned isOpen stillHeld stillAlone prepared.admits.admitsAt
  exact assured_ask leads
    (Modes.suffices_take (prepared.tidy.promoteToSIX prepared.admits) nofun rfl)

/-- Where nothing is held and nothing in force, the wanted mode is acquired. -/
theorem assured_acquisition (locked : wanted ≠ .NL) (free : modes place.name = .NL)
    (gives : ∀ upper, place.name.isBeneath upper = true →
      Mode.givesWay (modes upper) wanted = true) :
    ((ensureIntentions owner wanted.intention above).andThen
      (.ask (.acquire ⟨place, above⟩ wanted))).Assured owner
      (Modes.Suffices owner ⟨place, above⟩ wanted) modes := by
  obtain ⟨isOpen, openAbove⟩ := List.forall_mem_cons.mp isOpen
  apply (assured_prepared aligned openAbove tidy locked gives).andThen
  intro between prepared
  have stillFree : between place.name = .NL := prepared.own.trans free
  have leads : Operation.Leads (.acquire ⟨place, above⟩ wanted) owner between _ :=
    Operation.leads_acquire aligned isOpen stillFree locked prepared.admits.admitsAt
  exact assured_ask leads (Modes.suffices_take
    (prepared.tidy.raise prepared.admits (Or.inl stillFree)) locked (Mode.covers_self wanted))

/-- To write where `S` is held, the `S` becomes an `X`. -/
theorem assured_promotion (held : modes place.name = .S) :
    ((ensureIntentions owner .IX above).andThen (.ask (.promote ⟨place, above⟩ .X))).Assured owner
      (Modes.Suffices owner ⟨place, above⟩ .X) modes := by
  obtain ⟨isOpen, openAbove⟩ := List.forall_mem_cons.mp isOpen
  have gives : ∀ upper, place.name.isBeneath upper = true →
      Mode.givesWay (modes upper) .X = true := by
    intro upper beneath
    have permitted := tidy place.name upper beneath
    rw [held] at permitted
    exact Mode.givesWay_of_permits Mode.noConfusion permitted (Or.inl rfl)
  have prepares : (ensureIntentions owner Mode.X.intention above).Assured owner
      (modes.Prepared place.name .X) modes :=
    assured_prepared aligned openAbove tidy nofun gives
  apply prepares.andThen
  intro between prepared
  have leads : Operation.Leads (.promote ⟨place, above⟩ .X) owner between _ :=
    leads_fromS aligned isOpen (prepared.own.trans held) prepared.admits.admitsAt
  exact assured_ask leads (Modes.suffices_take
    (prepared.tidy.raise prepared.admits (Or.inr (prepared.own.trans held))) nofun rfl)

omit aligned in
/-- Where `IS` is held nothing is written, so an escalation leads to `S`, and all names above admit
it. -/
theorem leads_escalate_reading (reads : modes place.name = .IS) :
    Operation.Leads (.escalate ⟨place, above⟩) owner modes
        (modes.take place.name .S fun _ => true) ∧
      modes.AdmitsAbove place.name .S := by
  have intent : (modes place.name).isIntent = true := by
    rw [reads]
    rfl
  constructor
  · exact Operation.leads_escalate (List.forall_mem_cons.mp isOpen).1 intent
      (Or.inr ⟨rfl, tidy.not_writesWithin reads⟩)
  · intro upper beneath
    have permitted := tidy place.name upper beneath
    rw [reads] at permitted
    exact Mode.admits_S_of_permits_IS permitted

omit aligned tidy in
/-- Where another intention is held, an escalation leads to `X`. -/
theorem leads_escalate_writing (intent : (modes place.name).isIntent = true)
    (writes : modes place.name ≠ .IS) :
    Operation.Leads (.escalate ⟨place, above⟩) owner modes
      (modes.take place.name .X fun _ => true) := by
  have writing : modes.WritesWithin place.name := by
    refine ⟨place.name, Or.inl rfl, ?_⟩
    cases held : modes place.name <;> simp_all [Mode.isIntent, Mode.intention]
  exact Operation.leads_escalate (List.forall_mem_cons.mp isOpen).1 intent (Or.inl ⟨rfl, writing⟩)

/-- Once an escalation has left the wanted mode or an `S`, at most a promotion remains. -/
theorem assured_escalated (locked : wanted ≠ .NL) (held : modes place.name = mode)
    (admits : modes.AdmitsAbove place.name wanted)
    (wants : mode = wanted ∨ mode = .S ∧ wanted = .X) : (Plan.look fun later =>
      if Mode.covers ((Context.mk place above).explicitMode later.table owner) wanted then .done
      else .ask (.promote ⟨place, above⟩ wanted)).Assured owner
      (Modes.Suffices owner ⟨place, above⟩ wanted) modes := by
  intro later ready
  have explicit : (Context.mk place above).explicitMode later.table owner = mode :=
    (congrFun ready.held place.name).trans held
  dsimp only
  rw [explicit]
  rcases wants with rfl | ⟨rfl, rfl⟩
  · have covered := Mode.covers_self mode
    rw [if_pos covered]
    apply tidy.suffices locked
    show Mode.covers (modes place.name) mode = true
    rw [held]
    exact covered
  · have promotes : Operation.Leads (.promote ⟨place, above⟩ .X) owner modes _ :=
      leads_fromS aligned (List.forall_mem_cons.mp isOpen).1 held admits.admitsAt
    have tidyAfter := tidy.raise admits (Or.inr held)
    exact assured_ask promotes (Modes.suffices_take tidyAfter locked rfl)

/-- An intention is escalated, and promoted if that has left an `S` and writing is wanted. -/
theorem assured_escalation (intent : (modes place.name).isIntent = true)
    (wants : wanted = .X ∨ wanted = .S ∧ modes place.name = .IS) :
    ((ensureIntentions owner wanted.intention above).andThen <|
      .perform (.escalate ⟨place, above⟩) <| .look fun later =>
        if Mode.covers ((Context.mk place above).explicitMode later.table owner) wanted then .done
        else .ask (.promote ⟨place, above⟩ wanted)).Assured owner
      (Modes.Suffices owner ⟨place, above⟩ wanted) modes := by
  have openAbove := (List.forall_mem_cons.mp isOpen).2
  have locked : wanted ≠ .NL := by
    rcases wants with rfl | ⟨rfl, _⟩
    · exact Mode.noConfusion
    · exact Mode.noConfusion
  have gives : ∀ upper, place.name.isBeneath upper = true →
      Mode.givesWay (modes upper) wanted = true := by
    intro upper beneath
    have permitted := tidy place.name upper beneath
    have held : modes place.name ≠ .NL := Mode.ne_NL_of_isIntent intent
    apply Mode.givesWay_of_permits held permitted
    apply wants.imp_right
    intro ⟨_, reads⟩ six
    rw [reads, six] at permitted
    cases permitted
  apply (assured_prepared aligned openAbove tidy locked gives).andThen
  intro between prepared
  have own := prepared.own
  by_cases reads : modes place.name = .IS
  · obtain ⟨leads, admits⟩ := leads_escalate_reading isOpen prepared.tidy (own.trans reads)
    have tidyAfter := prepared.tidy.escalate admits
    refine ⟨_, leads, assured_escalated aligned isOpen tidyAfter locked Modes.take_own
      prepared.admits.take ?_⟩
    rcases wants with rfl | ⟨rfl, _⟩
    · exact Or.inr ⟨rfl, rfl⟩
    · exact Or.inl rfl
  · have wantsX : wanted = .X := wants.resolve_right fun both => reads both.2
    subst wantsX
    have leads : Operation.Leads (.escalate ⟨place, above⟩) owner between _ :=
      leads_escalate_writing isOpen (own ▸ intent) (own ▸ reads)
    have tidyAfter := prepared.tidy.escalate prepared.admits
    exact ⟨_, leads, assured_escalated aligned isOpen tidyAfter locked Modes.take_own
      prepared.admits.take (Or.inl rfl)⟩

/-- Beneath a parent that admits `X`, an `X` is acquired in place of an inherited `S`. -/
theorem assured_inherited (free : modes place.name = .NL)
    (admitted : ∀ parent, place.name.parent? = some parent → Mode.admits (modes parent) .X = true) :
    (Plan.ask (.acquire ⟨place, above⟩ .X)).Assured owner
      (Modes.Suffices owner ⟨place, above⟩ .X) modes := by
  obtain ⟨isOpen, _⟩ := List.forall_mem_cons.mp isOpen
  have admits : modes.AdmitsAbove place.name .X := by
    intro upper beneath
    obtain ⟨parent, next, within⟩ := ResourceName.isBeneath_iff_parent.mp beneath
    rcases within with rfl | above
    · exact admitted upper next
    · exact Mode.admits_X_of_permits (tidy parent upper above) (admitted parent next)
  have leads : Operation.Leads (.acquire ⟨place, above⟩ .X) owner modes _ :=
    Operation.leads_acquire aligned isOpen free nofun admitted
  exact assured_ask leads (Modes.suffices_take (tidy.raise admits (Or.inl free)) nofun rfl)

omit aligned isOpen tidy in
/-- To write where `S` is inherited, `X` is acquired if the parent admits it, and otherwise ensured
at the parent. -/
theorem assured_beneathParent {parent : Place}
    (aligned : Context.Aligned ⟨place, parent :: above⟩)
    (isOpen : ∀ upper ∈ place :: parent :: above, upper.readOnly = false) (tidy : modes.Tidy)
    (free : modes place.name = .NL) {store : Store} (ready : store.Ready owner modes)
    (parentAssured : (ensureAt owner .X (parent :: above)).Assured owner
      (Modes.Suffices owner ⟨parent, above⟩ .X) modes) :
    (if Mode.admits ((Context.mk parent above).effectiveMode store.table owner) .X then
        .ask (.acquire ⟨place, parent :: above⟩ .X)
      else ensureAt owner .X (parent :: above)).Assured owner
      (Modes.Suffices owner ⟨place, parent :: above⟩ .X) modes := by
  by_cases admitted : Mode.admits
      ((Context.mk parent above).effectiveMode store.table owner) .X = true
  · rw [if_pos admitted]
    apply assured_inherited aligned isOpen tidy free
    intro next same
    rw [aligned.above.1, Option.some.injEq] at same
    rw [← same, ← ready.held]
    exact Table.admits_modeOf Mode.noConfusion admitted
  · rw [if_neg admitted]
    apply parentAssured.mono
    intro after enough
    exact enough.of_parent aligned

/-- The cases together; what is planned at the parent is left to the induction. -/
theorem assured_ensureAt_of_parent (plannable : wanted ∈ [.NL, .S, .X])
    (parentAssured : ∀ parent upper, above = parent :: upper →
      (ensureAt owner wanted above).Assured owner (Modes.Suffices owner ⟨parent, upper⟩ wanted)
        modes) :
    (ensureAt owner wanted (place :: above)).Assured owner
      (Modes.Suffices owner ⟨place, above⟩ wanted) modes := by
  rw [ensureAt]
  intro store ready
  have sound := ready.sound
  obtain rfl := ready.held
  dsimp only
  by_cases covered : Mode.covers
      ((Context.mk place above).effectiveMode store.table owner) wanted = true
  · rw [if_pos covered]
    exact tidy.suffices_of_ready ready (Or.inl covered)
  rw [if_neg covered]
  by_cases reads : wanted = .S ∧ (Context.mk place above).hasSIXAbove store.table owner = true
  · rw [if_pos reads]
    exact tidy.suffices_of_ready ready (Or.inr reads)
  rw [if_neg reads]
  show Plan.Assured owner _ (ite _ _ _) _
  have found := situation_of_store owner store plannable covered
  generalize explicit : (Context.mk place above).explicitMode store.table owner = held at found ⊢
  generalize inForce : (Context.mk place above).effectiveMode store.table owner = effective
    at found ⊢
  cases found with
  | readsBeneath =>
      apply assured_makeSIX aligned isOpen tidy explicit
      intro upper beneath six
      exact reads ⟨rfl, sound.hasSIXAbove_iff.mpr ⟨upper, beneath, six⟩⟩
  | intends intent wants =>
      have heldThere : store.table.modeOf owner place.name = held := explicit
      have isIntent : (store.table.modeOf owner place.name).isIntent = true := heldThere ▸ intent
      rcases wants with rfl | ⟨rfl, rfl⟩
      · have writes : ¬(held = .IX ∧ Mode.X = .S) := fun both => Mode.noConfusion both.2
        rw [if_neg writes, if_pos intent]
        exact assured_escalation aligned isOpen tidy isIntent (Or.inl rfl)
      · exact assured_escalation aligned isOpen tidy isIntent (Or.inr ⟨rfl, heldThere⟩)
  | nothing locked =>
      apply assured_acquisition aligned isOpen tidy locked explicit
      intro upper beneath
      rw [aligned.effectiveMode_eq] at inForce
      have intends := sound.intentions_of_effectiveOn_NL tidy inForce upper beneath
      cases held : store.table.modeOf owner upper <;> simp_all [Mode.givesWay]
  | holds => exact assured_promotion aligned isOpen tidy explicit
  | inherits =>
      cases above with
      | nil =>
          -- What is inherited comes from somewhere, so this is not a root.
          rw [Context.effectiveMode, Context.names, Table.effectiveOn_of_free explicit] at inForce
          cases inForce
      | cons parent upper =>
          exact assured_beneathParent aligned isOpen tidy explicit ready
            (parentAssured parent upper rfl)

end

/-- Ensuring a mode at a context is assured, whatever tidy modes it begins with. -/
theorem assured_ensureAt (plannable : wanted ∈ [.NL, .S, .X])
    (aligned : Context.Aligned ⟨place, above⟩)
    (isOpen : ∀ upper ∈ place :: above, upper.readOnly = false) (tidy : modes.Tidy) :
    (ensureAt owner wanted (place :: above)).Assured owner
      (Modes.Suffices owner ⟨place, above⟩ wanted) modes := by
  induction above generalizing place with
  | nil => exact assured_ensureAt_of_parent aligned isOpen tidy plannable nofun
  | cons parent upper inductionHypothesis =>
      apply assured_ensureAt_of_parent aligned isOpen tidy plannable
      intro _ _ same
      cases same
      exact inductionHypothesis aligned.above.2 (List.forall_mem_cons.mp isOpen).2

end Planner

/-! ### Giving up everything -/

/-- Giving up all that is held, from the deepest names on, is assured. -/
theorem assured_releases {owner : TransactionId} {modes : Modes} {names : List ResourceName}
    (shed : modes.ShedBy names) (nodup : names.Nodup) (held : ∀ name ∈ names, modes name ≠ .NL)
    (tidy : modes.Tidy) : (releases names).Assured owner Modes.Tidy modes := by
  induction names generalizing modes with
  | nil => exact tidy
  | cons name names inductionHypothesis =>
      obtain ⟨absent, nodup⟩ := List.nodup_cons.mp nodup
      refine ⟨_, Operation.leads_release (held name List.mem_cons_self),
        inductionHypothesis shed.next nodup ?_ (tidy.drop shed.bare)⟩
      intro other member
      have apart : other ≠ name := fun same => absent (same ▸ member)
      rw [Modes.drop, if_neg apart]
      exact held other (List.mem_cons_of_mem name member)

theorem assured_releaseAll {owner : TransactionId} {modes : Modes} (tidy : modes.Tidy) :
    (releaseAll owner).Assured owner Modes.Tidy modes := by
  intro store ready
  have held := ready.held
  subst held
  have sorted : (deepestFirst (store.table.locksOf owner)).Perm (store.table.locksOf owner) :=
    List.mergeSort_perm _ _
  have names := sorted.map Lock.name
  show Plan.Assured owner _ (Plan.ofList _) _
  rw [← releases_names]
  apply assured_releases (ready.sound.shedBy_deepestFirst owner)
  · exact names.nodup_iff.mpr (ready.sound.mirrored.names_nodup owner)
  · intro name member
    exact ready.sound.modeOf_ne_NL_iff.mpr (names.subset member)
  · exact tidy

end Granularity
