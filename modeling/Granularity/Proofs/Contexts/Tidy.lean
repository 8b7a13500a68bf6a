import Granularity.Proofs.Contexts.Change

/-!
Tidy modes.

Operations on contexts can leave a transaction with locks that get in the way of its later ones: an
`S` beneath a `SIX` that was once an `IX`, or an `IX` beneath an `S`.  Planning never does.  What it
leaves on two names of a path is related by `Mode.permits`, whatever stands between them; the modes
are `Tidy`.  `SIX` may stand beneath `SIX`: the lower one is taken first, beneath an `IX` that is
made `SIX` later.

A relation between a name and its parent alone would not do, since `SIX` permits `IX`, and `IX`
permits the `S` that `SIX` does not.
-/

namespace Granularity

namespace Mode

/-- What planning leaves beneath a mode: whatever the mode admits, and `SIX` beneath `SIX`. -/
def permits (upper lower : Mode) : Bool :=
  admits upper lower || upper == SIX && lower == SIX

/-- Once it has been raised to cover the intention for a mode, a held mode admits the mode. -/
def givesWay (held mode : Mode) : Bool :=
  match held with
  | NL | IS | IX => true
  | S | SIX | X => admits held mode

/-- The mode only reads, and is given up beneath a `SIX`. -/
def onlyReads (mode : Mode) : Bool :=
  mode == S || mode == IS

theorem covers_X_iff {held : Mode} : covers held X = true ↔ held = X := by
  cases held <;> simp [covers]

theorem permits_NL (upper : Mode) : permits upper NL = true := by
  cases upper <;> rfl

/-- Where no lock is held, and where the whole subtree is locked, nothing stands beneath. -/
theorem eq_NL_of_permits {upper lower : Mode} (whole : upper ∈ [NL, S, X])
    (permitted : permits upper lower = true) : lower = NL := by
  cases upper <;> cases lower <;> simp_all [permits, admits]

/-- An intention that is covered beneath a name is covered there. -/
theorem covers_of_permits {upper lower intention : Mode} (intends : intention ∈ [IS, IX])
    (permitted : permits upper lower = true) (covered : covers lower intention = true) :
    covers upper intention = true := by
  cases upper <;> cases lower <;> cases intention <;> simp_all [permits, admits, covers]

theorem intention_of_intent {mode : Mode} (intends : mode ∈ [IS, IX]) : mode.intention = mode := by
  cases mode <;> simp_all [intention]

theorem intention_mem {mode : Mode} (locked : mode ≠ NL) : mode.intention ∈ [IS, IX] := by
  cases mode <;> simp_all [intention]

theorem permits_of_admits {upper lower : Mode} (admitted : admits upper lower = true) :
    permits upper lower = true := by
  rw [permits, admitted, Bool.true_or]

/-- What is permitted beneath a mode stays so when the mode is raised to an intention. -/
theorem permits_intention {upper lower intention : Mode} (intends : intention ∈ [IS, IX])
    (gives : givesWay upper intention = true) (below : covers upper intention = false)
    (permitted : permits upper lower = true) : permits intention lower = true := by
  cases upper <;> cases lower <;> cases intention <;>
    simp_all [permits, admits, covers, givesWay]

theorem admits_of_givesWay {held mode : Mode} (gives : givesWay held mode = true)
    (covered : covers held mode.intention = true) : admits held mode = true := by
  cases held <;> cases mode <;> simp_all [admits, covers, givesWay, intention]

theorem givesWay_intention {held mode : Mode} (gives : givesWay held mode = true) :
    givesWay held mode.intention = true := by
  cases held <;> cases mode <;> simp_all [admits, givesWay, intention]

/-- What stands above a lock gives way to `S` and `X`; only `SIX` does not admit `S`. -/
theorem givesWay_of_permits {upper lower mode : Mode} (held : lower ≠ NL)
    (permitted : permits upper lower = true) (wanted : mode = X ∨ upper ≠ SIX) :
    givesWay upper mode = true := by
  cases upper <;> cases lower <;> cases mode <;> simp_all [permits, admits, givesWay]

/-- What stands above a mode that admits `X` admits `X`. -/
theorem admits_X_of_permits {upper middle : Mode} (permitted : permits upper middle = true)
    (admitted : admits middle X = true) : admits upper X = true := by
  cases upper <;> cases middle <;> simp_all [permits, admits]

/-- What stands above `IS` admits `S`, and beneath `IS` nothing is written. -/
theorem admits_S_of_permits_IS {upper : Mode} (permitted : permits upper IS = true) :
    admits upper S = true := by
  cases upper <;> simp_all [permits, admits]

/-- What stands above an intention is an intention, unless it is a `SIX` above an `IX`. -/
theorem intention_of_permits {upper lower : Mode} (permitted : permits upper lower = true)
    (intends : lower = IS ∨ lower = IX ∧ upper ≠ SIX) : upper ∈ [NL, IS, IX] := by
  cases upper <;> cases lower <;> simp_all [permits, admits]

theorem intention_of_IS_permits {lower : Mode} (permitted : permits IS lower = true) :
    lower.intention ≠ IX := by
  cases lower <;> simp_all [permits, admits, intention]

end Mode

namespace Modes

/-- Every mode permits what is held beneath its name. -/
def Tidy (modes : Modes) : Prop :=
  ∀ name upper, name.isBeneath upper = true → Mode.permits (modes upper) (modes name) = true

/-- Whatever is held above a name admits a mode there. -/
def AdmitsAbove (modes : Modes) (name : ResourceName) (mode : Mode) : Prop :=
  ∀ upper, name.isBeneath upper = true → Mode.admits (modes upper) mode = true

/-- The modes after a mode has been taken on a name, and given up beneath it where they are so. -/
def take (modes : Modes) (name : ResourceName) (mode : Mode) (given : Mode → Bool)
    (other : ResourceName) : Mode :=
  if other = name then mode
  else if other.isBeneath name && given (modes other) then .NL
  else modes other

/-- The modes with an intention held on all names above a name, where it was not covered before. -/
def announce (modes : Modes) (name : ResourceName) (intention : Mode) (other : ResourceName) :
    Mode :=
  if name.isBeneath other = true ∧ Mode.covers (modes other) intention = false then intention
  else modes other

section

variable {modes : Modes} {name other : ResourceName} {mode intention : Mode} {given : Mode → Bool}

theorem take_own : modes.take name mode given name = mode :=
  if_pos rfl

theorem take_given (beneath : other.isBeneath name = true) (gives : given (modes other) = true) :
    modes.take name mode given other = .NL := by
  rw [take, if_neg (ResourceName.ne_of_isBeneath beneath), beneath, gives]
  rfl

theorem take_kept (apart : other ≠ name)
    (kept : ¬(other.isBeneath name = true ∧ given (modes other) = true)) :
    modes.take name mode given other = modes other := by
  rw [take, if_neg apart, if_neg (by rwa [Bool.and_eq_true])]

/-- Above the name nothing changes. -/
theorem take_above (beneath : name.isBeneath other = true) :
    modes.take name mode given other = modes other := by
  apply take_kept (ResourceName.ne_of_isBeneath beneath).symm
  intro ⟨circle, _⟩
  exact Bool.false_ne_true ((ResourceName.isBeneath_asymm beneath).symm.trans circle)

/-- What is held as `X` after another mode has been taken was held so before. -/
theorem writes_of_take (plain : mode ≠ .X) (writes : modes.take name mode given other = .X) :
    modes other = .X := by
  rw [take] at writes
  split at writes
  · exact absurd writes plain
  · split at writes
    · cases writes
    · exact writes

theorem AdmitsAbove.take {asked : Mode} (admits : modes.AdmitsAbove name asked) :
    AdmitsAbove (modes.take name mode given) name asked := by
  intro upper beneath
  rw [take_above beneath]
  exact admits upper beneath

theorem announce_outside (outside : name.isBeneath other = false) :
    modes.announce name intention other = modes other :=
  if_neg fun both => Bool.false_ne_true (outside.symm.trans both.1)

theorem announce_own : modes.announce name intention name = modes name :=
  announce_outside name.isBeneath_self

theorem announce_of_covers (covered : Mode.covers (modes other) intention = true) :
    modes.announce name intention other = modes other :=
  if_neg fun both => Bool.false_ne_true (both.2.symm.trans covered)

/-- Once the intention for a mode has been announced above a name, the mode is admitted there. -/
theorem admitsAbove_announce
    (gives : ∀ upper, name.isBeneath upper = true → Mode.givesWay (modes upper) mode = true) :
    AdmitsAbove (modes.announce name mode.intention) name mode := by
  intro upper beneath
  by_cases covered : Mode.covers (modes upper) mode.intention = true
  · rw [announce_of_covers covered]
    exact Mode.admits_of_givesWay (gives upper beneath) covered
  · rw [announce, if_pos ⟨beneath, Bool.eq_false_iff.mpr covered⟩]
    exact Mode.admits_intention mode

theorem announce_root (top : name.parent? = none) : modes.announce name intention = modes := by
  funext other
  apply announce_outside
  rw [Bool.eq_false_iff]
  intro beneath
  obtain ⟨parent, above, _⟩ := ResourceName.isBeneath_iff_parent.mp beneath
  rw [top] at above
  cases above

/-- Announcing on all names above is announcing above the parent and then on the parent. -/
theorem take_announce {parent : ResourceName} (above : name.parent? = some parent)
    (below : Mode.covers (modes parent) intention = false) :
    Modes.take (modes.announce parent intention) parent intention (fun _ => false) =
      modes.announce name intention := by
  funext other
  have beneath : name.isBeneath other = true ↔ other = parent ∨ parent.isBeneath other = true := by
    rw [ResourceName.isBeneath_iff_parent, above]
    simp
  by_cases own : other = parent
  · subst own
    rw [take_own, announce, if_pos ⟨beneath.mpr (Or.inl rfl), below⟩]
  · simp only [take, own, if_false, Bool.and_false, Bool.false_eq_true, announce, beneath, false_or]

end

namespace Tidy

variable {before : Modes}

theorem empty (owner : TransactionId) : Tidy (Table.empty.modeOf owner) := by
  intro name upper _
  rw [Table.modeOf_empty, Table.modeOf_empty]
  rfl

/-- Giving up a lock with none beneath it. -/
theorem drop (tidy : before.Tidy) {name : ResourceName} (bare : before.Bare name) :
    Tidy (before.drop name) := by
  intro lower upper beneath
  rw [Modes.drop, Modes.drop]
  by_cases lowerGiven : lower = name
  · rw [if_pos lowerGiven]
    exact Mode.permits_NL _
  · rw [if_neg lowerGiven]
    by_cases upperGiven : upper = name
    · rw [bare lower (upperGiven ▸ beneath)]
      exact Mode.permits_NL _
    · rw [if_neg upperGiven]
      exact tidy lower upper beneath

variable (tidy : before.Tidy) {name : ResourceName} {mode intention : Mode}
include tidy

/-- Beneath a name without a lock, and beneath a whole subtree that is locked, there is none. -/
theorem bare (whole : before name ∈ [.NL, .S, .X]) : before.Bare name :=
  fun other beneath => Mode.eq_NL_of_permits whole (tidy other name beneath)

/-- Beneath `IS` nothing is written. -/
theorem not_writesWithin (reads : before name = .IS) : ¬before.WritesWithin name := by
  intro ⟨other, within, writes⟩
  rcases within with rfl | beneath
  · rw [reads] at writes
    cases writes
  · have permitted := tidy other name beneath
    rw [reads] at permitted
    exact Mode.intention_of_IS_permits permitted writes

/-- Taking a mode that is permitted by those above, and that permits what is kept beneath.  What is
given up takes along all that is beneath it. -/
theorem take {given : Mode → Bool}
    (upper : ∀ upper, name.isBeneath upper = true → Mode.permits (before upper) mode = true)
    (lower : ∀ lower, Mode.permits (before name) lower = true →
      given lower = true ∨ Mode.permits mode lower = true)
    (closed : ∀ first second, given first = true → Mode.permits first second = true →
      given second = true ∨ second = .NL) : Tidy (before.take name mode given) := by
  intro other above beneath
  by_cases own : other = name
  · subst own
    rw [take_own, take_above beneath]
    exact upper above beneath
  by_cases gives : other.isBeneath name = true ∧ given (before other) = true
  · rw [take_given gives.1 gives.2]
    exact Mode.permits_NL _
  have permitted := tidy other above beneath
  rw [take_kept own gives]
  by_cases aboveOwn : above = name
  · subst aboveOwn
    rw [take_own]
    exact (lower _ permitted).resolve_left fun given => gives ⟨beneath, given⟩
  by_cases aboveGives : above.isBeneath name = true ∧ given (before above) = true
  · have free : before other = .NL := (closed _ _ aboveGives.2 permitted).resolve_left
      fun given => gives ⟨ResourceName.isBeneath_trans beneath aboveGives.1, given⟩
    rw [free]
    exact Mode.permits_NL _
  · rw [take_kept aboveOwn aboveGives]
    exact permitted

/-- Acquiring a lock, or promoting an `S`: in either case nothing is held beneath. -/
theorem raise (above : before.AdmitsAbove name mode) (bare : before name = .NL ∨ before name = .S) :
    Tidy (before.take name mode fun _ => false) := by
  apply tidy.take (fun upper beneath => Mode.permits_of_admits (above upper beneath))
  · intro lower permitted
    have whole : before name ∈ [Mode.NL, .S, .X] := by
      rcases bare with held | held
      · simp [held]
      · simp [held]
    right
    rw [Mode.eq_NL_of_permits whole permitted]
    exact Mode.permits_NL mode
  · intro _ _ given
    cases given

/-- Promoting an `IX` to `SIX`. -/
theorem promoteToSIX (above : before.AdmitsAbove name .SIX) :
    Tidy (before.take name .SIX Mode.onlyReads) := by
  apply tidy.take (fun upper beneath => Mode.permits_of_admits (above upper beneath))
  · intro lower _
    cases lower <;> simp [Mode.onlyReads, Mode.permits, Mode.admits]
  · intro first second given permitted
    cases first <;> cases second <;> simp_all [Mode.onlyReads, Mode.permits, Mode.admits]

/-- Escalating a lock, which gives up everything beneath. -/
theorem escalate (above : before.AdmitsAbove name mode) :
    Tidy (before.take name mode fun _ => true) :=
  tidy.take (fun upper beneath => Mode.permits_of_admits (above upper beneath))
    (fun _ _ => Or.inl rfl) fun _ _ _ _ => Or.inl rfl

/-- Announcing an intention above a name, where everything gives way to it. -/
theorem announce (intends : intention ∈ [.IS, .IX])
    (gives : ∀ upper, name.isBeneath upper = true →
      Mode.givesWay (before upper) intention = true) : Tidy (before.announce name intention) := by
  intro lower upper beneath
  have permitted := tidy lower upper beneath
  by_cases raised : name.isBeneath upper = true ∧ Mode.covers (before upper) intention = false
  · have stays : Mode.permits intention (before lower) = true :=
      Mode.permits_intention intends (gives upper raised.1) raised.2 permitted
    rw [Modes.announce, if_pos raised, Modes.announce]
    split
    · rcases List.mem_pair.mp intends with rfl | rfl <;> rfl
    · exact stays
  · rw [Modes.announce, if_neg raised, Modes.announce]
    split
    · next lowerRaised =>
        have above := ResourceName.isBeneath_trans lowerRaised.1 beneath
        have covered : Mode.covers (before upper) intention = true := by
          simpa [above] using raised
        apply Mode.permits_of_admits
        apply Mode.admits_of_givesWay (gives upper above)
        rw [Mode.intention_of_intent intends]
        exact covered
    · exact permitted

/-- Where an intention is covered on the parent, there is nothing left to announce. -/
theorem announce_eq (intends : intention ∈ [.IS, .IX]) {parent : ResourceName}
    (above : name.parent? = some parent)
    (covered : Mode.covers (before parent) intention = true) :
    before.announce name intention = before := by
  funext other
  by_cases beneath : name.isBeneath other = true
  · apply announce_of_covers
    obtain ⟨next, same, within⟩ := ResourceName.isBeneath_iff_parent.mp beneath
    rw [above, Option.some.injEq] at same
    subst same
    rcases within with rfl | upper
    · exact covered
    · exact Mode.covers_of_permits intends (tidy parent other upper) covered
  · exact announce_outside (Bool.eq_false_iff.mpr beneath)

end Tidy

end Modes

/-! ### The modes in force -/

namespace Table

variable {table : Table} {owner : TransactionId} {name : ResourceName} {above : List ResourceName}

theorem effectiveOn_of_held (held : table.modeOf owner name ≠ .NL) :
    table.effectiveOn owner (name :: above) = table.modeOf owner name := by
  rw [effectiveOn]
  exact if_pos held

theorem effectiveOn_of_free (free : table.modeOf owner name = .NL) :
    table.effectiveOn owner (name :: above) =
      table.handedDown owner name (table.effectiveOn owner above) := by
  rw [effectiveOn]
  exact if_neg (not_not.mpr free)

theorem handedDown_mem (upper : Mode) : table.handedDown owner name upper ∈ [.NL, .S, .X] := by
  cases upper with
  | NL | IS | S | SIX | X => simp [handedDown]
  | IX =>
      rw [handedDown]
      split
      · simp
      · simp

theorem eq_X_of_handedDown {upper : Mode} (writes : table.handedDown owner name upper = .X) :
    upper = .X := by
  cases upper with
  | NL | IS | S | SIX => cases writes
  | X => rfl
  | IX =>
      rw [handedDown] at writes
      split at writes
      · cases writes
      · cases writes

/-- An `X` in force is held there or above. -/
theorem exists_X_of_effectiveOn (writes : table.effectiveOn owner (name :: name.ancestors) = .X) :
    ∃ upper, (upper = name ∨ name.isBeneath upper = true) ∧ table.modeOf owner upper = .X := by
  induction name using ResourceName.induction_child with
  | root segment =>
      refine ⟨_, Or.inl rfl, ?_⟩
      by_contra apart
      by_cases free : table.modeOf owner ⟨segment, []⟩ = .NL
      · rw [effectiveOn_of_free free] at writes
        cases writes
      · exact apart ((effectiveOn_of_held free).symm.trans writes)
  | child parent segment inductionHypothesis =>
      by_cases free : table.modeOf owner (parent.child segment) = .NL
      · rw [effectiveOn_of_free free, ResourceName.ancestors_child] at writes
        obtain ⟨upper, within, held⟩ := inductionHypothesis (eq_X_of_handedDown writes)
        exact ⟨upper, Or.inr (ResourceName.isBeneath_child.mpr within), held⟩
      · exact ⟨_, Or.inl rfl, (effectiveOn_of_held free).symm.trans writes⟩

/-- An `X` in force on the parent is in force on the name as well. -/
theorem effectiveOn_eq_X_of_parent (tidy : Modes.Tidy (table.modeOf owner))
    {parent : ResourceName} (upper : name.parent? = some parent)
    (writes : table.effectiveOn owner (parent :: parent.ancestors) = .X) :
    table.effectiveOn owner (name :: name.ancestors) = .X := by
  obtain ⟨other, within, held⟩ := exists_X_of_effectiveOn writes
  have beneath := ResourceName.isBeneath_iff_parent.mpr ⟨parent, upper, within⟩
  have free : table.modeOf owner name = .NL := tidy.bare (by simp [held]) name beneath
  rw [effectiveOn_of_free free, ResourceName.ancestors_of_parent upper, writes]
  rfl

namespace Sound

variable (sound : table.Sound)
include sound

theorem hasSIXAbove_iff : table.hasSIXAbove owner name = true ↔
    ∃ upper, name.isBeneath upper = true ∧ table.modeOf owner upper = .SIX := by
  simp only [hasSIXAbove, List.any_eq_true, sound.mem_locksOf_iff, Bool.and_eq_true, beq_iff_eq]
  constructor
  · rintro ⟨lock, ⟨_, _, held⟩, reads, beneath⟩
    exact ⟨lock.name, beneath, held.trans reads⟩
  · rintro ⟨upper, beneath, held⟩
    exact ⟨⟨upper, .SIX, owner⟩, ⟨rfl, nofun, held⟩, rfl, beneath⟩

/-- What is in force depends on the modes alone. -/
theorem hasSIXAbove_congr {other : Table} (otherSound : other.Sound)
    (same : other.modeOf owner = table.modeOf owner) :
    other.hasSIXAbove owner name = table.hasSIXAbove owner name := by
  rw [Bool.eq_iff_iff, sound.hasSIXAbove_iff, otherSound.hasSIXAbove_iff, same]

theorem effectiveOn_congr {other : Table} (otherSound : other.Sound)
    (same : other.modeOf owner = table.modeOf owner) (names : List ResourceName) :
    other.effectiveOn owner names = table.effectiveOn owner names := by
  induction names with
  | nil => rfl
  | cons name above inductionHypothesis =>
      have down : other.handedDown owner name = table.handedDown owner name := by
        funext upper
        cases upper with
        | NL | IS | S | SIX | X => rfl
        | IX => rw [handedDown, handedDown, sound.hasSIXAbove_congr otherSound same]
      rw [effectiveOn, effectiveOn, same, down, inductionHypothesis]

/-- Where nothing is in force, nothing but intentions is held above. -/
theorem intentions_of_effectiveOn_NL (tidy : Modes.Tidy (table.modeOf owner))
    (nothing : table.effectiveOn owner (name :: name.ancestors) = .NL) :
    ∀ upper, name.isBeneath upper = true → table.modeOf owner upper ∈ [.NL, .IS, .IX] := by
  induction name using ResourceName.induction_child with
  | root segment =>
      intro upper beneath
      simp at beneath
  | child parent segment inductionHypothesis =>
      have free : table.modeOf owner (parent.child segment) = .NL := by
        by_contra held
        exact held ((effectiveOn_of_held held).symm.trans nothing)
      rw [effectiveOn_of_free free, ResourceName.ancestors_child] at nothing
      intro upper beneath
      rw [ResourceName.isBeneath_child] at beneath
      by_cases parentFree : table.modeOf owner parent = .NL
      · -- The parent only hands on what is in force there, which is nothing.
        rcases beneath with rfl | beneath
        · simp [parentFree]
        apply inductionHypothesis _ upper beneath
        rw [effectiveOn_of_free parentFree] at nothing ⊢
        have kinds : table.handedDown owner parent (table.effectiveOn owner parent.ancestors) ∈
            [.NL, .S, .X] := handedDown_mem _
        generalize table.handedDown owner parent _ = handed at kinds nothing ⊢
        cases handed <;> simp_all [handedDown]
      · have intends : table.modeOf owner parent = .IS ∨ table.modeOf owner parent = .IX ∧
            table.hasSIXAbove owner (parent.child segment) = false := by
          rw [effectiveOn_of_held parentFree] at nothing
          cases held : table.modeOf owner parent <;> simp_all [handedDown]
        rcases beneath with rfl | beneath
        · rcases intends with held | ⟨held, _⟩
          · simp [held]
          · simp [held]
        · apply Mode.intention_of_permits (tidy parent upper beneath)
          refine intends.imp_right fun both => ⟨both.1, fun six => ?_⟩
          have lower : (parent.child segment).isBeneath upper = true :=
            ResourceName.isBeneath_child.mpr (Or.inr beneath)
          rw [sound.hasSIXAbove_iff.mpr ⟨upper, lower, six⟩] at both
          cases both.2

end Sound

end Table

/-- A mode that is held at a context is in force there. -/
theorem Context.effectiveMode_of_held {context : Context} {table : Table} {owner : TransactionId}
    (held : context.explicitMode table owner ≠ .NL) :
    context.effectiveMode table owner = context.explicitMode table owner :=
  Table.effectiveOn_of_held held

end Granularity
