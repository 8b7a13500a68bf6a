import Granularity.Proofs.Runs.Isolation

/-!
The rule of the hierarchy along a run.

The rule says that a mode is held on a name only while the mode held on the parent admits it.  A
request is checked against its parent, but a promotion is not checked against the children that
stay locked.  That is the only way in which the rule is ever broken: it holds in every state of a
run exactly when no step of the run promotes a lock over a child that the new mode does not admit.
-/

namespace Granularity

namespace Modes

/-- The rule of the hierarchy: the mode on the parent admits the mode on the name. -/
def Admitted (modes : Modes) : Prop :=
  modes.LinkedBy Mode.admits

/-- A lock is promoted to `S` or `X` while a lock on a child is kept, or to `SIX` while `SIX` on a
child is kept. -/
def PromotedOver (before after : Modes) : Prop :=
  ∃ name child, child.parent? = some name ∧
    before name ≠ .NL ∧ before name ≠ after name ∧ Mode.covers (after name) (before name) = true ∧
    ((after name = .S ∨ after name = .X) ∧ after child ≠ .NL ∨
      after name = .SIX ∧ after child = .SIX)

variable {before after : Modes}

/-- A promotion over a child breaks the rule. -/
theorem PromotedOver.not_admitted (promoted : PromotedOver before after) : ¬after.Admitted := by
  obtain ⟨name, child, above, _, _, _, kept⟩ := promoted
  intro admitted
  have admits := admitted child name above
  rcases kept with ⟨whole, locked⟩ | ⟨six, childSix⟩
  · exact locked (Mode.eq_NL_of_admits whole admits)
  · rw [six, childSix] at admits
    cases admits

namespace Admitted

variable {request : Request}

/-- The mode that a checked request asks for is admitted by the parent. -/
theorem admits_asked (admitted : before.Admitted) (sheltered : before.Sheltered)
    (checked : Checked before request) {parent : ResourceName}
    (above : request.lock.name.parent? = some parent) :
    Mode.admits (before parent) request.lock.mode = true := by
  have announced := sheltered.shelters_asked checked above
  cases checked with
  | acquire _ _ passed => exact passed parent above
  | promote _ _ _ _ passed => exact passed parent above
  | promoteToSIX _ _ _ passed => exact passed parent above
  | @escalate _ _ name mode _ intent target =>
      have passed := admitted name parent above
      rcases target with ⟨rfl, _⟩ | ⟨rfl, reads⟩
      · exact Mode.admits_X intent passed announced
      · exact Mode.admits_S intent (fun writes => reads ⟨name, Or.inl rfl, writes⟩) passed

/-- Granting a checked request keeps the rule, unless it is a promotion over a child. -/
theorem granted (admitted : before.Admitted) (sheltered : before.Sheltered)
    (checked : Checked before request) (notOver : ¬PromotedOver before (request.outcome before)) :
    Admitted (request.outcome before) := by
  refine sheltered.linkedBy_outcome checked admitted Mode.admits_NL
    (fun parent above => admitted.admits_asked sheltered checked above) (fun child above kept => ?_)
  have apart : child ≠ request.lock.name :=
    ResourceName.ne_of_isBeneath (ResourceName.isBeneath_parent above)
  have same : request.outcome before child = before child := Request.outcome_kept apart kept
  have own : request.outcome before request.lock.name = request.lock.mode := Request.outcome_own
  cases checked with
  | @acquire _ _ name mode free =>
      rw [sheltered.eq_NL_below (ResourceName.isBeneath_parent above) free]
      exact Mode.admits_NL mode
  | @promote _ _ name mode held raised covered plain =>
      rcases Mode.promoted_cases held raised covered plain with rfl | whole
      · exact Mode.admits_IX _
      · have free : before child = .NL := by
          by_contra locked
          exact notOver ⟨name, child, above, held, own ▸ raised, own ▸ covered,
            Or.inl ⟨own ▸ whole, same ▸ locked⟩⟩
        rw [free]
        exact Mode.admits_NL mode
  | @promoteToSIX _ _ name _ held raised covered _ given =>
      have writes : before child ≠ .S ∧ before child ≠ .IS := by
        have notReads := fun reads =>
          kept ((given child).mpr (Or.inr ⟨ResourceName.isBeneath_parent above, reads⟩))
        exact ⟨fun reads => notReads (Or.inl reads), fun reads => notReads (Or.inr reads)⟩
      have plain : before child ≠ .SIX := fun six =>
        notOver ⟨name, child, above, held, own ▸ raised, own ▸ covered, Or.inr ⟨own, same ▸ six⟩⟩
      exact Mode.admits_SIX writes.1 writes.2 plain
  | @escalate _ _ name mode _ _ _ given =>
      have free : before child = .NL := by
        by_contra held
        exact kept ((given child).mpr (Or.inr ⟨ResourceName.isBeneath_parent above, held⟩))
      rw [free]
      exact Mode.admits_NL mode

theorem change (admitted : before.Admitted) (sheltered : before.Sheltered)
    (change : Change before after) (notOver : ¬PromotedOver before after) : after.Admitted := by
  cases change with
  | unchanged => exact admitted
  | granted checked => exact admitted.granted sheltered checked notOver
  | released bare => exact LinkedBy.drop admitted Mode.admits_NL bare

end Admitted

end Modes

namespace Table

variable {table : Table}

/-- Whoever is granted a mode on a name is granted a mode on its parent that admits it. -/
def FollowsRule (table : Table) : Prop :=
  ∀ owner name mode parent, table.Grants owner name mode → name.parent? = some parent →
    ∃ above, table.Grants owner parent above ∧ Mode.admits above mode = true

theorem Sound.followsRule_iff (sound : table.Sound) :
    table.FollowsRule ↔ ∀ owner, Modes.Admitted (table.modeOf owner) := by
  constructor
  · intro follows owner name parent above
    by_cases free : table.modeOf owner name = .NL
    · rw [free]
      exact Mode.admits_NL _
    · obtain ⟨mode, granted, admitted⟩ :=
        follows owner name _ parent ((sound.grants_iff free).mpr rfl) above
      have locked := (sound.entries parent).granted_locked _ granted
      rw [(sound.grants_iff locked).mp granted]
      exact admitted
  · intro admitted owner name mode parent granted above
    have locked : mode ≠ .NL := (sound.entries name).granted_locked _ granted
    have held := (sound.grants_iff locked).mp granted
    have admits := admitted owner name parent above
    rw [held] at admits
    have parentLocked : table.modeOf owner parent ≠ .NL := by
      intro free
      rw [free] at admits
      exact locked (Mode.eq_NL_of_NL_admits admits)
    exact ⟨_, (sound.grants_iff parentLocked).mpr rfl, admits⟩

end Table

namespace Interleaving

/-- The rule of the hierarchy holds in every state of a run exactly when no turn of the run promotes
a transaction's lock over a child that the new mode does not admit. -/
theorem followsRule_run_iff (config : Config) (handles : Std.ExtTreeMap TransactionId Handle)
    (turns : List Turn) :
    let state (count : Nat) := (opened config handles).run (turns.take count)
    (∀ count, (state count).table.FollowsRule) ↔
      ∀ count owner, ¬Modes.PromotedOver ((state count).table.modeOf owner)
        ((state (count + 1)).table.modeOf owner) := by
  intro state
  have start := Steady.opened config handles
  have rule (count : Nat) : (state count).table.FollowsRule ↔
      ∀ owner, Modes.Admitted ((state count).table.modeOf owner) :=
    (start.run (turns.take count)).sound.followsRule_iff
  constructor
  · intro follows count owner promoted
    exact promoted.not_admitted ((rule (count + 1)).mp (follows (count + 1)) owner)
  · intro notOver count
    apply (rule count).mpr
    -- By induction on the turns taken: each changes the modes of a transaction by one change.
    induction count with
    | zero => exact fun owner => .empty Mode.admits_NL owner
    | succ count inductionHypothesis =>
        intro owner
        exact (inductionHypothesis owner).change (sheltered_run config handles _ owner)
          ((start.keeps_take turns count).changes owner) (notOver count owner)

/-- A transaction takes `IS` on a root and `S` on its child, and then promotes the root to `S`. -/
def promotionOverChild : List Turn :=
  let root : Context := ⟨⟨0, ⟨"database", []⟩, false⟩, []⟩
  let child : Context := ⟨⟨1, ⟨"database", ["T1"]⟩, false⟩, [root.place]⟩
  [.lookUp (.named child.name), .demand 1 (.acquire root .IS), .advance 1,
    .demand 1 (.acquire child .S), .advance 1, .demand 1 (.promote root .S), .advance 1]

/-- The lock on the child stays, under an `S` that admits nothing. -/
theorem not_followsRule_promotionOverChild :
    ¬((opened {} ∅).run promotionOverChild).table.FollowsRule := by
  intro follows
  let table := ((opened {} ∅).run promotionOverChild).table
  have held : table.modeOf 1 ⟨"database", []⟩ = .S ∧ table.modeOf 1 ⟨"database", ["T1"]⟩ = .S := by
    decide +kernel
  have sound : table.Sound := ((Steady.opened {} ∅).run promotionOverChild).sound
  have admitted := sound.followsRule_iff.mp follows 1 ⟨"database", ["T1"]⟩ ⟨"database", []⟩ rfl
  rw [held.1, held.2] at admitted
  cases admitted

end Interleaving

end Granularity
