import Granularity.Proofs.Contexts.Change

/-!
Sheltered locks.

Every lock taken through contexts is sheltered: its owner holds at least the intention for it on
the name above, and so on every name above.  The rule of the hierarchy would give as much, but
unlike the rule this is kept by every change of a transaction's modes, promotions over locked
children included.
-/

namespace Granularity

/-- The upper mode announces what the lower one does beneath it. -/
def Mode.shelters (upper lower : Mode) : Bool :=
  covers upper lower.intention

theorem Mode.shelters_NL (upper : Mode) : shelters upper NL = true :=
  covers_NL upper

namespace Modes

/-- On the parent of every name at least the intention for the mode there is held. -/
def Sheltered (modes : Modes) : Prop :=
  modes.LinkedBy Mode.shelters

variable {before after : Modes}

namespace Sheltered

/-- The intention is held all the way up. -/
theorem above (sheltered : before.Sheltered) {name upper : ResourceName}
    (beneath : name.isBeneath upper = true) :
    Mode.covers (before upper) (before name).intention = true := by
  induction name using ResourceName.induction_child with
  | root segment => simp at beneath
  | child parent segment inductionHypothesis =>
      have next :=
        sheltered (parent.child segment) parent (ResourceName.parent?_child parent segment)
      rcases ResourceName.isBeneath_child.mp beneath with rfl | beneath
      · exact next
      · exact Mode.covers_trans (inductionHypothesis beneath) (Mode.covers_intention next)

/-- Beneath a name without a lock there is none. -/
theorem eq_NL_below (sheltered : before.Sheltered) {name upper : ResourceName}
    (beneath : name.isBeneath upper = true) (free : before upper = .NL) : before name = .NL := by
  have covered := sheltered.above beneath
  rw [free] at covered
  exact Mode.eq_NL_of_intention (Mode.eq_NL_of_covers_NL covered)

variable {request : Request}

/-- The mode that a checked request asks for is sheltered. -/
theorem shelters_asked (sheltered : before.Sheltered) (checked : Checked before request)
    {parent : ResourceName} (above : request.lock.name.parent? = some parent) :
    Mode.shelters (before parent) request.lock.mode = true := by
  cases checked with
  | acquire _ _ admitted => exact Mode.covers_of_admits (admitted parent above)
  | promote _ _ _ _ admitted => exact Mode.covers_of_admits (admitted parent above)
  | promoteToSIX _ _ _ admitted => exact Mode.covers_of_admits (admitted parent above)
  | @escalate _ _ name mode _ intent target =>
      rcases target with ⟨rfl, other, inside, writes⟩ | ⟨rfl, _⟩
      · show Mode.covers (before parent) .IX = true
        rw [← writes]
        rcases inside with rfl | beneath
        · exact sheltered other parent above
        · exact sheltered.above
            (ResourceName.isBeneath_trans beneath (ResourceName.isBeneath_parent above))
      · exact Mode.covers_trans (sheltered name parent above) (Mode.covers_IS_of_isIntent intent)

/-- What a checked request gives up takes along all that is beneath. -/
theorem bare_given (sheltered : before.Sheltered) (checked : Checked before request)
    {parent child : ResourceName} (parentGiven : parent ∈ request.released.map Lock.name)
    (apart : parent ≠ request.lock.name) (above : child.parent? = some parent)
    (kept : child ∉ request.released.map Lock.name) : before child = .NL := by
  have beneath : child.isBeneath request.lock.name = true :=
    ResourceName.isBeneath_trans (ResourceName.isBeneath_parent above)
      ((checked.within parentGiven).resolve_left apart)
  cases checked with
  | acquire => cases parentGiven
  | promote => cases parentGiven
  | promoteToSIX _ _ _ _ given =>
      -- Beneath a name that is only read everything is only read, and so is given up too.
      obtain ⟨_, reads⟩ := ((given parent).mp parentGiven).resolve_left apart
      refine (Mode.reads_of_covers reads (sheltered child parent above)).resolve_right ?_
      exact fun childReads => kept ((given child).mpr (Or.inr ⟨beneath, childReads⟩))
  | escalate _ _ given =>
      by_contra held
      exact kept ((given child).mpr (Or.inr ⟨beneath, held⟩))

/-- A rule survives the granting of a checked request when its mode agrees with the parent and with
the children that are kept. -/
theorem linkedBy_outcome (sheltered : before.Sheltered) (checked : Checked before request)
    {relation : Mode → Mode → Bool} (linked : before.LinkedBy relation)
    (free : ∀ mode, relation mode .NL = true)
    (upper : ∀ parent, request.lock.name.parent? = some parent →
      relation (before parent) request.lock.mode = true)
    (lower : ∀ child, child.parent? = some request.lock.name →
      child ∉ request.released.map Lock.name →
        relation request.lock.mode (before child) = true) :
    LinkedBy relation (request.outcome before) :=
  linked.outcome free checked upper lower fun _ given apart _ above kept =>
    sheltered.bare_given checked given apart above kept

theorem granted (sheltered : before.Sheltered) (checked : Checked before request) :
    Sheltered (request.outcome before) := by
  refine sheltered.linkedBy_outcome checked sheltered Mode.shelters_NL
    (fun parent above => sheltered.shelters_asked checked above) (fun child above kept => ?_)
  cases checked with
  | acquire free =>
      rw [sheltered.eq_NL_below (ResourceName.isBeneath_parent above) free]
      exact Mode.shelters_NL _
  | @promote _ _ name _ _ _ covered => exact Mode.covers_trans covered (sheltered child name above)
  | @promoteToSIX _ _ name _ _ _ covered =>
      exact Mode.covers_trans covered (sheltered child name above)
  | escalate _ _ given =>
      have free : before child = .NL := by
        by_contra held
        exact kept ((given child).mpr (Or.inr ⟨ResourceName.isBeneath_parent above, held⟩))
      rw [free]
      exact Mode.shelters_NL _

/-- Every change of the modes of a transaction keeps its locks sheltered. -/
theorem change (sheltered : before.Sheltered) (change : Change before after) :
    after.Sheltered := by
  cases change with
  | unchanged => exact sheltered
  | granted checked => exact sheltered.granted checked
  | released bare => exact LinkedBy.drop sheltered Mode.shelters_NL bare

end Sheltered

end Modes

end Granularity
