import Granularity.Proofs.Contexts.Moves
import Granularity.Proofs.Table.Passed

/-!
How the modes of one transaction change.

A request made through a context has been checked against the modes of its owner, and `Checked`
says what the checks established.  Granting such a request, or releasing a lock with none beneath
it, are the only ways in which the modes of a transaction change; whatever rule of the hierarchy
both keep is an invariant of contexts.
-/

namespace Granularity

/-- The modes that one transaction holds, name by name. -/
abbrev Modes := ResourceName → Mode

namespace Modes

/-- The modes with the lock on one name given up. -/
def drop (modes : Modes) (name other : ResourceName) : Mode :=
  if other = name then .NL else modes other

/-- The mode held on the parent of a name admits a mode there; a root takes any mode. -/
def AdmitsAt (modes : Modes) (name : ResourceName) (mode : Mode) : Prop :=
  ∀ parent, name.parent? = some parent → Mode.admits (modes parent) mode = true

/-- Nothing is held beneath a name. -/
def Bare (modes : Modes) (name : ResourceName) : Prop :=
  ∀ other, other.isBeneath name = true → modes other = .NL

/-- A mode that writes or means to write is held at a name or beneath it. -/
def WritesWithin (modes : Modes) (name : ResourceName) : Prop :=
  ∃ other, (other = name ∨ other.isBeneath name = true) ∧ (modes other).intention = .IX

end Modes

/-- What has been checked of a request made through a context. -/
inductive Checked (modes : Modes) : Request → Prop where
  | acquire {waiter owner : TransactionId} {name : ResourceName} {mode : Mode}
      (free : modes name = .NL) (locked : mode ≠ .NL) (admitted : modes.AdmitsAt name mode) :
      Checked modes ⟨waiter, ⟨name, mode, owner⟩, []⟩
  | promote {waiter owner : TransactionId} {name : ResourceName} {mode : Mode}
      (held : modes name ≠ .NL) (raised : modes name ≠ mode)
      (covered : Mode.covers mode (modes name) = true) (plain : mode ≠ .SIX)
      (admitted : modes.AdmitsAt name mode) :
      Checked modes ⟨waiter, ⟨name, mode, owner⟩, []⟩
  | promoteToSIX {waiter owner : TransactionId} {name : ResourceName} {released : List Lock}
      (held : modes name ≠ .NL) (raised : modes name ≠ .SIX)
      (covered : Mode.covers .SIX (modes name) = true) (admitted : modes.AdmitsAt name .SIX)
      (given : ∀ other, other ∈ released.map Lock.name ↔
        other = name ∨ other.isBeneath name = true ∧ (modes other = .S ∨ modes other = .IS)) :
      Checked modes ⟨waiter, ⟨name, .SIX, owner⟩, released⟩
  | escalate {waiter owner : TransactionId} {name : ResourceName} {mode : Mode}
      {released : List Lock} (intent : (modes name).isIntent = true)
      (target : mode = .X ∧ modes.WritesWithin name ∨ mode = .S ∧ ¬modes.WritesWithin name)
      (given : ∀ other, other ∈ released.map Lock.name ↔
        other = name ∨ other.isBeneath name = true ∧ modes other ≠ .NL) :
      Checked modes ⟨waiter, ⟨name, mode, owner⟩, released⟩

/-- A request gives up nothing outside the subtree of its name. -/
theorem Checked.within {modes : Modes} {request : Request} (checked : Checked modes request)
    {other : ResourceName} (given : other ∈ request.released.map Lock.name) :
    other = request.lock.name ∨ other.isBeneath request.lock.name = true := by
  cases checked with
  | acquire => cases given
  | promote => cases given
  | promoteToSIX _ _ _ _ releases => exact ((releases other).mp given).imp_right And.left
  | escalate _ _ releases => exact ((releases other).mp given).imp_right And.left

/-- The ways in which the modes of a transaction change. -/
inductive Change (before : Modes) : Modes → Prop where
  | unchanged : Change before before
  | granted {request : Request} (checked : Checked before request) :
      Change before (request.outcome before)
  | released {name : ResourceName} (bare : before.Bare name) : Change before (before.drop name)

/-! ### What an operation on a context comes down to -/

/-- The context that an operation is about; a call on the table has none. -/
def Operation.context? : Operation → Option Context
  | .direct _ => none
  | .acquire context _ | .release context | .promote context _ | .escalate context => some context

/-- The operation is on a context whose places carry the names above it. -/
def Operation.Aligned (operation : Operation) : Prop :=
  ∃ context, operation.context? = some context ∧ context.Aligned

/-- What a call may do to the modes of its owner: release a lock with none beneath it, or pose a
request that has been checked. -/
inductive Call.Fits (table : Table) (owner : TransactionId) : Call → Prop where
  | release {name : ResourceName} (bare : Modes.Bare (table.modeOf owner) name) :
      Fits table owner (.release name)
  | pose {call : Call} (apart : ∀ name, call ≠ .release name)
      (checked : ∀ request side, table.Poses owner call request side →
        Checked (table.modeOf owner) request) : Fits table owner call

namespace Context

variable {context : Context} {store : Store} {owner : TransactionId} {mode : Mode}
variable {remark : Option Remark} {call : Call}

theorem Aligned.fits_acquire (aligned : context.Aligned)
    (decided : context.acquire store owner mode = .ok (.make remark call)) :
    call.Fits store.table owner := by
  obtain ⟨_, free, locked, admitted, made⟩ := acquire_eq_ok.mp decided
  cases made
  refine .pose (by simp) fun request side poses => ?_
  cases poses with
  | acquire => exact .acquire free locked (aligned.admitted locked admitted)

theorem fits_release (sound : store.table.Sound)
    (decided : context.release store owner = .ok (.make remark call)) :
    call.Fits store.table owner := by
  obtain ⟨_, _, nothing, made⟩ := release_eq_ok.mp decided
  cases made
  exact .release fun other beneath => sound.modeOf_of_countBeneath nothing beneath

theorem Aligned.fits_promote (sound : store.table.Sound) (aligned : context.Aligned)
    (decided : context.promote store owner mode = .ok (.make remark call)) :
    call.Fits store.table owner := by
  obtain ⟨_, held, raised, covered, admitted, _, made⟩ := promote_eq_ok.mp decided
  have locked : mode ≠ .NL := by
    rintro rfl
    exact held (Mode.eq_NL_of_covers_NL covered)
  have admits := aligned.admitted locked admitted
  by_cases six : mode = .SIX
  · subst six
    simp only [promotion, if_true, Move.make.injEq] at made
    obtain ⟨_, rfl⟩ := made
    refine .pose (by simp) fun request side poses => ?_
    cases poses with
    | exchange _ found =>
        refine .promoteToSIX held raised covered admits fun other => ?_
        rw [(Table.locksOn_eq_ok found).1, List.mem_eraseDups, List.mem_append,
          List.mem_singleton, mem_readersBeneath sound]
        exact or_comm
  · simp only [promotion, six, if_false, Move.make.injEq] at made
    obtain ⟨_, rfl⟩ := made
    refine .pose (by simp) fun request side poses => ?_
    cases poses with
    | promote => exact .promote held raised covered six admits

theorem writes_iff (mode : Mode) :
    (mode == .IX || mode == .SIX || mode == .X) = true ↔ mode.intention = .IX := by
  cases mode <;> decide

/-- The target of an escalation is `X` just when something at the name or beneath it writes. -/
theorem escalationTarget_cases (sound : store.table.Sound) (name : ResourceName) :
    let target := escalationTarget (store.table.modeOf owner name)
      (store.table.locksBeneath owner name)
    target = .X ∧ Modes.WritesWithin (store.table.modeOf owner) name ∨
      target = .S ∧ ¬Modes.WritesWithin (store.table.modeOf owner) name := by
  intro target
  have agree : ((store.table.modeOf owner name).intention = .IX ∨
      ∃ lock ∈ store.table.locksBeneath owner name, lock.mode.intention = .IX) ↔
      Modes.WritesWithin (store.table.modeOf owner) name := by
    constructor
    · rintro (writes | ⟨lock, member, writes⟩)
      · exact ⟨name, Or.inl rfl, writes⟩
      · obtain ⟨_, _, held, beneath⟩ := sound.mem_locksBeneath_iff.mp member
        exact ⟨lock.name, Or.inr beneath, held ▸ writes⟩
    · rintro ⟨other, rfl | beneath, writes⟩
      · exact Or.inl writes
      · refine Or.inr ⟨⟨other, store.table.modeOf owner other, owner⟩, ?_, writes⟩
        refine sound.mem_locksBeneath_iff.mpr ⟨rfl, ?_, rfl, beneath⟩
        rintro (none : store.table.modeOf owner other = .NL)
        rw [none] at writes
        cases writes
  simp only [target, escalationTarget, Bool.or_eq_true, List.any_eq_true, ← agree]
  simp only [← Bool.or_eq_true, writes_iff]
  split
  · next writes => exact Or.inl ⟨rfl, writes⟩
  · next reads => exact Or.inr ⟨rfl, reads⟩

theorem fits_escalate (sound : store.table.Sound)
    (decided : context.escalate store owner = .ok (.make remark call)) :
    call.Fits store.table owner := by
  obtain ⟨_, _, made⟩ := escalate_eq_ok.mp decided
  split at made
  · next intent =>
      cases made
      refine .pose (by simp) fun request side poses => ?_
      cases poses with
      | exchange _ found =>
          refine .escalate intent (escalationTarget_cases sound context.name) fun other => ?_
          rw [(Table.locksOn_eq_ok found).1, List.mem_eraseDups, List.mem_cons,
            sound.mem_names_locksBeneath]
  · cases made

end Context

/-- Whatever an operation on an aligned context comes down to has been checked. -/
theorem Operation.Aligned.fits {operation : Operation} {store : Store} {owner : TransactionId}
    {remark : Option Remark} {call : Call} (sound : store.table.Sound)
    (aligned : operation.Aligned)
    (decided : operation.decide store owner = .ok (.make remark call)) :
    call.Fits store.table owner := by
  obtain ⟨context, about, aligned⟩ := aligned
  cases operation with
  | direct => cases about
  | acquire =>
      cases about
      exact aligned.fits_acquire decided
  | release =>
      cases about
      exact Context.fits_release sound decided
  | promote =>
      cases about
      exact aligned.fits_promote sound decided
  | escalate =>
      cases about
      exact Context.fits_escalate sound decided

/-! ### Rules between the modes on a name and on its parent -/

namespace Modes

/-- The mode on the parent of every name is related to the mode on the name. -/
def LinkedBy (relation : Mode → Mode → Bool) (modes : Modes) : Prop :=
  ∀ name parent, name.parent? = some parent → relation (modes parent) (modes name) = true

namespace LinkedBy

variable {relation : Mode → Mode → Bool} {before after : Modes}

theorem empty (free : ∀ mode, relation mode .NL = true)
    (owner : TransactionId) : LinkedBy relation (Table.empty.modeOf owner) := by
  intro name parent _
  rw [Table.modeOf_empty, Table.modeOf_empty]
  exact free .NL

/-- A rule that asks nothing where no lock is held survives when the mode at one name changes and
some others are given up, as long as the new mode agrees with the parent and the children, and
nothing is left beneath what is given up. -/
theorem replace (linked : before.LinkedBy relation) (free : ∀ mode, relation mode .NL = true)
    (name : ResourceName)
    (others : ∀ other, other ≠ name → after other = before other ∨ after other = .NL)
    (upper : ∀ parent, name.parent? = some parent → relation (after parent) (after name) = true)
    (lower : ∀ child, child.parent? = some name → relation (after name) (after child) = true)
    (bare : ∀ parent, parent ≠ name → after parent ≠ before parent →
      ∀ child, child.parent? = some parent → after child = .NL) : after.LinkedBy relation := by
  intro child parent above
  by_cases isChild : child = name
  · subst isChild
    exact upper parent above
  by_cases isParent : parent = name
  · subst isParent
    exact lower child above
  by_cases kept : after parent = before parent
  · rcases others child isChild with same | none
    · rw [kept, same]
      exact linked child parent above
    · rw [none]
      exact free _
  · rw [bare parent isParent kept child above]
    exact free _

/-- The rule after a checked request has been granted: its mode has to agree with the parent and
with the children that are kept, and whatever is given up takes along all that is beneath. -/
theorem outcome (linked : before.LinkedBy relation) (free : ∀ mode, relation mode .NL = true)
    {request : Request} (checked : Checked before request)
    (upper : ∀ parent, request.lock.name.parent? = some parent →
      relation (before parent) request.lock.mode = true)
    (lower : ∀ child, child.parent? = some request.lock.name →
      child ∉ request.released.map Lock.name →
        relation request.lock.mode (before child) = true)
    (bare : ∀ parent ∈ request.released.map Lock.name, parent ≠ request.lock.name →
      ∀ child, child.parent? = some parent →
        child ∉ request.released.map Lock.name → before child = .NL) :
    LinkedBy relation (request.outcome before) := by
  have parentKept : ∀ parent, request.lock.name.parent? = some parent →
      parent ∉ request.released.map Lock.name :=
    fun parent above given => ResourceName.not_within_of_parent above (checked.within given)
  have notOwn : ∀ {name parent : ResourceName}, name.parent? = some parent → parent ≠ name :=
    fun above => (ResourceName.ne_of_isBeneath (ResourceName.isBeneath_parent above)).symm
  refine linked.replace free request.lock.name (fun other apart => ?_)
    (fun parent above => ?_) (fun child above => ?_) (fun parent apart changed child above => ?_)
  · by_cases given : other ∈ request.released.map Lock.name
    · exact Or.inr (Request.outcome_given apart given)
    · exact Or.inl (Request.outcome_kept apart given)
  · rw [Request.outcome_kept (notOwn above) (parentKept parent above), Request.outcome_own]
    exact upper parent above
  · rw [Request.outcome_own]
    by_cases given : child ∈ request.released.map Lock.name
    · rw [Request.outcome_given (notOwn above).symm given]
      exact free _
    · rw [Request.outcome_kept (notOwn above).symm given]
      exact lower child above given
  · have given : parent ∈ request.released.map Lock.name := by
      by_contra kept
      exact changed (Request.outcome_kept apart kept)
    have childApart : child ≠ request.lock.name := by
      rintro rfl
      exact parentKept parent above given
    by_cases childGiven : child ∈ request.released.map Lock.name
    · exact Request.outcome_given childApart childGiven
    · rw [Request.outcome_kept childApart childGiven]
      exact bare parent given apart child above childGiven

/-- Giving up a lock with none beneath it breaks no rule. -/
theorem drop (linked : before.LinkedBy relation) (free : ∀ mode, relation mode .NL = true)
    {name : ResourceName} (bare : before.Bare name) : LinkedBy relation (before.drop name) := by
  have dropped : before.drop name name = .NL := if_pos rfl
  have kept : ∀ other, other ≠ name → before.drop name other = before other :=
    fun other apart => if_neg apart
  refine linked.replace free name (fun other apart => Or.inl (kept other apart))
    (fun parent above => ?_) (fun child above => ?_)
    (fun parent apart changed => absurd (kept parent apart) changed)
  · rw [dropped]
    exact free _
  · have beneath := ResourceName.isBeneath_parent above
    rw [kept child (ResourceName.ne_of_isBeneath beneath), bare child beneath]
    exact free _

end LinkedBy

end Modes

end Granularity
