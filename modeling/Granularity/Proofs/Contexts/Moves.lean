import Granularity.Context.Operation
import Granularity.Proofs.Contexts.Tree
import Granularity.Proofs.Table.Sound

/-!
What the operations on a context demand, and which locks they reach.

An operation goes through exactly when all of its checks pass, and the call that it comes down to is
then determined.  The checks see the hierarchy through the names above the context; a mode that is
merely handed down from above admits nothing, so what a parent admits it admits by the mode that is
held on it.
-/

namespace Granularity

/-! ### Checks -/

section

variable {α β : Type}

theorem throw_bind (refusal : Refusal) (next : α → Except Refusal β) :
    (throw refusal >>= next) = .error refusal := rfl

theorem check_bind_eq_ok {check : Except Refusal Unit} {next : Unit → Except Refusal α}
    {result : α} : check >>= next = .ok result ↔ check = .ok () ∧ next () = .ok result := by
  cases check with
  | error refusal => simp [bind, Except.bind]
  | ok => simp [bind, Except.bind]

theorem guard_eq_ok {wrong : Prop} [Decidable wrong] {refusal : Refusal}
    {next : Except Refusal α} {result : α} :
    (if wrong then .error refusal else next) = .ok result ↔ ¬wrong ∧ next = .ok result := by
  by_cases refused : wrong
  · simp [refused]
  · simp [refused]

end

namespace Context

variable {context : Context} {store : Store} {owner : TransactionId} {mode : Mode} {move : Move}

/-- A context takes locks exactly when it is not read-only and the locks on the children of its
parent have not been stopped. -/
theorem checkWritable_iff {contexts : ContextTree} :
    context.checkWritable contexts = .ok () ↔ context.place.readOnly = false ∧
      ∀ parent ∈ context.parent?, contexts.childLocksDisabled parent.place.id = false := by
  obtain ⟨place, above⟩ := context
  cases above with
  | nil => cases readOnly : place.readOnly <;> simp [checkWritable, parent?, readOnly]
  | cons parent above =>
      cases readOnly : place.readOnly <;>
        cases stopped : contexts.childLocksDisabled parent.id <;>
          simp [checkWritable, parent?, readOnly, stopped]

theorem acquire_eq_ok :
    context.acquire store owner mode = .ok move ↔
      context.checkWritable store.contexts = .ok () ∧
        context.explicitMode store.table owner = .NL ∧ mode ≠ .NL ∧
        context.checkAdmitted store.table owner mode = .ok () ∧
        .make none (.acquire context.name mode) = move := by
  simp only [acquire, throw_bind, check_bind_eq_ok, guard_eq_ok, pure, Except.pure,
    Except.ok.injEq, ne_eq, not_not]

theorem release_eq_ok :
    context.release store owner = .ok move ↔
      context.checkWritable store.contexts = .ok () ∧
        context.explicitMode store.table owner ≠ .NL ∧
        store.table.countBeneath context.name owner = 0 ∧
        .make none (.release context.name) = move := by
  simp only [release, throw_bind, check_bind_eq_ok, guard_eq_ok, pure, Except.pure,
    Except.ok.injEq, ne_eq, not_not]

/-- The move of a promotion that has passed its checks. -/
def promotion (context : Context) (table : Table) (owner : TransactionId) (mode : Mode) : Move :=
  if mode = .SIX then
    let readers := context.readersBeneath table owner
    .make (some (.promotingToSIX context.name owner readers.length))
      (.exchange context.name .SIX (readers ++ [context.name]))
  else .make none (.promote context.name mode)

theorem promote_eq_ok :
    context.promote store owner mode = .ok move ↔
      context.checkWritable store.contexts = .ok () ∧
        context.explicitMode store.table owner ≠ .NL ∧
        context.explicitMode store.table owner ≠ mode ∧
        Mode.covers mode (context.explicitMode store.table owner) = true ∧
        context.checkAdmitted store.table owner mode = .ok () ∧
        (mode = .SIX → context.hasSIXAbove store.table owner = false) ∧
        context.promotion store.table owner mode = move := by
  simp only [promote, throw_bind, check_bind_eq_ok, guard_eq_ok, pure, Except.pure, ne_eq, not_not]
  by_cases six : mode = .SIX
  · simp only [six, not_true_eq_false, if_false, guard_eq_ok, Bool.not_eq_true, forall_const,
      promotion, if_true, Except.ok.injEq]
  · simp only [six, not_false_eq_true, if_true, promotion, if_false, Except.ok.injEq,
      false_implies, true_and]

theorem escalate_eq_ok :
    context.escalate store owner = .ok move ↔
      context.checkWritable store.contexts = .ok () ∧
        context.effectiveMode store.table owner ≠ .NL ∧
        (if (context.explicitMode store.table owner).isIntent then
          let held := context.explicitMode store.table owner
          let beneath := store.table.locksBeneath owner context.name
          let target := escalationTarget held beneath
          .make (some (.escalating context.name held target owner))
            (.exchange context.name target (context.name :: beneath.map Lock.name))
        else .stay) = move := by
  simp only [escalate, throw_bind, check_bind_eq_ok, guard_eq_ok, pure, Except.pure, ne_eq]
  by_cases intent : (context.explicitMode store.table owner).isIntent = true
  · simp only [intent, not_true_eq_false, if_false, if_true, Except.ok.injEq]
  · simp only [intent, not_false_eq_true, if_true, Bool.false_eq_true, if_false, Except.ok.injEq]

/-! ### The context above -/

/-- The place next above an aligned context carries the parent of its name, and is aligned too. -/
theorem Aligned.above {place upper : Place} {above : List Place}
    (aligned : Aligned ⟨place, upper :: above⟩) :
    place.name.parent? = some upper.name ∧ Aligned ⟨upper, above⟩ := by
  have names : upper.name :: above.map Place.name = place.name.ancestors := aligned
  cases parent : place.name.parent? with
  | none =>
      rw [ResourceName.ancestors_of_top parent] at names
      cases names
  | some name =>
      rw [ResourceName.ancestors_of_parent parent, List.cons.injEq] at names
      obtain ⟨rfl, rest⟩ := names
      exact ⟨rfl, rest⟩

end Context

namespace ContextTree

variable {tree : ContextTree} {context : Context}

theorem Sound.knows_parent (sound : tree.Sound) (known : tree.Knows context) {parent : Context}
    (above : context.parent? = some parent) :
    tree.Knows parent ∧ context.name.parent? = some parent.name := by
  obtain ⟨place, places⟩ := context
  cases places with
  | nil => cases above
  | cons upper places =>
      cases above
      exact ⟨sound.knows_above known, (sound.aligned known).above.1⟩

/-- A context beneath a name has a parent, which has the name or lies beneath it too. -/
theorem Sound.exists_parent (sound : tree.Sound) (known : tree.Knows context) {upper : ResourceName}
    (beneath : context.name.isBeneath upper = true) :
    ∃ parent, context.parent? = some parent ∧ tree.Knows parent ∧
      (upper = parent.name ∨ parent.name.isBeneath upper = true) := by
  obtain ⟨name, parentName, within⟩ := ResourceName.isBeneath_iff_parent.mp beneath
  cases above : context.parent? with
  | none =>
      have aligned := sound.aligned known
      obtain ⟨place, places⟩ := context
      cases places with
      | nil =>
          rw [Context.Aligned, ResourceName.ancestors_of_parent parentName] at aligned
          cases aligned
      | cons => cases above
  | some parent =>
      obtain ⟨parentKnown, same⟩ := sound.knows_parent known above
      rw [parentName, Option.some.injEq] at same
      exact ⟨parent, rfl, parentKnown, same ▸ within⟩

end ContextTree

namespace Table

variable {table : Table} {owner : TransactionId}

/-- A mode that is handed down admits nothing beneath. -/
theorem eq_NL_of_admits_handedDown {name : ResourceName} {above mode : Mode}
    (admitted : Mode.admits (table.handedDown owner name above) mode = true) : mode = .NL := by
  have admitsNothing : ∀ parent ∈ [Mode.NL, Mode.S, Mode.X], Mode.admits parent mode = true →
      mode = .NL := by
    cases mode <;> decide
  refine admitsNothing _ ?_ admitted
  cases above with
  | NL | IS | S | SIX | X => simp [handedDown]
  | IX =>
      rw [handedDown]
      split
      · simp
      · simp

/-- What the mode in force at a name admits, the mode held there admits. -/
theorem admits_modeOf {name : ResourceName} {above : List ResourceName} {mode : Mode}
    (locked : mode ≠ .NL)
    (admitted : Mode.admits (table.effectiveOn owner (name :: above)) mode = true) :
    Mode.admits (table.modeOf owner name) mode = true := by
  rw [effectiveOn] at admitted
  by_cases explicit : table.modeOf owner name ≠ .NL
  · simpa [explicit] using admitted
  · simp only [explicit, if_false] at admitted
    exact absurd (eq_NL_of_admits_handedDown admitted) locked

/-- The list of the locks beneath a name shows every mode held there. -/
theorem Sound.mem_locksBeneath_iff (sound : table.Sound) {name : ResourceName} {lock : Lock} :
    lock ∈ table.locksBeneath owner name ↔
      lock.owner = owner ∧ lock.mode ≠ .NL ∧ table.modeOf owner lock.name = lock.mode ∧
        lock.name.isBeneath name = true := by
  rw [locksBeneath, List.mem_filter, sound.mem_locksOf_iff]
  simp only [and_assoc]

theorem Sound.mem_names_locksBeneath (sound : table.Sound) {name other : ResourceName} :
    other ∈ (table.locksBeneath owner name).map Lock.name ↔
      other.isBeneath name = true ∧ table.modeOf owner other ≠ .NL := by
  simp only [List.mem_map, sound.mem_locksBeneath_iff]
  constructor
  · rintro ⟨lock, ⟨_, locked, held, beneath⟩, rfl⟩
    exact ⟨beneath, held ▸ locked⟩
  · rintro ⟨beneath, held⟩
    exact ⟨⟨other, table.modeOf owner other, owner⟩, ⟨rfl, held, rfl, beneath⟩, rfl⟩

/-- Where no lock is counted beneath a name, none is held. -/
theorem Sound.modeOf_of_countBeneath (sound : table.Sound) {name other : ResourceName}
    (nothing : table.countBeneath name owner = 0) (beneath : other.isBeneath name = true) :
    table.modeOf owner other = .NL := by
  by_contra held
  rw [sound.counted, List.countP_eq_zero] at nothing
  exact nothing other (sound.modeOf_ne_NL_iff.mp held) beneath

end Table

namespace Context

variable {context : Context} {table : Table} {owner : TransactionId}

/-- A mode that passes the check is admitted by the mode held on the parent of the name. -/
theorem Aligned.admitted (aligned : context.Aligned) {mode : Mode} (locked : mode ≠ .NL)
    (checked : context.checkAdmitted table owner mode = .ok ()) (parent : ResourceName)
    (upper : context.name.parent? = some parent) :
    Mode.admits (table.modeOf owner parent) mode = true := by
  obtain ⟨place, above⟩ := context
  cases above with
  | nil =>
      rw [Aligned, ResourceName.ancestors_of_parent upper] at aligned
      cases aligned
  | cons next above =>
      have same := aligned.above.1.symm.trans upper
      rw [Option.some.injEq] at same
      subst same
      rw [checkAdmitted, parent?] at checked
      by_cases passes :
          Mode.admits ((Context.mk next above).effectiveMode table owner) mode = true
      · exact Table.admits_modeOf locked passes
      · simp [passes] at checked

theorem mem_readersBeneath (sound : table.Sound) {other : ResourceName} :
    other ∈ context.readersBeneath table owner ↔
      other.isBeneath context.name = true ∧
        (table.modeOf owner other = .S ∨ table.modeOf owner other = .IS) := by
  simp only [readersBeneath, List.mem_map, List.mem_filter, sound.mem_locksBeneath_iff,
    Bool.or_eq_true, beq_iff_eq]
  constructor
  · rintro ⟨lock, ⟨⟨_, _, held, beneath⟩, reads⟩, rfl⟩
    exact ⟨beneath, held ▸ reads⟩
  · rintro ⟨beneath, reads⟩
    refine ⟨⟨other, table.modeOf owner other, owner⟩, ⟨⟨rfl, ?_, rfl, beneath⟩, reads⟩, rfl⟩
    rintro (none : table.modeOf owner other = .NL)
    simp [none] at reads

end Context

end Granularity
