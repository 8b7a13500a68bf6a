import Granularity.Proofs.Calls
import Granularity.Proofs.Contexts.LookUp
import Granularity.Proofs.Contexts.Tidy

/-!
Rights, held and in force.

A transaction may read a name if it is granted `S`, `SIX` or `X` on the name or anywhere above it,
and write it if it is granted `X` there.  The mode in force is found otherwise: the nearest lock on
the way up decides, and an `IX` looks for a `SIX` further up.  Whatever the table, no mode in force
promises a right that the transaction does not have.  The other way round the rule of the hierarchy
is needed, since a weak lock beneath a strong one hides it.
-/

namespace Granularity

theorem Mode.covers_S_iff {mode : Mode} : covers mode S = true ↔ mode ∈ [S, SIX, X] := by
  cases mode <;> decide

namespace Modes

/-- One of some modes is held on the name or above it. -/
def HeldOver (modes : Modes) (kinds : List Mode) (name : ResourceName) : Prop :=
  ∃ upper ∈ name :: name.ancestors, modes upper ∈ kinds

variable {modes : Modes} {kinds : List Mode}

theorem heldOver_root {segment : String} :
    modes.HeldOver kinds ⟨segment, []⟩ ↔ modes ⟨segment, []⟩ ∈ kinds := by
  simp [HeldOver]

/-- What is held over a child is held on the child, or over its parent. -/
theorem heldOver_child {parent : ResourceName} {segment : String} :
    modes.HeldOver kinds (parent.child segment) ↔
      modes (parent.child segment) ∈ kinds ∨ modes.HeldOver kinds parent := by
  rw [HeldOver, ResourceName.ancestors_child, List.exists_mem_cons_iff]
  exact Iff.rfl

end Modes

namespace Table

variable {table : Table} {owner : TransactionId} {name : ResourceName}

/-- The transaction is granted a mode that reads the whole subtree, on the name or above it. -/
def MayRead (table : Table) (owner : TransactionId) (name : ResourceName) : Prop :=
  ∃ upper ∈ name :: name.ancestors, ∃ mode ∈ [Mode.S, .SIX, .X], table.Grants owner upper mode

/-- The transaction is granted `X` on the name or above it. -/
def MayWrite (table : Table) (owner : TransactionId) (name : ResourceName) : Prop :=
  ∃ upper ∈ name :: name.ancestors, table.Grants owner upper .X

/-! ### What is in force is held -/

/-- A mode that is handed down and reads comes from one that reads, or from a `SIX` above. -/
theorem reads_of_handedDown {upper : Mode}
    (reads : Mode.covers (table.handedDown owner name upper) .S = true) :
    Mode.covers upper .S = true ∨ table.hasSIXAbove owner name = true := by
  cases upper with
  | NL | IS => cases reads
  | S | SIX | X => exact Or.inl rfl
  | IX =>
      rw [handedDown] at reads
      split at reads
      · next six => exact Or.inr six
      · cases reads

/-- A mode that reads hands down one that reads. -/
theorem reads_handedDown {upper : Mode} (reads : Mode.covers upper .S = true) :
    Mode.covers (table.handedDown owner name upper) .S = true := by
  cases upper with
  | NL | IS | IX => cases reads
  | S | SIX | X => rfl

/-- A mode in force that reads is held there or above, or handed down from a `SIX`. -/
theorem Sound.heldOver_of_reads (sound : table.Sound)
    (reads : Mode.covers (table.effectiveOn owner (name :: name.ancestors)) .S = true) :
    Modes.HeldOver (table.modeOf owner) [.S, .SIX, .X] name := by
  induction name using ResourceName.induction_child with
  | root segment =>
      by_cases free : table.modeOf owner ⟨segment, []⟩ = .NL
      · rw [effectiveOn_of_free free] at reads
        cases reads
      · rw [effectiveOn_of_held free] at reads
        exact Modes.heldOver_root.mpr (Mode.covers_S_iff.mp reads)
  | child parent segment inductionHypothesis =>
      rw [Modes.heldOver_child]
      by_cases free : table.modeOf owner (parent.child segment) = .NL
      · right
        rw [effectiveOn_of_free free, ResourceName.ancestors_child] at reads
        rcases reads_of_handedDown reads with parentReads | six
        · exact inductionHypothesis parentReads
        · obtain ⟨upper, beneath, held⟩ := sound.hasSIXAbove_iff.mp six
          rw [← ResourceName.mem_ancestors, ResourceName.ancestors_child] at beneath
          exact ⟨upper, beneath, by simp [held]⟩
      · rw [effectiveOn_of_held free] at reads
        exact Or.inl (Mode.covers_S_iff.mp reads)

/-! ### What is held is in force -/

section

variable (admitted : Modes.LinkedBy Mode.admits (table.modeOf owner))
include admitted

/-- Beneath a mode in force that reads, a lock is held only beneath a `SIX`. -/
theorem six_of_reads {parent : ResourceName} {segment : String}
    (reads : Mode.covers (table.effectiveOn owner (parent :: parent.ancestors)) .S = true)
    (held : table.modeOf owner (parent.child segment) ≠ .NL) :
    table.modeOf owner parent = .SIX := by
  have admits := admitted _ parent (ResourceName.parent?_child parent segment)
  have parentHeld : table.modeOf owner parent ≠ .NL := by
    intro free
    rw [free] at admits
    exact held (Mode.eq_NL_of_NL_admits admits)
  rw [effectiveOn_of_held parentHeld, Mode.covers_S_iff] at reads
  by_contra notSIX
  have whole : table.modeOf owner parent = .S ∨ table.modeOf owner parent = .X := by
    simpa [notSIX] using reads
  exact held (Mode.eq_NL_of_admits whole admits)

/-- An `X` held on a name or above it is in force there. -/
theorem effectiveOn_eq_X_of_heldOver
    (writes : Modes.HeldOver (table.modeOf owner) [.X] name) :
    table.effectiveOn owner (name :: name.ancestors) = .X := by
  induction name using ResourceName.induction_child with
  | root segment =>
      have held := List.mem_singleton.mp (Modes.heldOver_root.mp writes)
      rw [effectiveOn_of_held (by simp [held]), held]
  | child parent segment inductionHypothesis =>
      rcases Modes.heldOver_child.mp writes with own | above
      · have held := List.mem_singleton.mp own
        rw [effectiveOn_of_held (by simp [held]), held]
      · have upper := inductionHypothesis above
        have free : table.modeOf owner (parent.child segment) = .NL := by
          by_contra held
          have six := six_of_reads admitted (by rw [upper]; rfl) held
          rw [effectiveOn_of_held (by simp [six]), six] at upper
          cases upper
        rw [effectiveOn_of_free free, ResourceName.ancestors_child, upper]
        rfl

/-- Where `S`, `SIX` or `X` is held on a name or above it, the mode in force reads, or there is a
`SIX` above. -/
theorem Sound.reads_of_heldOver (sound : table.Sound)
    (reads : Modes.HeldOver (table.modeOf owner) [.S, .SIX, .X] name) :
    Mode.covers (table.effectiveOn owner (name :: name.ancestors)) .S = true ∨
      table.hasSIXAbove owner name = true := by
  have own : ∀ {name : ResourceName}, table.modeOf owner name ∈ [.S, .SIX, .X] →
      Mode.covers (table.effectiveOn owner (name :: name.ancestors)) .S = true := by
    intro name kind
    have held : table.modeOf owner name ≠ .NL := fun free => by simp [free] at kind
    rw [effectiveOn_of_held held]
    exact Mode.covers_S_iff.mpr kind
  induction name using ResourceName.induction_child with
  | root segment => exact Or.inl (own (Modes.heldOver_root.mp reads))
  | child parent segment inductionHypothesis =>
      have sixAbove : ∀ upper, upper = parent ∨ parent.isBeneath upper = true →
          table.modeOf owner upper = .SIX →
          table.hasSIXAbove owner (parent.child segment) = true :=
        fun upper within six =>
          sound.hasSIXAbove_iff.mpr ⟨upper, ResourceName.isBeneath_child.mpr within, six⟩
      rcases Modes.heldOver_child.mp reads with kind | above
      · exact Or.inl (own kind)
      · rcases inductionHypothesis above with parentReads | six
        · by_cases free : table.modeOf owner (parent.child segment) = .NL
          · left
            rw [effectiveOn_of_free free, ResourceName.ancestors_child]
            exact reads_handedDown parentReads
          · exact Or.inr (sixAbove parent (Or.inl rfl) (six_of_reads admitted parentReads free))
        · obtain ⟨upper, beneath, held⟩ := sound.hasSIXAbove_iff.mp six
          exact Or.inr (sixAbove upper (Or.inr beneath) held)

end

/-! ### Rights -/

namespace Sound

variable (sound : table.Sound)
include sound

theorem mayRead_iff :
    table.MayRead owner name ↔ Modes.HeldOver (table.modeOf owner) [.S, .SIX, .X] name := by
  refine exists_congr fun upper => and_congr_right fun _ => ?_
  constructor
  · rintro ⟨mode, kind, granted⟩
    have locked : mode ≠ .NL := by
      rintro rfl
      simp at kind
    rw [(sound.grants_iff locked).mp granted]
    exact kind
  · intro kind
    have locked : table.modeOf owner upper ≠ .NL := fun free => by simp [free] at kind
    exact ⟨_, kind, (sound.grants_iff locked).mpr rfl⟩

theorem mayWrite_iff :
    table.MayWrite owner name ↔ Modes.HeldOver (table.modeOf owner) [.X] name := by
  refine exists_congr fun upper => and_congr_right fun _ => ?_
  rw [sound.grants_iff (by decide), List.mem_singleton]

/-- If every granted mode is admitted by the mode held on the parent, the rule of the hierarchy
holds of the transaction's modes. -/
theorem admitted_of_grants
    (rule : ∀ name parent mode, name.parent? = some parent → table.Grants owner name mode →
      Mode.admits (table.modeOf owner parent) mode = true) :
    Modes.LinkedBy Mode.admits (table.modeOf owner) := by
  intro name parent above
  by_cases free : table.modeOf owner name = .NL
  · rw [free]
    exact Mode.admits_NL _
  · exact rule name parent _ above ((sound.grants_iff free).mpr rfl)

end Sound

end Table

namespace System

/-- The mode in force tells the rights of a transaction.  Take any table that calls have made, of
whomever, any context that look-ups have found, and any transaction.  If the mode in force covers
`S`, the transaction is granted `S`, `SIX` or `X` on the name or above it; if it is `X`, it is granted
`X` there.  If moreover each of its locks is admitted by the mode that it holds on the parent, then
an `X` on the name or above it is in force, and wherever `S`, `SIX` or `X` is granted on the name or
above it, the mode in force covers `S` or there is a `SIX` above. -/
theorem effectiveMode_tells_rights_afterCalls (config : Config)
    (handles : Std.ExtTreeMap TransactionId Handle) (calls : List (TransactionId × Call)) :
    let table := ((opened config handles).afterCalls calls).store.table
    ∀ (tree : ContextTree) (context : Context) (owner : TransactionId),
      tree.Explored config → tree.Knows context →
      let inForce := context.effectiveMode table owner
      (Mode.covers inForce .S = true → table.MayRead owner context.name) ∧
      (inForce = .X → table.MayWrite owner context.name) ∧
      ((∀ name parent mode, name.parent? = some parent → table.Grants owner name mode →
          Mode.admits (table.modeOf owner parent) mode = true) →
        (table.MayWrite owner context.name → inForce = .X) ∧
        (table.MayRead owner context.name →
          Mode.covers inForce .S = true ∨ context.hasSIXAbove table owner = true)) := by
  intro table tree context owner explored known inForce
  have sound : table.Sound := sound_afterCalls config handles calls
  have aligned : context.above.map Place.name = context.name.ancestors :=
    explored.sound.aligned known
  have found : inForce = table.effectiveOn owner (context.name :: context.name.ancestors) := by
    rw [← aligned]
    rfl
  rw [found, sound.mayRead_iff, sound.mayWrite_iff]
  refine ⟨sound.heldOver_of_reads, ?_, ?_⟩
  · intro writes
    obtain ⟨upper, within, held⟩ := Table.exists_X_of_effectiveOn writes
    rw [← ResourceName.mem_ancestors, ← List.mem_cons] at within
    exact ⟨upper, within, List.mem_singleton.mpr held⟩
  · intro rule
    have admitted := sound.admitted_of_grants rule
    exact ⟨Table.effectiveOn_eq_X_of_heldOver admitted, sound.reads_of_heldOver admitted⟩

/-- A transaction reads a database, and means to write in one of its tables. -/
def readsDatabase : List (TransactionId × Call) :=
  [(1, .acquire ⟨"database", []⟩ .SIX), (1, .acquire ⟨"database", ["T1"]⟩ .IX)]

/-- On a page of the table the transaction may read and not write. -/
theorem page_read_beneath_SIX :
    let table := ((opened {} ∅).afterCalls readsDatabase).store.table
    ∃ context tree, (LookUp.spelled "database/T1/1").resolve .empty {} = .ok (context, tree) ∧
      context.effectiveMode table 1 = .S ∧
      table.MayRead 1 context.name ∧ ¬table.MayWrite 1 context.name := by
  intro table
  have inForce : (((LookUp.spelled "database/T1/1").resolve .empty {}).toOption.map
      fun found => found.1.effectiveMode table 1) = some .S := by decide +kernel
  have checked : ((table.locksOf 1).all fun lock => lock.name.parent?.all fun parent =>
      Mode.admits (table.modeOf 1 parent) lock.mode) = true := by decide +kernel
  cases ok : (LookUp.spelled "database/T1/1").resolve .empty {} with
  | error refusal =>
      rw [ok] at inForce
      cases inForce
  | ok found =>
      obtain ⟨context, tree⟩ := found
      rw [ok] at inForce
      have reads : context.effectiveMode table 1 = .S := Option.some.inj inForce
      have start : ∀ context ∈ (LookUp.spelled "database/T1/1").start?,
          ContextTree.empty.Knows context := by simp [LookUp.start?]
      have explored : tree.Explored {} := .lookUp .empty start ok
      have known : tree.Knows context := (LookUp.finds .empty start ok).knows
      obtain ⟨mayRead, _, rights⟩ :=
        effectiveMode_tells_rights_afterCalls {} ∅ readsDatabase tree context 1 explored known
      have rule : ∀ name parent mode, name.parent? = some parent → table.Grants 1 name mode →
          Mode.admits (table.modeOf 1 parent) mode = true := by
        intro name parent mode above granted
        have listed : ⟨name, mode, 1⟩ ∈ table.locksOf 1 :=
          ((sound_afterCalls {} ∅ readsDatabase).mirrored.mem_iff _ _).mpr ⟨granted, rfl⟩
        have admits := List.all_eq_true.mp checked _ listed
        rw [above] at admits
        exact admits
      refine ⟨context, tree, rfl, reads, mayRead (by rw [reads]; rfl), fun mayWrite => ?_⟩
      have writes := (rights rule).1 mayWrite
      rw [reads] at writes
      cases writes

end System

end Granularity
