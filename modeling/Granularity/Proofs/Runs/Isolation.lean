import Granularity.Proofs.Contexts.Sheltered
import Granularity.Proofs.Runs.Steady

/-!
Isolation across the levels of the hierarchy.

The table compares locks on one name only.  Since the locks of every transaction stay sheltered in a
run, a conflict between two names of a path would show as one on the upper of them, where the table
rules it out.
-/

namespace Granularity

namespace Table

variable {table : Table}

/-- While a transaction holds `X` on a name or above it, no other transaction holds a mode that
reads or writes the whole of a subtree, there or above. -/
def Isolated (table : Table) : Prop :=
  ∀ (name : ResourceName) (first second : TransactionId), first ≠ second →
    ∀ upper ∈ name :: name.ancestors, table.Grants first upper .X →
      ∀ other ∈ name :: name.ancestors, ∀ mode ∈ [Mode.S, .SIX, .X],
        ¬table.Grants second other mode

/-- The modes of different transactions on one name are compatible, none at all included. -/
theorem Sound.compatible_modeOf (sound : table.Sound) {first second : TransactionId}
    (apart : first ≠ second) (name : ResourceName) :
    Mode.compatible (table.modeOf first name) (table.modeOf second name) = true := by
  by_cases firstFree : table.modeOf first name = .NL
  · rw [firstFree]
    cases table.modeOf second name <;> rfl
  by_cases secondFree : table.modeOf second name = .NL
  · rw [secondFree]
    cases table.modeOf first name <;> rfl
  exact (sound.entries name).compatible _ ((sound.grants_iff firstFree).mpr rfl)
    _ ((sound.grants_iff secondFree).mpr rfl) apart

theorem Sound.isolated (sound : table.Sound)
    (sheltered : ∀ owner, Modes.Sheltered (table.modeOf owner)) : table.Isolated := by
  intro name first second apart upper upperAbove writes other otherAbove mode reads granted
  have locked : mode ≠ .NL := by
    rintro rfl
    simp at reads
  have firstHeld : table.modeOf first upper = .X := (sound.grants_iff (by decide)).mp writes
  have secondHeld : table.modeOf second other = mode := (sound.grants_iff locked).mp granted
  rcases ResourceName.comparable_of_above upperAbove otherAbove with rfl | beneath | beneath
  · have fits := sound.compatible_modeOf apart upper
    rw [firstHeld] at fits
    exact locked (secondHeld.symm.trans (Mode.eq_NL_of_compatible_X fits))
  · -- The first announces its writing on the upper name, which the second reads.
    have announced := (sheltered first).above beneath
    rw [firstHeld] at announced
    have fits := sound.compatible_modeOf apart other
    rw [secondHeld, Mode.compatible_eq_false_of_covers_IX announced reads] at fits
    cases fits
  · -- The second announces something on the upper name, all of which the first writes.
    have fits := sound.compatible_modeOf apart upper
    rw [firstHeld] at fits
    have free := (sheltered second).eq_NL_below beneath (Mode.eq_NL_of_compatible_X fits)
    exact locked (secondHeld.symm.trans free)

end Table

namespace Interleaving

theorem sheltered_run (config : Config) (handles : Std.ExtTreeMap TransactionId Handle)
    (turns : List Turn) (owner : TransactionId) :
    Modes.Sheltered (((opened config handles).run turns).table.modeOf owner) :=
  (Steady.opened config handles).modes_run (.empty Mode.shelters_NL owner)
    (fun _ _ change sheltered => sheltered.change change) turns

/-- Isolation across levels, in every state that transactions reach through contexts: while a
transaction holds `X` on a name or on an ancestor of it, no other transaction holds `S`, `SIX` or
`X` on the name or on any ancestor. -/
theorem isolated_run (config : Config) (handles : Std.ExtTreeMap TransactionId Handle)
    (turns : List Turn) : ((opened config handles).run turns).table.Isolated :=
  ((Steady.opened config handles).run turns).sound.isolated (sheltered_run config handles turns)

end Interleaving

end Granularity
