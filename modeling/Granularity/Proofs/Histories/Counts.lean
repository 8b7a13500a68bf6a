import Granularity.Proofs.Contexts.Moves
import Granularity.Proofs.Histories.Actions
import Granularity.Proofs.Table.Moments
import Mathlib.Data.Set.Card

/-!
Counts beneath a name, in every state and on the way.

The counts are kept at the names above a lock when it is placed and when it is taken off, and not
when it is replaced.  A count is lowered by a subtraction that stops at zero, which would hide a
count that has gone wrong.  It never does: the counts are exact also in the tables that a call
passes through, whatever queues it serves, so a lock is only taken off where it is counted at every
name above.
-/

namespace Granularity

namespace Table

/-! ### The number of locks beneath a name -/

/-- The locks of a transaction strictly beneath a name, as the resources have them. -/
def grantedBeneath (table : Table) (upper : ResourceName) (owner : TransactionId) : Set Lock :=
  { lock | (∃ name, lock ∈ (table.entry name).granted) ∧ lock.owner = owner ∧
    lock.name.isBeneath upper = true }

namespace Sound

variable {table : Table} (sound : table.Sound)
include sound

theorem mem_grantedBeneath {upper : ResourceName} {owner : TransactionId} {lock : Lock} :
    lock ∈ table.grantedBeneath upper owner ↔ lock ∈ table.locksBeneath owner upper := by
  rw [locksBeneath, List.mem_filter, sound.mirrored.mem_iff, and_assoc]
  constructor
  · rintro ⟨⟨name, granted⟩, owned, beneath⟩
    have named : lock.name = name := (sound.entries name).granted_named lock granted
    subst named
    exact ⟨granted, owned, beneath⟩
  · rintro ⟨granted, owned, beneath⟩
    exact ⟨⟨lock.name, granted⟩, owned, beneath⟩

theorem countBeneath_eq_length (upper : ResourceName) (owner : TransactionId) :
    table.countBeneath upper owner = (table.locksBeneath owner upper).length := by
  rw [sound.counted, List.countP_map, List.countP_eq_length_filter]
  rfl

/-- A count is the number of locks granted beneath the name. -/
theorem countBeneath_eq (upper : ResourceName) (owner : TransactionId) :
    table.countBeneath upper owner = (table.grantedBeneath upper owner).ncard := by
  have listed : table.grantedBeneath upper owner =
      ((table.locksBeneath owner upper).toFinset : Set Lock) := by
    ext lock
    rw [sound.mem_grantedBeneath, Finset.mem_coe, List.mem_toFinset]
  have nodup : (table.locksBeneath owner upper).Nodup := (sound.nodup_locksOf owner).filter _
  rw [listed, Set.ncard_coe_finset, List.toFinset_card_of_nodup nodup, sound.countBeneath_eq_length]

/-- A count is zero just where nothing is locked beneath. -/
theorem countBeneath_eq_zero {upper : ResourceName} {owner : TransactionId} :
    table.countBeneath upper owner = 0 ↔ ¬(table.grantedBeneath upper owner).Nonempty := by
  rw [sound.countBeneath_eq_length, List.length_eq_zero_iff, List.eq_nil_iff_forall_not_mem,
    Set.Nonempty, not_exists]
  exact forall_congr' fun lock => not_congr sound.mem_grantedBeneath.symm

/-- A lock that is taken off is counted at every name above. -/
theorem countBeneath_pos {owner : TransactionId} {name upper : ResourceName} {lock : Lock}
    {fewer : Table} (removed : table.remove owner name = some (lock, fewer))
    (beneath : name.isBeneath upper = true) : 0 < table.countBeneath upper owner := by
  obtain ⟨granted, owned⟩ := (sound.entries name).lockOf?_eq_some.mp (remove_eq_some removed).1
  have named : lock.name = name := (sound.entries name).granted_named lock granted
  rw [Nat.pos_iff_ne_zero, ne_eq, sound.countBeneath_eq_zero, not_not]
  exact ⟨lock, ⟨name, granted⟩, owned, named ▸ beneath⟩

end Sound

end Table

/-! ### Refusing to release over locks beneath -/

section

variable {α : Type} {refusal : Refusal}

theorem check_bind_eq_error {check : Except Refusal Unit} {next : Unit → Except Refusal α} :
    check >>= next = .error refusal ↔
      check = .error refusal ∨ check = .ok () ∧ next () = .error refusal := by
  cases check with
  | error other => simp [bind, Except.bind]
  | ok => simp [bind, Except.bind]

theorem guard_eq_error {wrong : Prop} [Decidable wrong] {cause : Refusal}
    {next : Except Refusal α} :
    (if wrong then .error cause else next) = .error refusal ↔
      wrong ∧ cause = refusal ∨ ¬wrong ∧ next = .error refusal := by
  by_cases refused : wrong
  · simp [refused]
  · simp [refused]

end

namespace Context

variable {context : Context} {store : Store} {owner : TransactionId} {count : Nat}

theorem checkWritable_ne_locksBeneath (context : Context) (contexts : ContextTree)
    (owner : TransactionId) (count : Nat) (name : ResourceName) :
    context.checkWritable contexts ≠ .error (.locksBeneath owner count name) := by
  rw [checkWritable]
  split
  · simp
  · split
    · simp
    · split
      · simp
      · simp

/-- The locks beneath are counted once the context is known to take locks and the lock there is
found. -/
theorem release_eq_locksBeneath :
    context.release store owner = .error (.locksBeneath owner count context.name) ↔
      context.checkWritable store.contexts = .ok () ∧
        context.explicitMode store.table owner ≠ .NL ∧
        store.table.countBeneath context.name owner ≠ 0 ∧
        store.table.countBeneath context.name owner = count := by
  simp only [release, throw_bind, check_bind_eq_error, guard_eq_error, pure, Except.pure,
    checkWritable_ne_locksBeneath, false_or, reduceCtorEq, and_false, or_false,
    Refusal.locksBeneath.injEq, true_and, and_true, ne_eq]

end Context

theorem Table.release_ne_locksBeneath (table : Table) (owner other : TransactionId)
    (name upper : ResourceName) (count : Nat) :
    table.release owner name ≠ .error (.locksBeneath other count upper) := by
  rw [Table.release]
  split
  · simp
  · split
    · simp
    · simp

namespace System

/-- Only the context itself refuses a release for the locks beneath; the table knows nothing of
hierarchies. -/
theorem perform_release_locksBeneath {system : System} {context : Context}
    {owner : TransactionId} {count : Nat} :
    (system.perform owner (.release context)).1 =
        .refused (.locksBeneath owner count context.name) ↔
      context.release system.store owner = .error (.locksBeneath owner count context.name) := by
  cases decided : context.release system.store owner with
  | error refusal =>
      have refused : (system.perform owner (.release context)).1 = .refused refusal := by
        rw [perform, Operation.decide, decided]
      rw [refused, Outcome.refused.injEq, Except.error.injEq]
  | ok move =>
      obtain ⟨_, _, _, rfl⟩ := Context.release_eq_ok.mp decided
      have carried : system.perform owner (.release context) =
          (system.note []).carryOut owner (.release context.name) := by
        rw [perform, Operation.decide, decided]
        rfl
      refine iff_of_false ?_ (by simp)
      rw [carried]
      cases answer : (system.note []).store.table.call owner (.release context.name) with
      | error refusal =>
          rw [carryOut_of_refused answer, Outcome.refused.injEq]
          intro same
          rw [same] at answer
          exact Table.release_ne_locksBeneath _ _ _ _ _ _ answer
      | ok done => exact carryOut_not_refused answer _

/-- The counts never drift, whatever has been done by whomever.  Each is the number of locks that
the transaction is granted strictly beneath the name.  A call takes a lock off only where the count
is above zero at every name above.  And the release of a context is refused for the locks beneath,
with their number, just when the context takes locks, the transaction holds one there, and it
holds others strictly beneath. -/
theorem counts_exact_afterActions (config : Config)
    (handles : Std.ExtTreeMap TransactionId Handle) (actions : List Action) :
    let system := (opened config handles).afterActions actions
    let table := system.store.table
    (∀ upper owner, table.countBeneath upper owner = (table.grantedBeneath upper owner).ncard) ∧
    (∀ owner call done, table.call owner call = .ok done →
      ∀ moment other name lock fewer, table.TakesAt owner call moment other name →
        moment.remove other name = some (lock, fewer) →
        ∀ upper ∈ name.ancestors, 0 < moment.countBeneath upper other) ∧
    (∀ context owner count,
      (system.perform owner (.release context)).1 =
          .refused (.locksBeneath owner count context.name) ↔
        context.checkWritable system.store.contexts = .ok () ∧
          context.explicitMode table owner ≠ .NL ∧
          (table.grantedBeneath context.name owner).Nonempty ∧
          (table.grantedBeneath context.name owner).ncard = count) := by
  intro system table
  have sound : table.Sound := sound_afterActions config handles actions
  refine ⟨sound.countBeneath_eq, ?_, ?_⟩
  · intro owner call done _ moment other name lock fewer takes removed upper above
    exact (sound.takesAt takes).countBeneath_pos removed (ResourceName.mem_ancestors.mp above)
  · intro context owner count
    rw [perform_release_locksBeneath, Context.release_eq_locksBeneath, ne_eq (Table.countBeneath ..),
      sound.countBeneath_eq_zero, not_not, sound.countBeneath_eq]

end System

end Granularity
