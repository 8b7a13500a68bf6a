import Granularity.Proofs.Contexts.Moves
import Granularity.Proofs.Contexts.Steps
import Granularity.Proofs.Histories.Actions
import Granularity.Proofs.Histories.Replay

/-!
What is refused leaves no trace.

An operation on a context makes its checks, may make a remark, and hands a call to the table, which
makes checks of its own.  In a sound table the second checks never fail after the first have passed;
so a refusal comes before anything has been done, and it leaves not even a remark.  Everything else
is seen: a call that passes is the next event.
-/

namespace Granularity

namespace Table

variable {table : Table} {owner : TransactionId}

/-- Locks are found on names on which the transaction has some. -/
theorem exists_locksOn : ∀ {names : List ResourceName},
    (∀ name ∈ names, name ∈ (table.locksOf owner).map Lock.name) →
      ∃ locks, table.locksOn owner names = .ok locks
  | [], _ => ⟨[], rfl⟩
  | name :: names, held => by
      obtain ⟨locks, others⟩ := exists_locksOn fun other member =>
        held other (List.mem_cons_of_mem name member)
      have first := held name List.mem_cons_self
      cases found : table.lockOf? owner name with
      | none => exact absurd first ((find?_key_eq_none Lock.name).mp found)
      | some lock => exact ⟨lock :: locks, by rw [locksOn, found, others]; rfl⟩

/-- A call that poses a request passes its checks. -/
theorem Poses.passes {call : Call} {request : Request} {side : QueueEnd}
    (poses : table.Poses owner call request side) : ∃ done, table.call owner call = .ok done := by
  cases poses with
  | acquire free locked =>
      simp only [Table.call, Table.acquire, free, locked, ne_eq, not_true_eq_false, if_false]
      split
      · exact ⟨_, rfl⟩
      · exact ⟨_, rfl⟩
  | promote held raised covered =>
      simp only [Table.call, Table.promote, held, raised, covered, not_true_eq_false, if_false]
      split
      · exact ⟨_, rfl⟩
      · exact ⟨_, rfl⟩
  | @exchange name mode released locks listed held locked =>
      have found : ¬(table.modeOf owner name ≠ .NL ∧ name ∉ released.eraseDups) := fun both =>
        both.2 (List.mem_eraseDups.mpr (listed both.1))
      simp only [Table.call, Table.exchange, found, held, locked, if_false]
      split
      · exact ⟨_, rfl⟩
      · exact ⟨_, rfl⟩

/-- A transaction can release what it holds. -/
theorem release_passes {name : ResourceName} (held : table.modeOf owner name ≠ .NL) :
    ∃ done, table.call owner (.release name) = .ok done := by
  rw [Table.call, Table.release, if_neg held]
  cases removed : table.remove owner name with
  | none =>
      rw [remove_eq_none] at removed
      rw [modeOf_eq_entry, Entry.modeOf_eq, removed] at held
      exact absurd rfl held
  | some both => exact ⟨_, rfl⟩

namespace Sound

variable (sound : table.Sound)
include sound

/-- A transaction can exchange its lock on a name together with any of its other locks. -/
theorem exchange_passes {name : ResourceName} {mode : Mode} {released : List ResourceName}
    (locked : mode ≠ .NL) (listed : name ∈ released)
    (held : ∀ other ∈ released, table.modeOf owner other ≠ .NL) :
    ∃ done, table.call owner (.exchange name mode released) = .ok done := by
  have listedHeld : ∀ other ∈ released.eraseDups, other ∈ (table.locksOf owner).map Lock.name :=
    fun other member => sound.modeOf_ne_NL_iff.mp (held other (List.mem_eraseDups.mp member))
  obtain ⟨locks, found⟩ := exists_locksOn listedHeld
  exact (Poses.exchange (fun _ => listed) found locked).passes

end Sound

end Table

namespace Context

variable {context : Context} {store : Store} {owner : TransactionId} {remark : Option Remark}
  {call : Call}

/-- A promotion that is decided passes the checks of the table. -/
theorem promote_passes (sound : store.table.Sound) {mode : Mode}
    (decided : context.promote store owner mode = .ok (.make remark call)) :
    ∃ done, store.table.call owner call = .ok done := by
  obtain ⟨_, held, raised, covered, _, _, move⟩ := promote_eq_ok.mp decided
  by_cases six : mode = .SIX
  · rw [promotion, if_pos six, Move.make.injEq] at move
    rw [← move.2]
    have listed := List.mem_append_right (context.readersBeneath store.table owner)
      (List.mem_singleton_self context.name)
    refine sound.exchange_passes (by decide) listed ?_
    intro other member
    rcases List.mem_append.mp member with reader | own
    · rcases ((mem_readersBeneath sound).mp reader).2 with reads | reads
      · simp [reads]
      · simp [reads]
    · rw [List.mem_singleton.mp own]
      exact held
  · rw [promotion, if_neg six, Move.make.injEq] at move
    rw [← move.2]
    exact (Table.Poses.promote held raised covered).passes

theorem escalationTarget_ne_NL (held : Mode) (beneath : List Lock) :
    escalationTarget held beneath ≠ .NL := by
  rw [escalationTarget]
  split
  · decide
  · decide

/-- So does an escalation. -/
theorem escalate_passes (sound : store.table.Sound)
    (decided : context.escalate store owner = .ok (.make remark call)) :
    ∃ done, store.table.call owner call = .ok done := by
  obtain ⟨_, _, move⟩ := escalate_eq_ok.mp decided
  split at move
  · next intent =>
      rw [Move.make.injEq] at move
      rw [← move.2]
      refine sound.exchange_passes (escalationTarget_ne_NL _ _) List.mem_cons_self ?_
      intro other member
      rcases List.mem_cons.mp member with rfl | beneath
      · exact Mode.ne_NL_of_isIntent intent
      · exact (sound.mem_names_locksBeneath.mp beneath).2
  · cases move

end Context

/-- What an operation on a context comes down to passes the checks of the table. -/
theorem Operation.passes_of_decide {operation : Operation} {store : Store} {owner : TransactionId}
    {remark : Option Remark} {call : Call} (sound : store.table.Sound)
    (decided : operation.decide store owner = .ok (.make remark call)) :
    (operation = .direct call ∧ remark = none) ∨
      ∃ done, store.table.call owner call = .ok done := by
  cases operation with
  | direct made =>
      cases decided
      exact Or.inl ⟨rfl, rfl⟩
  | acquire context mode =>
      obtain ⟨_, free, locked, _, move⟩ := Context.acquire_eq_ok.mp decided
      cases move
      exact Or.inr (Table.Poses.acquire free locked).passes
  | release context =>
      obtain ⟨_, held, _, move⟩ := Context.release_eq_ok.mp decided
      cases move
      exact Or.inr (Table.release_passes held)
  | promote context mode => exact Or.inr (Context.promote_passes sound decided)
  | escalate context => exact Or.inr (Context.escalate_passes sound decided)

namespace System

variable {system : System} {owner : TransactionId} {operation : Operation}

/-- A refused operation leaves the manager as it was, its journal included. -/
theorem perform_of_refused (sound : system.store.table.Sound) {refusal : Refusal}
    (refused : (system.perform owner operation).1 = .refused refusal) :
    (system.perform owner operation).2 = system := by
  rw [perform] at refused ⊢
  cases decided : operation.decide system.store owner with
  | error => rfl
  | ok move =>
      cases move with
      | stay => rfl
      | make remark call =>
          simp only [decided] at refused ⊢
          rcases Operation.passes_of_decide sound decided with ⟨_, rfl⟩ | ⟨done, passed⟩
          · simp only [Option.toList_none, List.map_nil, note_nil] at refused ⊢
            cases answer : system.store.table.call owner call with
            | error => rw [carryOut_of_refused answer]
            | ok done => exact absurd refused (carryOut_not_refused answer refusal)
          · let noted := system.note (remark.toList.map Notice.remark)
            have passed : noted.store.table.call owner call = .ok done := passed
            exact absurd refused (carryOut_not_refused passed refusal)

theorem events_note_remarks (system : System) (remarks : List Remark) :
    Notice.events (system.note (remarks.map Notice.remark)).journal =
      Notice.events system.journal := by
  have silent : Notice.events (remarks.map Notice.remark) = [] := by
    rw [Notice.events, List.filterMap_map, List.filterMap_eq_nil_iff]
    exact fun _ _ => rfl
  rw [note, events_append, silent, List.append_nil]

/-- An operation leaves no event just when it is refused or there is nothing to do. -/
theorem events_perform_eq_iff :
    Notice.events (system.perform owner operation).2.journal = Notice.events system.journal ↔
      (∃ refusal, (system.perform owner operation).1 = .refused refusal) ∨
        operation.decide system.store owner = .ok .stay := by
  cases decided : operation.decide system.store owner with
  | error refusal =>
      simp [perform, decided]
  | ok move =>
      cases move with
      | stay => simp [perform, decided]
      | make remark call =>
          let noted := system.note (remark.toList.map Notice.remark)
          have events : Notice.events noted.journal = Notice.events system.journal :=
            events_note_remarks system remark.toList
          rw [perform_of_make decided]
          cases answer : noted.store.table.call owner call with
          | error refusal =>
              rw [carryOut_of_refused answer]
              simp [events]
          | ok done =>
              rw [journal_carryOut answer, events_append, events, Table.events_call answer]
              have passes := carryOut_not_refused answer
              refine iff_of_false (by simp) ?_
              intro idle
              rcases idle with ⟨refusal, refused⟩ | stays
              · exact passes refusal refused
              · cases stays

/-- What is refused changes nothing, whatever has been done before.  A refused operation, on the
table or on a context, leaves the whole manager as it was: the table with its queues, lists and
counts, the contexts, the flags, and the journal; every operation that is not refused and finds
something to do is the next event.  A look-up that is refused leaves the contexts as they were, even
if it is taken step by step. -/
theorem refused_changes_nothing_afterActions (config : Config)
    (handles : Std.ExtTreeMap TransactionId Handle) (actions : List Action) :
    let system := (opened config handles).afterActions actions
    (∀ owner operation refusal, (system.perform owner operation).1 = .refused refusal →
      (system.perform owner operation).2 = system) ∧
    (∀ owner operation,
      Notice.events (system.perform owner operation).2.journal = Notice.events system.journal ↔
        (∃ refusal, (system.perform owner operation).1 = .refused refusal) ∨
          operation.decide system.store owner = .ok .stay) ∧
    ∀ wanted : LookUp, ∀ refusal,
      let looked := (wanted.steps system.store.config).on system.store.contexts
      looked.1 = .error refusal → looked.2 = system.store.contexts := by
  intro system
  have sound : system.store.table.Sound := sound_afterActions config handles actions
  exact ⟨fun _ _ _ refused => perform_of_refused sound refused, fun _ _ => events_perform_eq_iff,
    fun _ _ refused => LookUp.steps_refused refused⟩

end System

end Granularity
