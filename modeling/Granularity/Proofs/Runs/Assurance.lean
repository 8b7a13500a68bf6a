import Granularity.Plan
import Granularity.Proofs.Contexts.Index
import Granularity.Proofs.Contexts.Tidy
import Granularity.Proofs.Histories.Patience
import Granularity.Proofs.Histories.Refusals

/-!
Plans that are assured of their goal.

While nobody waits and no context is read-only, what becomes of an operation depends only on the
modes that its owner holds, and so nothing that others do in the meantime can get in its way.
`Operation.Leads` says to which modes an operation leads from which, and `Plan.Assured` follows a
plan through its operations: none of them is refused, the plan never fails, and the modes at its end
meet a goal.
-/

namespace Granularity

/-! ### Tables where nobody waits -/

namespace Table

variable {table : Table} {owner : TransactionId} {call : Call} {done : Section}

/-- Nobody waits for anything. -/
def Quiet (table : Table) : Prop :=
  ∀ name, table.queueOf name = []

theorem quiet_iff :
    table.Quiet ↔ (table.entries.toList.all fun (_, entry) => entry.queue.isEmpty) = true := by
  simp only [List.all_eq_true, List.isEmpty_iff]
  constructor
  · intro quiet stored member
    have found := (Sparse.mem_toList.mp member).1
    rw [← found]
    exact quiet stored.1
  · intro empty name
    by_cases stored : table.entry name = default
    · rw [queueOf, stored]
      rfl
    · exact empty (name, table.entry name) (Sparse.mem_toList.mpr ⟨rfl, stored⟩)

instance (table : Table) : Decidable table.Quiet :=
  decidable_of_iff _ quiet_iff.symm

namespace Quiet

variable (quiet : table.Quiet)
include quiet

theorem not_waiting (owner : TransactionId) : ¬table.Waiting owner := by
  intro ⟨name, request, member, _⟩
  rw [quiet name] at member
  cases member

theorem eq_of_served {final : Table} {served : List Request} (chain : Served table served final) :
    final = table := by
  cases chain with
  | nobody => rfl
  | front queued =>
      rw [quiet] at queued
      cases queued

/-- A call that is not parked does its own part and nothing else. -/
theorem servesFrom (passed : table.call owner call = .ok done) (free : done.parked = false) :
    ∃ names, table.ServesFrom owner call done.table names := by
  obtain ⟨start, names, serves, left, _⟩ := servesFrom_of_not_parked passed free
  have startQuiet : start.Quiet := fun name => (queueOf_servesFrom serves name).trans (quiet name)
  rw [left, startQuiet.eq_of_served (served_drain start names)]
  exact ⟨names, serves⟩

end Quiet

/-- A call that is parked makes somebody wait. -/
theorem not_quiet_of_parked (passed : table.call owner call = .ok done)
    (waits : done.parked = true) : ¬done.table.Quiet := by
  intro quiet
  obtain ⟨request, side, _, left, _⟩ := enqueued_of_parked passed waits
  have member : request ∈ done.table.queueOf request.lock.name := by
    rw [left]
    exact mem_queueOf_enqueue.mpr (Or.inl ⟨rfl, rfl⟩)
  rw [quiet] at member
  cases member

end Table

/-! ### Operations that lead to other modes -/

/-- A state in which a transaction holds certain modes, nobody waits and no context is read-only. -/
structure Store.Ready (store : Store) (owner : TransactionId) (modes : Modes) : Prop where
  sound : store.table.Sound
  quiet : store.table.Quiet
  writable : store.contexts.Writable
  held : store.table.modeOf owner = modes

/-- From certain modes of its owner an operation leads to others, whatever else the state is: it
comes down to a call that passes its checks and has this outcome unless it has to wait. -/
def Operation.Leads (operation : Operation) (owner : TransactionId) (before after : Modes) : Prop :=
  ∀ store : Store, store.Ready owner before → ∃ remark call done,
    operation.decide store owner = .ok (.make remark call) ∧
      store.table.call owner call = .ok done ∧
      (done.parked = false → done.table.modeOf owner = after)

namespace Context

variable {context : Context} {owner : TransactionId}

/-- In a tree without read-only contexts, a context that is not read-only takes locks. -/
theorem checkWritable_eq_ok {contexts : ContextTree} (writable : contexts.Writable)
    (isOpen : context.place.readOnly = false) : context.checkWritable contexts = .ok () :=
  checkWritable_iff.mpr ⟨isOpen, fun parent _ => (writable.node parent.place.id).2⟩

/-- A mode passes the check if the mode held on the parent of the name admits it. -/
theorem Aligned.checkAdmitted_eq_ok (aligned : context.Aligned) {table : Table} {mode : Mode}
    (locked : mode ≠ .NL) (admitted : Modes.AdmitsAt (table.modeOf owner) context.name mode) :
    context.checkAdmitted table owner mode = .ok () := by
  obtain ⟨place, above⟩ := context
  cases above with
  | nil => rfl
  | cons parent above =>
      have admits := admitted parent.name aligned.above.1
      have held : table.modeOf owner parent.name ≠ .NL := by
        intro free
        rw [free] at admits
        exact locked (Mode.eq_NL_of_NL_admits admits)
      have inForce : (Context.mk parent above).effectiveMode table owner =
          table.modeOf owner parent.name := Context.effectiveMode_of_held held
      rw [checkAdmitted, parent?]
      simp only [inForce, admits, if_true]

end Context

theorem Modes.AdmitsAbove.admitsAt {modes : Modes} {name : ResourceName} {mode : Mode}
    (above : modes.AdmitsAbove name mode) : modes.AdmitsAt name mode :=
  fun parent upper => above parent (ResourceName.isBeneath_parent upper)

namespace Operation

variable {owner : TransactionId} {before after : Modes}

/-- An operation on a context leads to the outcome of the request that it poses. -/
theorem Leads.of_outcome {operation : Operation} {context : Context}
    (about : operation.context? = some context)
    (poses : ∀ store : Store, store.Ready owner before → ∃ remark call,
      operation.decide store owner = .ok (.make remark call) ∧ (∀ name, call ≠ .release name) ∧
        ∀ request side, store.table.Poses owner call request side →
          request.outcome before = after) : operation.Leads owner before after := by
  intro store ready
  obtain ⟨remark, call, decided, apart, outcome⟩ := poses store ready
  rcases passes_of_decide ready.sound decided with ⟨direct, _⟩ | ⟨done, passed⟩
  · subst direct
    cases about
  · refine ⟨remark, call, done, decided, passed, fun free => ?_⟩
    obtain ⟨names, serves⟩ := ready.quiet.servesFrom passed free
    generalize done.table = left at serves
    cases serves with
    | released called => exact absurd called (apart _)
    | granted posed =>
        rw [ready.sound.modeOf_apply (posed.coherent ready.sound), if_pos posed.owner_eq.symm,
          ready.held]
        exact outcome _ _ posed

/-- Without releases the outcome of a request is the mode that it asks for. -/
theorem outcome_plain (modes : Modes) (name : ResourceName) (mode : Mode) :
    Request.outcome ⟨owner, ⟨name, mode, owner⟩, []⟩ modes =
      modes.take name mode fun _ => false := by
  funext other
  simp [Request.outcome, Modes.take]

/-- The outcome of a request that gives up what is held beneath its name where it is so. -/
theorem outcome_given {modes : Modes} {name : ResourceName} {mode : Mode} {given : Mode → Bool}
    {released : List Lock} (listed : ∀ other, other ≠ name → modes other ≠ .NL →
      (other ∈ released.map Lock.name ↔ other.isBeneath name = true ∧ given (modes other) = true)) :
    Request.outcome ⟨owner, ⟨name, mode, owner⟩, released⟩ modes = modes.take name mode given := by
  funext other
  rw [Request.outcome, Modes.take]
  by_cases own : other = name
  · rw [if_pos own, if_pos own]
  rw [if_neg own, if_neg own]
  by_cases free : modes other = .NL
  · rw [free, ite_self, ite_self]
  · rw [if_congr (listed other own free) rfl rfl]
    simp only [Bool.and_eq_true]

section

variable {context : Context} {table : Table} {mode : Mode} {request : Request} {side : QueueEnd}
  (sound : table.Sound) (held : table.modeOf owner = before)
include sound held

/-- The outcome of a promotion to `SIX`, which gives up what only reads beneath. -/
theorem outcome_promoteToSIX (poses : table.Poses owner
    (.exchange context.name .SIX (context.readersBeneath table owner ++ [context.name]))
      request side) :
    request.outcome before = before.take context.name .SIX Mode.onlyReads := by
  cases poses with
  | exchange _ found =>
      apply outcome_given
      intro other apart _
      rw [(Table.locksOn_eq_ok found).1, List.mem_eraseDups, List.mem_append, List.mem_singleton,
        Context.mem_readersBeneath sound, held]
      simp [apart, Mode.onlyReads]

/-- The outcome of an escalation, which gives up everything beneath. -/
theorem outcome_escalate (poses : table.Poses owner
    (.exchange context.name mode
      (context.name :: (table.locksBeneath owner context.name).map Lock.name)) request side) :
    request.outcome before = before.take context.name mode fun _ => true := by
  cases poses with
  | exchange _ found =>
      apply outcome_given
      intro other apart locked
      rw [(Table.locksOn_eq_ok found).1, List.mem_eraseDups, List.mem_cons,
        sound.mem_names_locksBeneath, held]
      simp [apart, locked]

end

section

variable {context : Context} {mode : Mode} (aligned : context.Aligned)
  (isOpen : context.place.readOnly = false)
include aligned isOpen

theorem leads_acquire (free : before context.name = .NL) (locked : mode ≠ .NL)
    (admitted : before.AdmitsAt context.name mode) :
    (acquire context mode).Leads owner before (before.take context.name mode fun _ => false) := by
  apply Leads.of_outcome rfl
  intro store ready
  rw [← ready.held] at free admitted
  refine ⟨none, .acquire context.name mode, ?_, nofun, fun request side poses => ?_⟩
  · have writes := Context.checkWritable_eq_ok ready.writable isOpen
    have admits := aligned.checkAdmitted_eq_ok locked admitted
    exact Context.acquire_eq_ok.mpr ⟨writes, free, locked, admits, rfl⟩
  · cases poses with
    | acquire => exact outcome_plain before context.name mode

theorem leads_promote (held : before context.name ≠ .NL) (raised : before context.name ≠ mode)
    (covered : Mode.covers mode (before context.name) = true) (plain : mode ≠ .SIX)
    (admitted : before.AdmitsAt context.name mode) :
    (promote context mode).Leads owner before (before.take context.name mode fun _ => false) := by
  apply Leads.of_outcome rfl
  intro store ready
  have locked : mode ≠ .NL := by
    intro free
    rw [free] at covered
    exact held (Mode.eq_NL_of_covers_NL covered)
  rw [← ready.held] at held raised covered admitted
  refine ⟨none, .promote context.name mode, ?_, nofun, fun request side poses => ?_⟩
  · have writes := Context.checkWritable_eq_ok ready.writable isOpen
    have admits := aligned.checkAdmitted_eq_ok locked admitted
    exact Context.promote_eq_ok.mpr
      ⟨writes, held, raised, covered, admits, fun six => absurd six plain, if_neg plain⟩
  · cases poses with
    | promote => exact outcome_plain before context.name mode

theorem leads_promoteToSIX (held : before context.name = .IX)
    (alone : ∀ upper, context.name.isBeneath upper = true → before upper ≠ .SIX)
    (admitted : before.AdmitsAt context.name .SIX) :
    (promote context .SIX).Leads owner before
      (before.take context.name .SIX Mode.onlyReads) := by
  apply Leads.of_outcome rfl
  intro store ready
  rw [← ready.held] at held alone admitted
  have mode : context.explicitMode store.table owner = .IX := held
  have none : context.hasSIXAbove store.table owner = false := by
    rw [Bool.eq_false_iff]
    intro above
    obtain ⟨upper, beneath, six⟩ := ready.sound.hasSIXAbove_iff.mp above
    exact alone upper beneath six
  let readers := context.readersBeneath store.table owner
  refine ⟨some (.promotingToSIX context.name owner readers.length),
    .exchange context.name .SIX (readers ++ [context.name]), ?_, nofun,
    fun request side poses => ?_⟩
  · apply Context.promote_eq_ok.mpr
    rw [mode]
    exact ⟨Context.checkWritable_eq_ok ready.writable isOpen, nofun, nofun, rfl,
      aligned.checkAdmitted_eq_ok nofun admitted, fun _ => none, if_pos rfl⟩
  · exact outcome_promoteToSIX ready.sound ready.held poses

omit aligned in
theorem leads_escalate (intent : (before context.name).isIntent = true)
    (target : mode = .X ∧ before.WritesWithin context.name ∨
      mode = .S ∧ ¬before.WritesWithin context.name) :
    (escalate context).Leads owner before (before.take context.name mode fun _ => true) := by
  apply Leads.of_outcome rfl
  intro store ready
  rw [← ready.held] at intent target
  let chosen := Context.escalationTarget (store.table.modeOf owner context.name)
    (store.table.locksBeneath owner context.name)
  have determined : chosen = .X ∧ Modes.WritesWithin (store.table.modeOf owner) context.name ∨
      chosen = .S ∧ ¬Modes.WritesWithin (store.table.modeOf owner) context.name :=
    Context.escalationTarget_cases ready.sound context.name
  have same : chosen = mode := by
    rcases determined with ⟨same, writes⟩ | ⟨same, reads⟩
    · rcases target with ⟨rfl, _⟩ | ⟨_, reads⟩
      · exact same
      · exact absurd writes reads
    · rcases target with ⟨_, writes⟩ | ⟨rfl, _⟩
      · exact absurd writes reads
      · exact same
  have locked : context.explicitMode store.table owner ≠ .NL := Mode.ne_NL_of_isIntent intent
  have inForce : context.effectiveMode store.table owner ≠ .NL := by
    rw [Context.effectiveMode_of_held locked]
    exact locked
  let held := context.explicitMode store.table owner
  let released := context.name :: (store.table.locksBeneath owner context.name).map Lock.name
  refine ⟨some (.escalating context.name held chosen owner), .exchange context.name chosen released,
    ?_, nofun, fun request side poses => ?_⟩
  · exact Context.escalate_eq_ok.mpr
      ⟨Context.checkWritable_eq_ok ready.writable isOpen, inForce, if_pos intent⟩
  · rw [← same]
    exact outcome_escalate ready.sound ready.held poses

end

/-- A release of a lock that is held leads to the modes without it. -/
theorem leads_release {name : ResourceName} (held : before name ≠ .NL) :
    (direct (.release name)).Leads owner before (before.drop name) := by
  intro store ready
  rw [← ready.held] at held
  obtain ⟨done, passed⟩ := Table.release_passes held
  refine ⟨none, .release name, done, rfl, passed, fun free => ?_⟩
  obtain ⟨names, serves⟩ := ready.quiet.servesFrom passed free
  generalize done.table = left at serves
  cases serves with
  | released called removed =>
      cases called
      funext other
      rw [ready.sound.modeOf_remove removed, Modes.drop, ready.held]
      simp only [true_and, eq_comm]
  | granted poses => cases poses

end Operation

/-! ### Plans -/

namespace Plan

/-- Beginning with certain modes of its owner, a plan is not refused anything and does not fail,
whatever state it looks at; and the modes at its end meet a goal. -/
def Assured (owner : TransactionId) (goal : Modes → Prop) : Plan → Modes → Prop
  | done, modes => goal modes
  | fail _, _ => False
  | look next, modes => ∀ store : Store, store.Ready owner modes →
      (next store).Assured owner goal modes
  | say _ next, modes => next.Assured owner goal modes
  | perform operation next, modes =>
      ∃ after, operation.Leads owner modes after ∧ next.Assured owner goal after

variable {owner : TransactionId} {goal : Modes → Prop} {modes : Modes}

theorem assured_ask {operation : Operation} {after : Modes}
    (leads : operation.Leads owner modes after) (reached : goal after) :
    (ask operation).Assured owner goal modes :=
  ⟨after, leads, reached⟩

/-- Two plans one after the other, where the first ends as the second begins. -/
theorem Assured.andThen {middle : Modes → Prop} {first second : Plan}
    (earlier : first.Assured owner middle modes)
    (later : ∀ between, middle between → second.Assured owner goal between) :
    (first.andThen second).Assured owner goal modes := by
  induction first generalizing modes with
  | done => exact later modes earlier
  | fail => exact earlier
  | look next inductionHypothesis =>
      exact fun store ready => inductionHypothesis store (earlier store ready)
  | say remark next inductionHypothesis => exact inductionHypothesis earlier
  | perform operation next inductionHypothesis =>
      obtain ⟨after, leads, rest⟩ := earlier
      exact ⟨after, leads, inductionHypothesis rest⟩

theorem Assured.mono {weaker : Modes → Prop} {plan : Plan} (assured : plan.Assured owner goal modes)
    (implies : ∀ after, goal after → weaker after) : plan.Assured owner weaker modes := by
  induction plan generalizing modes with
  | done => exact implies modes assured
  | fail => exact assured
  | look next inductionHypothesis =>
      exact fun store ready => inductionHypothesis store (assured store ready)
  | say remark next inductionHypothesis => exact inductionHypothesis assured
  | perform operation next inductionHypothesis =>
      obtain ⟨after, leads, rest⟩ := assured
      exact ⟨after, leads, inductionHypothesis rest⟩

end Plan

end Granularity
