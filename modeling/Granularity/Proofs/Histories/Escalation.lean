import Granularity.Proofs.Contexts.Tidy
import Granularity.Proofs.Histories.LoneRequest

/-!
What an escalation makes of the locks of a subtree.

An escalation looks at every lock of its transaction on a name and beneath it, and poses one request
that takes a single lock for all of them.  The request may have to wait, but as long as its owner
makes no call it finds the locks that it was made for.  So whenever the request is granted, it leaves
what it would have left at once: one lock where the subtree was locked, in the place of the topmost.
-/

namespace Granularity

/-! ### One lock for a subtree -/

/-- The lock writes or means to write. -/
def Lock.writes (lock : Lock) : Bool :=
  lock.mode == .IX || lock.mode == .SIX || lock.mode == .X

/-- The mode that stands for all locks on a name and beneath it: `X` if any of them writes, and `S`
otherwise. -/
def modeWithin (name : ResourceName) (locks : List Lock) : Mode :=
  if locks.any fun lock => (lock.name == name || lock.name.isBeneath name) && lock.writes then .X
  else .S

/-- The locks with those beneath a name taken out, and the lock on the name itself changed, where it
stands, into one that stands for all of them. -/
def collapsed (name : ResourceName) (locks : List Lock) : List Lock :=
  (locks.filter fun lock => !lock.name.isBeneath name).map fun lock =>
    if lock.name = name then { lock with mode := modeWithin name locks } else lock

/-- Neither of the two modes is an intention. -/
theorem modeWithin_plain (name : ResourceName) (locks : List Lock) :
    modeWithin name locks ≠ .NL ∧ (modeWithin name locks).isIntent = false := by
  rw [modeWithin]
  split
  · decide
  · decide

theorem not_isBeneath_of_mem_collapsed {name : ResourceName} {locks : List Lock} {lock : Lock}
    (member : lock ∈ collapsed name locks) : lock.name.isBeneath name = false := by
  obtain ⟨held, heldMember, rfl⟩ := List.mem_map.mp member
  have outside := (List.mem_filter.mp heldMember).2
  rw [Bool.not_eq_true'] at outside
  split
  · exact outside
  · exact outside

theorem mem_collapsed_self {locks : List Lock} {lock : Lock} (member : lock ∈ locks) :
    { lock with mode := modeWithin lock.name locks } ∈ collapsed lock.name locks := by
  refine List.mem_map.mpr ⟨lock, List.mem_filter.mpr ⟨member, ?_⟩, if_pos rfl⟩
  rw [ResourceName.isBeneath_self]
  rfl

/-- Nothing is left beneath the name. -/
theorem countP_collapsed (name : ResourceName) (locks : List Lock) :
    (((collapsed name locks).map Lock.name).countP fun other => other.isBeneath name) = 0 := by
  rw [List.countP_eq_zero]
  intro other member
  obtain ⟨lock, lockMember, rfl⟩ := List.mem_map.mp member
  rw [not_isBeneath_of_mem_collapsed lockMember]
  simp

namespace Table

variable {table : Table} {owner : TransactionId} {name : ResourceName}

namespace Sound

variable (sound : table.Sound)
include sound

/-- A transaction writes at a name or beneath it just when a lock in its list there does. -/
theorem writesWithin_iff :
    Modes.WritesWithin (table.modeOf owner) name ↔ ((table.locksOf owner).any fun lock =>
      (lock.name == name || lock.name.isBeneath name) && lock.writes) = true := by
  simp only [List.any_eq_true, Bool.and_eq_true, Bool.or_eq_true (_ == _), beq_iff_eq,
    Lock.writes, Context.writes_iff]
  constructor
  · rintro ⟨other, within, writes⟩
    refine ⟨⟨other, table.modeOf owner other, owner⟩, ?_, within, writes⟩
    refine sound.mem_locksOf_iff.mpr ⟨rfl, ?_, rfl⟩
    rintro (none : table.modeOf owner other = .NL)
    rw [none] at writes
    cases writes
  · rintro ⟨lock, member, within, writes⟩
    exact ⟨lock.name, within, (sound.mem_locksOf_iff.mp member).2.2 ▸ writes⟩

/-- The mode that an escalation aims at stands for all locks on the name and beneath it. -/
theorem escalationTarget_eq :
    Context.escalationTarget (table.modeOf owner name) (table.locksBeneath owner name) =
      modeWithin name (table.locksOf owner) := by
  let store : Store := ⟨{}, table, .empty⟩
  have storeSound : store.table.Sound := sound
  rcases Context.escalationTarget_cases storeSound name with ⟨target, writes⟩ | ⟨target, reads⟩
  · rw [target, modeWithin, if_pos (sound.writesWithin_iff.mp writes)]
  · rw [target, modeWithin, if_neg fun writes => reads (sound.writesWithin_iff.mpr writes)]

/-- Giving up the locks of a subtree, all but the topmost, leaves those that are not beneath it. -/
theorem filter_subtree :
    ((table.locksOf owner).filter fun lock => lock.name == name ||
        !(name :: (table.locksBeneath owner name).map Lock.name).contains lock.name) =
      (table.locksOf owner).filter fun lock => !lock.name.isBeneath name := by
  refine List.filter_congr fun lock member => ?_
  by_cases own : lock.name = name
  · simp [own, ResourceName.isBeneath_self]
  · have given : lock.name ∈ (table.locksBeneath owner name).map Lock.name ↔
        lock.name.isBeneath name = true := by
      rw [sound.mem_names_locksBeneath, and_iff_left]
      exact sound.modeOf_ne_NL_iff.mpr (List.mem_map_of_mem member)
    simp [own, given]

/-- The request of an escalation collapses the locks of its owner. -/
theorem locksAfter_eq_collapsed {request : Request}
    (asked : request.lock = ⟨name, modeWithin name (table.locksOf owner), owner⟩)
    (released : request.released.map Lock.name =
      name :: (table.locksBeneath owner name).map Lock.name)
    (held : table.modeOf owner name ≠ .NL) :
    request.locksAfter (table.locksOf owner) = collapsed name (table.locksOf owner) := by
  have nodup : (((table.locksOf owner).filter fun lock => !lock.name.isBeneath name).map
      Lock.name).Nodup :=
    (List.filter_sublist.map Lock.name).nodup (sound.mirrored.names_nodup owner)
  have present : name ∈
      ((table.locksOf owner).filter fun lock => !lock.name.isBeneath name).map Lock.name := by
    obtain ⟨lock, member, same⟩ := List.mem_map.mp (sound.modeOf_ne_NL_iff.mp held)
    refine List.mem_map.mpr ⟨lock, List.mem_filter.mpr ⟨member, ?_⟩, same⟩
    rw [same, ResourceName.isBeneath_self]
    rfl
  rw [Request.locksAfter, asked, released, sound.filter_subtree,
    place_of_mem Lock.name nodup present, collapsed]
  refine List.map_congr_left fun lock member => if_ctx_congr Iff.rfl (fun own => ?_) fun _ => rfl
  have owned := (sound.mem_locksOf_iff.mp (List.mem_filter.mp member).1).1
  rw [← own, ← owned]

/-- Where the locks of a subtree have been collapsed, the one mode is held. -/
theorem modeOf_of_collapsed {locks : List Lock} (held : name ∈ locks.map Lock.name)
    (changed : table.locksOf owner = collapsed name locks) :
    table.modeOf owner name = modeWithin name locks := by
  obtain ⟨lock, member, rfl⟩ := List.mem_map.mp held
  have listed := mem_collapsed_self member
  rw [← changed] at listed
  exact (sound.mem_locksOf_iff.mp listed).2.2

/-! ### The request of an escalation -/

theorem nodup_subtree :
    (name :: (table.locksBeneath owner name).map Lock.name).Nodup := by
  rw [List.nodup_cons]
  constructor
  · intro member
    exact ResourceName.ne_of_isBeneath (sound.mem_names_locksBeneath.mp member).1 rfl
  · exact (List.filter_sublist.map Lock.name).nodup (sound.mirrored.names_nodup owner)

/-- A transaction that holds a lock on a name can exchange it, and all beneath, for another. -/
theorem poses_subtree {mode : Mode} (held : table.modeOf owner name ≠ .NL) (locked : mode ≠ .NL) :
    ∃ request, request.lock = ⟨name, mode, owner⟩ ∧
      request.released.map Lock.name = name :: (table.locksBeneath owner name).map Lock.name ∧
      table.Poses owner
        (.exchange name mode (name :: (table.locksBeneath owner name).map Lock.name))
        request .front := by
  have listed : ∀ other ∈ name :: (table.locksBeneath owner name).map Lock.name,
      other ∈ (table.locksOf owner).map Lock.name := by
    intro other member
    rcases List.mem_cons.mp member with rfl | beneath
    · exact sound.modeOf_ne_NL_iff.mp held
    · exact sound.modeOf_ne_NL_iff.mp (sound.mem_names_locksBeneath.mp beneath).2
  obtain ⟨locks, found⟩ := exists_locksOn listed
  refine ⟨⟨owner, ⟨name, mode, owner⟩, locks⟩, rfl, (locksOn_eq_ok found).1, ?_⟩
  refine .exchange (fun _ => List.mem_cons_self) ?_ locked
  rw [eraseDups_of_nodup sound.nodup_subtree]
  exact found

end Sound

end Table

namespace Context

variable {context : Context} {store : Store} {owner : TransactionId}

/-- Where an intention is held, an escalation comes down to an exchange for the mode that stands for
all locks of the subtree. -/
theorem escalate_of_intent (sound : store.table.Sound)
    (writable : context.checkWritable store.contexts = .ok ())
    (intent : (context.explicitMode store.table owner).isIntent = true) :
    ∃ remark, context.escalate store owner = .ok (.make (some remark)
      (.exchange context.name (modeWithin context.name (store.table.locksOf owner))
        (context.name :: (store.table.locksBeneath owner context.name).map Lock.name))) := by
  have held := Mode.ne_NL_of_isIntent intent
  have inForce : context.effectiveMode store.table owner ≠ .NL := by
    rw [effectiveMode_of_held held]
    exact held
  rw [← sound.escalationTarget_eq]
  exact ⟨_, escalate_eq_ok.mpr ⟨writable, inForce, if_pos intent⟩⟩

/-- Where `S` or `X` is held, there is nothing to escalate. -/
theorem escalate_of_plain (writable : context.checkWritable store.contexts = .ok ())
    (held : context.explicitMode store.table owner ≠ .NL)
    (plain : (context.explicitMode store.table owner).isIntent = false) :
    context.escalate store owner = .ok .stay := by
  have inForce : context.effectiveMode store.table owner ≠ .NL := by
    rw [effectiveMode_of_held held]
    exact held
  exact escalate_eq_ok.mpr ⟨writable, inForce, if_neg (by simp [plain])⟩

end Context

namespace System

/-- Calls leave the contexts alone. -/
theorem contexts_carryOut (system : System) (owner : TransactionId) (call : Call) :
    (system.carryOut owner call).2.store.contexts = system.store.contexts := by
  cases answer : system.store.table.call owner call with
  | error refusal => rw [carryOut_of_refused answer]
  | ok done => rw [store_carryOut answer]

theorem contexts_afterCalls (calls : List (TransactionId × Call)) (system : System) :
    (system.afterCalls calls).store.contexts = system.store.contexts := by
  induction calls generalizing system with
  | nil => rfl
  | cons made calls inductionHypothesis =>
      exact (inductionHypothesis _).trans (contexts_carryOut system made.1 made.2)

/-- Where an intention is held, escalating makes a remark and one exchange. -/
theorem perform_escalate {system : System} {owner : TransactionId} {context : Context}
    (sound : system.store.table.Sound)
    (writable : context.checkWritable system.store.contexts = .ok ())
    (intent : (context.explicitMode system.store.table owner).isIntent = true) :
    ∃ remark, system.perform owner (.escalate context) =
      (system.note [.remark remark]).carryOut owner
        (.exchange context.name (modeWithin context.name (system.store.table.locksOf owner))
          (context.name :: (system.store.table.locksBeneath owner context.name).map Lock.name)) := by
  obtain ⟨remark, escalates⟩ := Context.escalate_of_intent sound writable intent
  have decided : (Operation.escalate context).decide system.store owner = .ok _ := escalates
  exact ⟨remark, perform_of_make decided⟩

/-- A call of a transaction is one event that reports a call, whatever follows from it. -/
theorem events_of_call {table : Table} {owner : TransactionId} {call : Call} {done : Section}
    (passed : table.call owner call = .ok done) :
    ∃ later, Notice.events done.notices = call.event owner :: later ∧
      ∀ event ∈ later, event.isCall = false := by
  refine ⟨_, Table.events_call passed, ?_⟩
  split
  · simp [Lock.blocked, Event.isCall, Event.kind, EventKind.isCall]
  · simp [Lock.granted, Event.isCall, Event.kind, EventKind.isCall]

/-- Once the locks of a subtree have been collapsed, nothing is counted beneath the name, and
escalating again changes nothing. -/
theorem perform_escalate_of_collapsed {system : System} {owner : TransactionId}
    {context : Context} {locks : List Lock} (sound : system.store.table.Sound)
    (writable : context.checkWritable system.store.contexts = .ok ())
    (held : context.name ∈ locks.map Lock.name)
    (changed : system.store.table.locksOf owner = collapsed context.name locks) :
    system.store.table.countBeneath context.name owner = 0 ∧
      system.perform owner (.escalate context) = (.returned, system) := by
  constructor
  · rw [sound.counted, changed]
    exact countP_collapsed context.name locks
  · have explicit : context.explicitMode system.store.table owner =
        modeWithin context.name locks := sound.modeOf_of_collapsed held changed
    have plain := modeWithin_plain context.name locks
    rw [← explicit] at plain
    have decided : (Operation.escalate context).decide system.store owner = .ok .stay :=
      Context.escalate_of_plain writable plain.1 plain.2
    rw [perform, decided]

/-- What an escalation leaves at once: its request on its way or through, the contexts as they were,
and one call more among the events. -/
structure Escalated (system : System) (owner : TransactionId) (context : Context)
    (request : Request) (escalated : System) : Prop where
  asked : request.lock =
    ⟨context.name, modeWithin context.name (system.store.table.locksOf owner), owner⟩
  released : request.released.map Lock.name =
    context.name :: (system.store.table.locksBeneath owner context.name).map Lock.name
  sound : escalated.store.table.Sound
  honours : escalated.store.table.Honours request (system.store.table.locksOf owner)
  contexts : escalated.store.contexts = system.store.contexts
  events : ∃ later, Notice.events escalated.journal = Notice.events system.journal ++
      .exchange owner request.lock.name request.lock.mode (request.released.map Lock.name) ::
        later ∧
    ∀ event ∈ later, event.isCall = false

/-- Where an intention is held and nothing is waited for, escalating is not refused. -/
theorem exists_escalated {system : System} {owner : TransactionId} {context : Context}
    (sound : system.store.table.Sound)
    (writable : context.checkWritable system.store.contexts = .ok ())
    (intent : (context.explicitMode system.store.table owner).isIntent = true)
    (idle : ¬system.store.table.Waiting owner) :
    (∀ refusal, (system.perform owner (.escalate context)).1 ≠ .refused refusal) ∧
      ∃ request, Escalated system owner context request
        (system.perform owner (.escalate context)).2 := by
  obtain ⟨remark, performed⟩ := perform_escalate sound writable intent
  obtain ⟨request, asked, released, poses⟩ :=
    sound.poses_subtree (Mode.ne_NL_of_isIntent intent) (modeWithin_plain context.name _).1
  obtain ⟨done, passed⟩ := poses.passes
  have noted : (system.note [.remark remark]).store.table.call owner _ = .ok done := passed
  have left : (system.perform owner (.escalate context)).2.store =
      { system.store with table := done.table } := by
    rw [performed, store_carryOut noted, store_note]
  refine ⟨fun refusal => performed ▸ carryOut_not_refused noted refusal, request, asked, released,
    ?_, ?_, ?_, ?_⟩
  · rw [left]
    exact sound.call passed
  · rw [left]
    exact .of_poses sound idle poses passed
  · rw [left]
  · obtain ⟨later, events, quiet⟩ := events_of_call passed
    have silent : Notice.events (system.note [.remark remark]).journal =
        Notice.events system.journal := events_note_remarks system [remark]
    rw [Call.event, eraseDups_of_nodup sound.nodup_subtree] at events
    refine ⟨later, ?_, quiet⟩
    rw [performed, journal_carryOut noted, events_append, silent, events, asked, released]

/-- An escalation makes one lock of a subtree, and does so once.  Whatever has been done, let a
transaction that waits for nothing hold an intention on the name of a context that takes locks.
Escalating there is not refused; it is one exchange and no other call, for `X` if any lock of the
transaction on the name or beneath writes, and for `S` otherwise, and it gives up the lock on the
name and all locks beneath.  Let others then make any calls.  As long as the request of the exchange
waits, the transaction keeps the locks, in their order, the modes, and the counts that it had.  Once
the request has been granted, be it at once or later, its locks are the old ones without those
beneath the name and with the new one in the place of the old one on the name, nothing is counted
beneath the name, and escalating there again changes nothing at all. -/
theorem escalate_collapses_afterActions (config : Config)
    (handles : Std.ExtTreeMap TransactionId Handle) (actions : List Action) :
    let system := (opened config handles).afterActions actions
    let table := system.store.table
    ∀ (owner : TransactionId) (context : Context),
      context.checkWritable system.store.contexts = .ok () →
      (context.explicitMode table owner).isIntent = true → ¬table.Waiting owner →
      let locks := table.locksOf owner
      let beneath := locks.filter fun lock => lock.name.isBeneath context.name
      let escalated := (system.perform owner (.escalate context)).2
      (∀ refusal, (system.perform owner (.escalate context)).1 ≠ .refused refusal) ∧
      (∃ later, Notice.events escalated.journal = Notice.events system.journal ++
          .exchange owner context.name (modeWithin context.name locks)
            (context.name :: beneath.map Lock.name) :: later ∧
        ∀ event ∈ later, event.isCall = false) ∧
      ∀ calls : List (TransactionId × Call), (∀ made ∈ calls, made.1 ≠ owner) →
        let final := escalated.afterCalls calls
        let after := final.store.table
        (after.Waiting owner →
          after.locksOf owner = locks ∧ after.modeOf owner = table.modeOf owner ∧
            ∀ upper, after.countBeneath upper owner = table.countBeneath upper owner) ∧
        (¬after.Waiting owner →
          after.locksOf owner = collapsed context.name locks ∧
            after.countBeneath context.name owner = 0 ∧
            final.perform owner (.escalate context) = (.returned, final)) := by
  intro system table owner context writable intent idle locks beneath escalated
  have sound : table.Sound := sound_afterActions config handles actions
  have held : table.modeOf owner context.name ≠ .NL := Mode.ne_NL_of_isIntent intent
  obtain ⟨passes, request, begun⟩ := exists_escalated sound writable intent idle
  refine ⟨passes, ?_, ?_⟩
  · obtain ⟨later, events, quiet⟩ := begun.events
    rw [begun.asked, begun.released] at events
    exact ⟨later, events, quiet⟩
  intro calls others final after
  have owned : request.lock.owner = owner := by rw [begun.asked]
  have afterSound : after.Sound :=
    afterCalls_induction _ begun.sound (fun _ _ _ _ sound passed => sound.call passed) calls
  have honours : after.Honours request locks :=
    honours_afterCalls calls begun.sound begun.honours (owned ▸ others)
  rw [← owned]
  constructor
  · intro waits
    have kept : after.locksOf request.lock.owner = table.locksOf request.lock.owner := by
      rw [honours.locksOf_of_waiting waits, owned]
    refine ⟨honours.locksOf_of_waiting waits, sound.modeOf_eq_of_locksOf afterSound kept, ?_⟩
    intro upper
    rw [afterSound.counted, sound.counted, kept]
  · intro granted
    have changed : after.locksOf request.lock.owner = collapsed context.name locks := by
      rw [honours.locksOf_of_not_waiting granted]
      exact sound.locksAfter_eq_collapsed begun.asked begun.released held
    have contexts : final.store.contexts = system.store.contexts := by
      rw [contexts_afterCalls, begun.contexts]
    exact ⟨changed, perform_escalate_of_collapsed afterSound (contexts ▸ writable)
      (sound.modeOf_ne_NL_iff.mp held) changed⟩

/-- A transaction writes in a table of a database and reads a log, and another looks at the
database. -/
def writesBesideReader : List Action :=
  [.call 1 (.acquire ⟨"database", []⟩ .IX), .call 1 (.acquire ⟨"database", ["orders"]⟩ .X),
    .call 1 (.acquire ⟨"log", []⟩ .S), .call 2 (.acquire ⟨"database", []⟩ .IS)]

/-- The database, where the writer takes everything for itself. -/
def databaseContext : Context :=
  ⟨⟨0, ⟨"database", []⟩, false⟩, []⟩

/-- The manager while the writer waits for the reader to leave. -/
def escalatedBesideReader : System :=
  (((opened {} ∅).afterActions writesBesideReader).perform 1 (.escalate databaseContext)).2

/-- The writer keeps its locks until the reader leaves, and has `X` on the database then. -/
theorem database_written_once_reader_leaves :
    escalatedBesideReader.store.table.Waiting 1 ∧
      escalatedBesideReader.store.table.locksOf 1 =
        [⟨⟨"database", []⟩, .IX, 1⟩, ⟨⟨"database", ["orders"]⟩, .X, 1⟩, ⟨⟨"log", []⟩, .S, 1⟩] ∧
      let final := escalatedBesideReader.afterCalls [(2, .release ⟨"database", []⟩)]
      ¬final.store.table.Waiting 1 ∧
        final.store.table.locksOf 1 = [⟨⟨"database", []⟩, .X, 1⟩, ⟨⟨"log", []⟩, .S, 1⟩] ∧
        final.store.table.countBeneath ⟨"database", []⟩ 1 = 0 ∧
        final.perform 1 (.escalate databaseContext) = (.returned, final) := by
  obtain ⟨_, _, whatever⟩ := escalate_collapses_afterActions {} ∅ writesBesideReader 1 databaseContext
    rfl (by decide +kernel) (by decide +kernel)
  have waits : escalatedBesideReader.store.table.Waiting 1 := by decide +kernel
  have leaves : ∀ made ∈ [((2 : TransactionId), Call.release ⟨"database", []⟩)], made.1 ≠ 1 := by
    decide
  have granted : ¬(escalatedBesideReader.afterCalls
      [(2, .release ⟨"database", []⟩)]).store.table.Waiting 1 := by decide +kernel
  have kept := (whatever [] (by simp)).1 waits
  have changed := (whatever _ leaves).2 granted
  have locks : ((opened {} ∅).afterActions writesBesideReader).store.table.locksOf 1 =
      [⟨⟨"database", []⟩, .IX, 1⟩, ⟨⟨"database", ["orders"]⟩, .X, 1⟩, ⟨⟨"log", []⟩, .S, 1⟩] := by
    decide +kernel
  refine ⟨waits, kept.1.trans locks, granted, changed.1.trans ?_, changed.2⟩
  rw [locks]
  rfl

end System

end Granularity
