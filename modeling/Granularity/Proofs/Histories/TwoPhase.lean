import Granularity.Proofs.Histories.Threads
import Granularity.Proofs.Histories.Wakeups

/-!
The two-phase suspension.

A flag is raised when a request is put in a queue and lowered when the wake-up is delivered.  The
request is granted in between, in the section of some other transaction, and then nobody tells from
the table alone that the wake-up is still on its way.  `Threads.InStep` ties the flags to the queues
and to the wake-ups under way; every step keeps it up, so it holds whatever order the steps are
taken in.
-/

namespace Granularity

/-! ### Requests that are granted -/

namespace Table

variable {table : Table} {owner : TransactionId} {call : Call} {done : Section}

/-- A lock has been asked for: the request for it waits, or it has been granted and its owner waits
for nothing. -/
inductive Asked (table : Table) (lock : Lock) : Prop where
  | waits {request : Request} (queued : request ∈ table.queueOf lock.name)
      (asks : request.lock = lock)
  | granted (idle : ¬table.Waiting lock.owner) (held : lock ∈ (table.entry lock.name).granted)

/-- If nobody has a second request, whoever is served ends up with the lock it has asked for. -/
theorem SingleFile.granted_of_served (single : table.SingleFile) (sound : table.Sound)
    {final : Table} {served : List Request} (chain : Served table served final)
    {request : Request} (member : request ∈ served) :
    request.lock ∈ (final.entry request.lock.name).granted := by
  induction chain with
  | nobody => cases member
  | @front table final name first rest served queued room later inductionHypothesis =>
      have soundNext := sound.apply_front queued room
      rcases List.mem_cons.mp member with rfl | member
      · have notAgain : request.lock.owner ∉ served.map fun request => request.lock.owner := by
          intro again
          obtain ⟨second, member, owned⟩ := List.mem_map.mp again
          apply single.not_waiting_next queued
          rw [← owned]
          exact later.waiting_of_mem member
        have mode : final.modeOf request.lock.owner request.lock.name = request.lock.mode := by
          rw [soundNext.modeOf_served later notAgain, sound.modeOf_apply_front queued, if_pos rfl,
            Request.outcome_own]
        have locked := (sound.front queued).1
        exact (((soundNext.served later).entries _).modeOf_eq_iff locked).mp mode
      · exact inductionHypothesis (single.next queued) soundNext member

/-- A lock stays granted when another transaction makes a call that serves its owner nothing. -/
theorem Sound.mem_granted_call (sound : table.Sound) (passed : table.call owner call = .ok done)
    {lock : Lock} (apart : lock.owner ≠ owner)
    (notServed : lock.owner ∉ done.served.map fun request => request.lock.owner)
    (held : lock ∈ (table.entry lock.name).granted) :
    lock ∈ (done.table.entry lock.name).granted := by
  have locked : lock.mode ≠ .NL := (sound.entries lock.name).granted_locked lock held
  have mode := ((sound.entries lock.name).modeOf_eq_iff locked).mpr held
  have same := congrFun (sound.modeOf_call passed apart notServed) lock.name
  exact (((sound.call passed).entries lock.name).modeOf_eq_iff locked).mp (same.trans mode)

/-- What has been asked for stays so while others make calls. -/
theorem Asked.after_call {lock : Lock} (asked : table.Asked lock) (sound : table.Sound)
    (single : table.SingleFile) (passed : table.call owner call = .ok done)
    (apart : lock.owner ≠ owner) : done.table.Asked lock := by
  cases parked : done.parked with
  | true =>
      obtain ⟨posed, side, poses, left, nobody⟩ := enqueued_of_parked passed parked
      cases asked with
      | waits queued asks =>
          refine .waits ?_ asks
          rw [left]
          exact mem_queueOf_enqueue.mpr (Or.inr queued)
      | granted idle held =>
          refine .granted ?_ (sound.mem_granted_call passed apart ?_ held)
          · rw [left, waiting_enqueue, poses.owner_eq, not_or]
            exact ⟨apart, idle⟩
          · rw [nobody]
            exact List.not_mem_nil
  | false =>
      obtain ⟨start, names, serves, left, served⟩ := servesFrom_of_not_parked passed parked
      have goesOn : done.table.Waiting lock.owner ↔ table.Waiting lock.owner ∧
          lock.owner ∉ done.served.map fun request => request.lock.owner :=
        single.waiting_of_not_parked passed parked
      cases asked with
      | @waits request queued asks =>
          rw [queueOf_of_not_parked sound passed parked, List.mem_append, List.mem_filter] at queued
          rcases queued with ⟨granted, _⟩ | stays
          · refine .granted ?_ ?_
            · intro waits
              exact (goesOn.mp waits).2 (List.mem_map.mpr ⟨request, granted, congrArg _ asks⟩)
            · rw [left, ← asks]
              rw [served] at granted
              exact (single.servesFrom serves).granted_of_served (sound.servesFrom serves)
                (served_drain start names) granted
          · exact .waits stays asks
      | granted idle held =>
          refine .granted (fun waits => idle (goesOn.mp waits).1) ?_
          refine sound.mem_granted_call passed apart (fun member => idle ?_) held
          obtain ⟨request, granted, owned⟩ := List.mem_map.mp member
          obtain ⟨name, stood⟩ := queued_of_served passed granted
          exact ⟨name, request, stood, owned⟩

/-- What a parked call asks for waits. -/
theorem asked_of_parked (passed : table.call owner call = .ok done) (parked : done.parked = true) :
    done.table.Asked (call.lock owner) := by
  obtain ⟨request, side, poses, left, _⟩ := enqueued_of_parked passed parked
  have queued : request ∈ done.table.queueOf (call.lock owner).name := by
    rw [left]
    exact mem_queueOf_enqueue.mpr (Or.inl ⟨rfl, congrArg Lock.name poses.lock_eq.symm⟩)
  exact .waits queued poses.lock_eq

end Table

/-! ### Flags -/

namespace System

theorem isBlocked_modify (system : System) (changed owner : TransactionId)
    (change : Handle → Handle) :
    isBlocked { system with handles := system.handles.modify changed change } owner = true ↔
      if changed = owner then
        ∃ handle, system.handles[owner]? = some handle ∧ (change handle).blocked = true
      else system.isBlocked owner = true := by
  rw [isBlocked_iff, getElem?_modify_handle]
  split
  · simp [Option.map_eq_some_iff]
  · exact isBlocked_iff.symm

/-- A call that is parked raises the flag of its owner, and no section touches another flag. -/
theorem isBlocked_enter {system : System} {owner : TransactionId} (known : owner ∈ system.handles)
    (done : Section) (other : TransactionId) :
    (system.enter owner done).isBlocked other = true ↔
      done.parked = true ∧ owner = other ∨ system.isBlocked other = true := by
  cases parked : done.parked with
  | false =>
      rw [isBlocked_iff, isBlocked_iff, enter, parked]
      simp
  | true =>
      have changed : (system.enter owner done).isBlocked other =
          isBlocked { system with handles := system.handles.modify owner Handle.prepareBlock }
            other := by
        rw [isBlocked, isBlocked, enter, parked]
        rfl
      rw [changed, isBlocked_modify]
      split
      · next same =>
          subst same
          obtain ⟨handle, found⟩ := Option.isSome_iff_exists.mp
            (Std.ExtTreeMap.isSome_getElem?_iff_mem.mpr known)
          refine iff_of_true ⟨handle, found, ?_⟩ (Or.inl ⟨rfl, rfl⟩)
          cases handle <;> rfl
      · next apart => simp [apart]

/-- A wake-up lowers the flag of one transaction and leaves the others. -/
theorem isBlocked_wake (system : System) (request : Request) (owner : TransactionId) :
    (system.wake [request]).isBlocked owner = true ↔
      request.waiter ≠ owner ∧ system.isBlocked owner = true := by
  have woken : system.wake [request] =
      { system with handles := system.handles.modify request.waiter Handle.unblock } := rfl
  rw [woken, isBlocked_modify]
  split
  · next same =>
      refine iff_of_false ?_ (fun both => both.1 same)
      intro ⟨handle, _, up⟩
      cases handle <;> cases up
  · next apart => simp [apart]

/-- All handles are gates. -/
def OnlyGates (system : System) : Prop :=
  ∀ (owner : TransactionId) (handle : Handle), system.handles[owner]? = some handle →
    ∃ gate, handle = .suspending gate

namespace OnlyGates

variable {system : System} (onlyGates : system.OnlyGates)
include onlyGates

/-- Whoever blocks at a gate stays blocked if the flag is up, and returns at once if it is down. -/
theorem block_eq (owner : TransactionId) :
    system.block owner = (if system.isBlocked owner then .suspended else .returned, system) := by
  cases found : system.handles[owner]? with
  | none => simp only [block, isBlocked, found, Bool.false_eq_true, if_false]
  | some handle =>
      obtain ⟨gate, rfl⟩ := onlyGates owner handle found
      have same : system.handles.insert owner (.suspending gate) = system.handles := by
        apply Std.ExtTreeMap.ext_getElem?
        intro other
        rw [Std.ExtTreeMap.getElem?_insert]
        split
        · next equal => rw [← Std.LawfulEqCmp.eq_of_compare equal, found]
        · rfl
      cases up : gate.blocked with
      | true => simp only [block, isBlocked, found, Handle.block?, Handle.blocked, up, if_true]
      | false =>
          simp only [block, isBlocked, found, Handle.block?, Handle.blocked, up, same,
            Bool.false_eq_true, if_false]

theorem modify (changed : TransactionId) {change : Handle → Handle}
    (keeps : ∀ gate, ∃ after, change (.suspending gate) = .suspending after) :
    OnlyGates { system with handles := system.handles.modify changed change } := by
  intro owner handle found
  rw [getElem?_modify_handle] at found
  split at found
  · obtain ⟨before, stood, rfl⟩ := Option.map_eq_some_iff.mp found
    obtain ⟨gate, rfl⟩ := onlyGates owner before stood
    exact keeps gate
  · exact onlyGates owner handle found

theorem enter (owner : TransactionId) (done : Section) : (system.enter owner done).OnlyGates := by
  intro other handle found
  rw [System.enter] at found
  split at found
  · exact onlyGates.modify owner (fun _ => ⟨_, rfl⟩) other handle found
  · exact onlyGates other handle found

theorem wake (request : Request) : (system.wake [request]).OnlyGates :=
  onlyGates.modify request.waiter fun _ => ⟨_, rfl⟩

end OnlyGates

/-- If all handles are new gates, this stays so when transactions are given such a handle. -/
theorem newGates_enrol {config : Config} (owners : List TransactionId) (system : System)
    (store : system.store = .fresh config)
    (new : ∀ (owner : TransactionId) (handle : Handle), system.handles[owner]? = some handle →
      handle = .newGate) :
    let staffed := owners.foldl (fun system owner => system.enrol owner .newGate) system
    staffed.store = .fresh config ∧
      ∀ (owner : TransactionId) (handle : Handle), staffed.handles[owner]? = some handle →
        handle = .newGate := by
  induction owners generalizing system with
  | nil => exact ⟨store, new⟩
  | cons first rest inductionHypothesis =>
      apply inductionHypothesis
      · exact store
      · intro owner handle found
        have found : (system.handles.insertIfNew first .newGate)[owner]? = some handle := found
        rw [Std.ExtTreeMap.getElem?_insertIfNew] at found
        split at found
        · exact (Option.some.inj found).symm
        · exact new owner handle found

end System

/-! ### Threads in step -/

namespace Threads

variable {threads : Threads}

/-- What every step keeps up. -/
structure InStep (threads : Threads) : Prop where
  sound : threads.system.store.table.Sound
  single : threads.system.store.table.SingleFile
  onlyGates : threads.system.OnlyGates
  /-- No transaction is to be woken by two others. -/
  once : ∀ owner first second, (threads.phase first).Owes owner →
    (threads.phase second).Owes owner → first = second
  /-- No transaction is to be woken twice by another one. -/
  nodup : ∀ owner, ((threads.phase owner).left.map Request.waiter).Nodup
  /-- Whoever is to be woken waits no longer. -/
  granted : ∀ owner, threads.AwaitsWakeup owner → ¬threads.system.store.table.Waiting owner
  /-- Whoever is not in a parked call neither waits nor is to be woken. -/
  resting : ∀ owner, (threads.phase owner).parked? = none →
    ¬threads.system.store.table.Waiting owner ∧ ¬threads.AwaitsWakeup owner
  /-- Whoever is in a parked call has nobody to wake. -/
  alone : ∀ owner call, (threads.phase owner).parked? = some call → (threads.phase owner).left = []
  asked : ∀ owner call, (threads.phase owner).parked? = some call →
    threads.system.store.table.Asked (call.lock owner)
  flagged : ∀ owner, threads.system.isBlocked owner = true ↔
    threads.system.store.table.Waiting owner ∨ threads.AwaitsWakeup owner

/-- Who is to be woken once a transaction has got further. -/
theorem awaitsWakeup_proceed (owner : TransactionId) (phase : Phase) (system : System)
    {other : TransactionId} :
    (threads.proceed owner phase system).AwaitsWakeup other ↔
      phase.Owes other ∨ ∃ third, third ≠ owner ∧ (threads.phase third).Owes other := by
  constructor
  · intro ⟨third, owes⟩
    by_cases same : third = owner
    · subst same
      rw [phase_proceed_self] at owes
      exact Or.inl owes
    · rw [phase_proceed_other same] at owes
      exact Or.inr ⟨third, same, owes⟩
  · intro owes
    rcases owes with owes | ⟨third, apart, owes⟩
    · refine ⟨owner, ?_⟩
      rw [phase_proceed_self]
      exact owes
    · refine ⟨third, ?_⟩
      rw [phase_proceed_other apart]
      exact owes

/-- Who is to be woken is to be woken by a given transaction or by another one. -/
theorem awaitsWakeup_iff (owner : TransactionId) {other : TransactionId} :
    threads.AwaitsWakeup other ↔ (threads.phase owner).Owes other ∨
      ∃ third, third ≠ owner ∧ (threads.phase third).Owes other := by
  have same : threads.proceed owner (threads.phase owner) threads.system = threads := by
    rw [proceed, Function.update_eq_self]
  rw [← awaitsWakeup_proceed owner _ threads.system, same]

theorem not_owes_of_left {phase : Phase} (nobody : phase.left = []) (owner : TransactionId) :
    ¬phase.Owes owner := by
  intro ⟨request, member, _⟩
  rw [nobody] at member
  cases member

namespace InStep

/-- Everybody is in step at the start. -/
theorem opened (config : Config) (owners : List TransactionId) :
    (Threads.opened config owners).InStep := by
  obtain ⟨store, new⟩ := System.newGates_enrol owners (.fresh config) rfl (by simp [System.fresh])
  have table : (Threads.opened config owners).system.store.table = .empty := by
    rw [Threads.opened, store, Store.fresh]
  have nobody : ∀ owner, ¬(Threads.opened config owners).AwaitsWakeup owner := by
    intro owner awaits
    obtain ⟨other, request, member, _⟩ := awaits
    cases member
  constructor
  case sound =>
    rw [table]
    exact .empty
  case single =>
    rw [table]
    exact .empty
  case onlyGates => exact fun owner handle found => ⟨_, new owner handle found⟩
  case once => exact fun owner first _ owes => absurd ⟨first, owes⟩ (nobody owner)
  case nodup => exact fun _ => List.nodup_nil
  case granted => exact fun owner awaits => absurd awaits (nobody owner)
  case resting =>
    intro owner _
    rw [table]
    exact ⟨Table.not_waiting_empty owner, nobody owner⟩
  case alone => simp [Threads.opened, Phase.parked?]
  case asked => simp [Threads.opened, Phase.parked?]
  case flagged =>
    intro owner
    rw [table]
    refine iff_of_false ?_ (not_or.mpr ⟨Table.not_waiting_empty owner, nobody owner⟩)
    intro up
    obtain ⟨handle, found, blocked⟩ := System.isBlocked_iff.mp up
    rw [new owner handle found] at blocked
    cases blocked

variable (inStep : threads.InStep) {owner : TransactionId}
include inStep

/-- A transaction gets further without a section: the table stays, and it has nobody new to wake. -/
theorem proceed {phase : Phase} {system : System} (store : system.store = threads.system.store)
    (onlyGates : system.OnlyGates) (fewer : phase.left.Sublist (threads.phase owner).left)
    (resting : phase.parked? = none →
      ¬threads.system.store.table.Waiting owner ∧ ¬threads.AwaitsWakeup owner)
    (parked : ∀ call, phase.parked? = some call →
      phase.left = [] ∧ threads.system.store.table.Asked (call.lock owner))
    (flagged : ∀ other, system.isBlocked other = true ↔ threads.system.store.table.Waiting other ∨
      (threads.proceed owner phase system).AwaitsWakeup other) :
    (threads.proceed owner phase system).InStep := by
  let after := threads.proceed owner phase system
  have table : after.system.store = threads.system.store := store
  have before : ∀ other third, (after.phase third).Owes other →
      (threads.phase third).Owes other := by
    intro other
    apply forall_phase_proceed fun third phase =>
      phase.Owes other → (threads.phase third).Owes other
    · intro owes
      obtain ⟨request, member, woken⟩ := owes
      exact ⟨request, fewer.subset member, woken⟩
    · exact fun _ _ owes => owes
  have stillRests : ∀ other,
      ¬threads.system.store.table.Waiting other ∧ ¬threads.AwaitsWakeup other →
      ¬after.system.store.table.Waiting other ∧ ¬after.AwaitsWakeup other := by
    intro other rests
    rw [table]
    apply rests.imp_right
    intro nobody awaits
    obtain ⟨third, owes⟩ := awaits
    exact nobody ⟨third, before other third owes⟩
  constructor
  case sound =>
    rw [table]
    exact inStep.sound
  case single =>
    rw [table]
    exact inStep.single
  case onlyGates => exact onlyGates
  case once =>
    intro other first second firstOwes secondOwes
    exact inStep.once other first second (before _ _ firstOwes) (before _ _ secondOwes)
  case nodup =>
    exact forall_phase_proceed (fun _ phase => (phase.left.map Request.waiter).Nodup)
      ((fewer.map _).nodup (inStep.nodup owner)) fun other _ => inStep.nodup other
  case granted =>
    intro other awaits
    obtain ⟨third, owes⟩ := awaits
    rw [table]
    exact inStep.granted other ⟨third, before other third owes⟩
  case resting =>
    apply forall_phase_proceed fun third phase => phase.parked? = none →
      ¬after.system.store.table.Waiting third ∧ ¬after.AwaitsWakeup third
    · exact fun free => stillRests owner (resting free)
    · exact fun other _ free => stillRests other (inStep.resting other free)
  case alone =>
    exact forall_phase_proceed (fun _ phase => ∀ call, phase.parked? = some call → phase.left = [])
      (fun call suspended => (parked call suspended).1) fun other _ => inStep.alone other
  case asked =>
    rw [table]
    exact forall_phase_proceed (fun third phase => ∀ call, phase.parked? = some call →
        threads.system.store.table.Asked (call.lock third))
      (fun call suspended => (parked call suspended).2) fun other _ => inStep.asked other
  case flagged =>
    rw [table]
    exact flagged

/-- A transaction gets further that has nobody to wake, and the manager stays as it is. -/
theorem rephase {phase : Phase} (nobody : (threads.phase owner).left = [])
    (left : phase.left = [])
    (resting : phase.parked? = none →
      ¬threads.system.store.table.Waiting owner ∧ ¬threads.AwaitsWakeup owner)
    (parked : ∀ call, phase.parked? = some call →
      threads.system.store.table.Asked (call.lock owner)) :
    (threads.proceed owner phase threads.system).InStep := by
  refine inStep.proceed rfl inStep.onlyGates ?_ resting
    (fun call asks => ⟨left, parked call asks⟩) ?_
  · rw [left, nobody]
  · intro other
    rw [inStep.flagged, awaitsWakeup_proceed, awaitsWakeup_iff owner]
    simp only [not_owes_of_left left, not_owes_of_left nobody]

section

variable {call : Call} {request : Request} {left : List Request} {parked : Bool}
  (waking : threads.phase owner = .waking call (request :: left) parked)
include waking

/-- Once a wake-up is delivered, it is no longer to come, and nobody else was to deliver it. -/
theorem awaitsWakeup_delivered {system : System} {other : TransactionId} :
    (threads.proceed owner (.waking call left parked) system).AwaitsWakeup other ↔
      request.waiter ≠ other ∧ threads.AwaitsWakeup other := by
  have nodup := inStep.nodup owner
  rw [waking, Phase.left, List.map_cons, List.nodup_cons] at nodup
  have owes : (threads.phase owner).Owes request.waiter :=
    ⟨request, by rw [waking]; exact List.mem_cons_self, rfl⟩
  rw [awaitsWakeup_proceed, awaitsWakeup_iff owner]
  constructor
  · intro later
    rcases later with ⟨second, member, woken⟩ | ⟨third, apart, thirdOwes⟩
    · refine ⟨fun same => nodup.1 (List.mem_map.mpr ⟨second, member, woken.trans same.symm⟩),
        Or.inl ⟨second, ?_, woken⟩⟩
      rw [waking]
      exact List.mem_cons_of_mem request member
    · refine ⟨fun same => apart ?_, Or.inr ⟨third, apart, thirdOwes⟩⟩
      exact inStep.once other third owner thirdOwes (same ▸ owes)
  · intro both
    obtain ⟨apart, before⟩ := both
    rcases before with ⟨second, member, woken⟩ | elsewhere
    · rw [waking] at member
      rcases List.mem_cons.mp member with rfl | member
      · exact absurd woken apart
      · exact Or.inl ⟨second, member, woken⟩
    · exact Or.inr elsewhere

/-- A wake-up is delivered. -/
theorem deliver :
    (threads.proceed owner (.waking call left parked) (threads.system.wake [request])).InStep := by
  have unparked : ∀ asked, (threads.phase owner).parked? ≠ some asked := by
    intro asked suspended
    have nobody := inStep.alone owner asked suspended
    rw [waking] at nobody
    cases nobody
  have resting := inStep.resting owner (Option.eq_none_iff_forall_ne_some.mpr unparked)
  have owes : threads.AwaitsWakeup request.waiter :=
    ⟨owner, request, by rw [waking]; exact List.mem_cons_self, rfl⟩
  refine inStep.proceed rfl (inStep.onlyGates.wake request) ?_ (fun _ => resting) ?_ ?_
  · rw [waking]
    exact List.sublist_cons_self request left
  · intro asked suspended
    obtain ⟨rfl, _⟩ := Phase.parked?_waking.mp suspended
    exact absurd (by rw [waking]; rfl) (unparked call)
  · intro other
    rw [System.isBlocked_wake, inStep.flagged, inStep.awaitsWakeup_delivered waking]
    -- The one who is woken has been granted its request and waits no longer.
    have granted := inStep.granted request.waiter owes
    constructor
    · intro both
      exact both.2.imp_right fun awaits => ⟨both.1, awaits⟩
    · intro after
      rcases after with waits | ⟨apart, awaits⟩
      · exact ⟨fun same => granted (same ▸ waits), Or.inl waits⟩
      · exact ⟨apart, Or.inr awaits⟩

end

section

variable {call : Call} {done : Section}
  (passed : threads.system.store.table.call owner call = .ok done)
include passed

theorem waiter_of_served {request : Request} (member : request ∈ done.served) :
    request.waiter = request.lock.owner := by
  obtain ⟨name, stands⟩ := Table.queued_of_served passed member
  exact (inStep.sound.coherent name request stands).waiter_eq

/-- Whoever is served in a section has waited, and nobody else is about to wake it. -/
theorem waited_of_served {other : TransactionId}
    (served : other ∈ done.served.map fun request => request.lock.owner) :
    threads.system.store.table.Waiting other ∧ ¬threads.AwaitsWakeup other := by
  obtain ⟨request, member, rfl⟩ := List.mem_map.mp served
  obtain ⟨name, stands⟩ := Table.queued_of_served passed member
  have waits : threads.system.store.table.Waiting request.lock.owner := ⟨name, request, stands, rfl⟩
  exact ⟨waits, fun awaits => inStep.granted _ awaits waits⟩

theorem owes_served {parked : Bool} {other : TransactionId} :
    Phase.Owes (.waking call done.served parked) other ↔
      other ∈ done.served.map fun request => request.lock.owner := by
  rw [List.mem_map]
  constructor
  · intro ⟨request, member, woken⟩
    exact ⟨request, member, (inStep.waiter_of_served passed member).symm.trans woken⟩
  · intro ⟨request, member, owned⟩
    exact ⟨request, member, (inStep.waiter_of_served passed member).trans owned⟩

/-- After a section, whoever is to be woken is served in it and to be woken by its owner, or is not
served and to be woken by somebody as before. -/
theorem owes_served_or {parked : Bool} {system : System} {other third : TransactionId}
    (owes : ((threads.proceed owner (.waking call done.served parked) system).phase third).Owes
      other) :
    (other ∈ done.served.map fun request => request.lock.owner) ∧ third = owner ∨
      other ∉ (done.served.map fun request => request.lock.owner) ∧
        (threads.phase third).Owes other := by
  by_cases same : third = owner
  · subst same
    rw [phase_proceed_self, inStep.owes_served passed] at owes
    exact Or.inl ⟨owes, rfl⟩
  · rw [phase_proceed_other same] at owes
    exact Or.inr ⟨fun member => (inStep.waited_of_served passed member).2 ⟨third, owes⟩, owes⟩

theorem once_served {parked : Bool} {system : System} {other first second : TransactionId}
    (firstOwes : ((threads.proceed owner (.waking call done.served parked) system).phase
      first).Owes other)
    (secondOwes : ((threads.proceed owner (.waking call done.served parked) system).phase
      second).Owes other) : first = second := by
  rcases inStep.owes_served_or passed firstOwes with ⟨member, isFirst⟩ | ⟨absent, firstOwed⟩
  · rcases inStep.owes_served_or passed secondOwes with ⟨_, isSecond⟩ | ⟨absent, _⟩
    · exact isFirst.trans isSecond.symm
    · exact absurd member absent
  · rcases inStep.owes_served_or passed secondOwes with ⟨member, _⟩ | ⟨_, secondOwed⟩
    · exact absurd member absent
    · exact inStep.once other first second firstOwed secondOwed

/-- After a section, those are to be woken who are served in it and those who were before. -/
theorem awaitsWakeup_served {parked : Bool} {system : System}
    (nobody : (threads.phase owner).left = []) {other : TransactionId} :
    (threads.proceed owner (.waking call done.served parked) system).AwaitsWakeup other ↔
      other ∈ (done.served.map fun request => request.lock.owner) ∨
        threads.AwaitsWakeup other := by
  rw [awaitsWakeup_proceed, awaitsWakeup_iff owner, inStep.owes_served passed]
  simp only [not_owes_of_left nobody, false_or]

/-- Whoever neither waits nor is to be woken stays so in a section, unless it is parked itself. -/
theorem resting_served {parked : Bool} {system : System}
    (nobody : (threads.phase owner).left = []) {other : TransactionId}
    (rests : ¬threads.system.store.table.Waiting other ∧ ¬threads.AwaitsWakeup other)
    (goesOn : ¬(done.parked = true ∧ owner = other)) :
    ¬done.table.Waiting other ∧
      ¬(threads.proceed owner (.waking call done.served parked) system).AwaitsWakeup other := by
  rw [inStep.single.waiting_call passed, inStep.awaitsWakeup_served passed nobody]
  constructor
  · intro waits
    rcases waits with itself | ⟨before, _⟩
    · exact goesOn itself
    · exact rests.1 before
  · intro awaits
    rcases awaits with member | before
    · exact rests.1 (inStep.waited_of_served passed member).1
    · exact rests.2 before

end

/-- A transaction carries out the section of a call. -/
theorem enter {call : Call} {done : Section} (idle : threads.phase owner = .idle)
    (known : owner ∈ threads.system.handles)
    (passed : threads.system.store.table.call owner call = .ok done) :
    (threads.proceed owner (.waking call done.served done.parked)
      (threads.system.enter owner done)).InStep := by
  let after := threads.proceed owner (.waking call done.served done.parked)
    (threads.system.enter owner done)
  have rests := inStep.resting owner (by rw [idle]; rfl)
  have nobody : (threads.phase owner).left = [] := by
    rw [idle]
    rfl
  have awaits : ∀ other, after.AwaitsWakeup other ↔
      other ∈ (done.served.map fun request => request.lock.owner) ∨
        threads.AwaitsWakeup other :=
    fun other => inStep.awaitsWakeup_served passed nobody
  have waits : ∀ other, done.table.Waiting other ↔ done.parked = true ∧ owner = other ∨
      threads.system.store.table.Waiting other ∧
        other ∉ done.served.map fun request => request.lock.owner :=
    fun other => inStep.single.waiting_call passed
  constructor
  case sound => exact inStep.sound.call passed
  case single => exact inStep.single.after_call rests.1 passed
  case onlyGates => exact inStep.onlyGates.enter owner done
  case once => exact fun _ _ _ firstOwes => inStep.once_served passed firstOwes
  case nodup =>
    apply forall_phase_proceed fun _ phase => (phase.left.map Request.waiter).Nodup
    · rw [Phase.left, List.map_congr_left fun request => inStep.waiter_of_served passed]
      exact inStep.single.nodup_served_call passed
    · exact fun other _ => inStep.nodup other
  case granted =>
    intro other awaited waiting
    rcases (waits other).mp waiting with ⟨parked, rfl⟩ | ⟨before, notServed⟩
    · rcases (awaits owner).mp awaited with member | awaited
      · exact rests.1 (inStep.waited_of_served passed member).1
      · exact rests.2 awaited
    · exact inStep.granted other (((awaits other).mp awaited).resolve_left notServed) before
  case resting =>
    apply forall_phase_proceed fun third phase => phase.parked? = none →
      ¬done.table.Waiting third ∧ ¬after.AwaitsWakeup third
    · intro free
      apply inStep.resting_served passed nobody rests
      intro itself
      rw [Phase.parked?_waking.mpr ⟨itself.1, rfl⟩] at free
      cases free
    · intro other apart free
      exact inStep.resting_served passed nobody (inStep.resting other free) fun itself =>
        apart itself.2.symm
  case alone =>
    apply forall_phase_proceed fun _ phase => ∀ call, phase.parked? = some call → phase.left = []
    · intro _ suspended
      have parked := (Phase.parked?_waking.mp suspended).1
      obtain ⟨_, _, _, _, nobodyServed⟩ := Table.enqueued_of_parked passed parked
      exact nobodyServed
    · exact fun other _ => inStep.alone other
  case asked =>
    apply forall_phase_proceed fun third phase => ∀ call, phase.parked? = some call →
      done.table.Asked (call.lock third)
    · intro _ suspended
      obtain ⟨parked, rfl⟩ := Phase.parked?_waking.mp suspended
      exact Table.asked_of_parked passed parked
    · intro other apart suspended parked
      have notOwn : (suspended.lock other).owner ≠ owner := by
        cases suspended <;> exact apart
      have asked := inStep.asked other suspended parked
      exact asked.after_call inStep.sound inStep.single passed notOwn
  case flagged =>
    intro other
    show (threads.system.enter owner done).isBlocked other = true ↔ done.table.Waiting other ∨ _
    rw [System.isBlocked_enter known, inStep.flagged, waits, awaits]
    -- Whoever is served has waited before and is to be woken now.
    by_cases member : other ∈ done.served.map fun request => request.lock.owner
    · simp only [member, (inStep.waited_of_served passed member).1, true_or, or_true]
    · simp only [member, not_false_eq_true, and_true, false_or, or_assoc]

/-- Whatever step is taken, everybody stays in step. -/
theorem step (taken : Step) : (threads.step taken).InStep := by
  have moved := threads.moved_step taken
  generalize threads.step taken = after at moved
  cases moved with
  | stayed => exact inStep
  | entered idle known passed => exact inStep.enter idle known passed
  | delivered waking => exact inStep.deliver waking
  | blocked waking =>
      refine inStep.rephase (by rw [waking]; rfl) rfl nofun fun call asks => ?_
      cases asks
      exact inStep.asked _ _ (by rw [waking]; rfl)
  | returned waking =>
      refine inStep.rephase (by rw [waking]; rfl) rfl (fun _ => ?_) nofun
      exact inStep.resting _ (by rw [waking]; rfl)
  | @resumed owner call system blocked free =>
      rw [inStep.onlyGates.block_eq, Prod.mk.injEq] at free
      obtain ⟨down, rfl⟩ := free
      refine inStep.rephase (by rw [blocked]; rfl) rfl (fun _ => ?_) nofun
      have unflagged : ¬threads.system.isBlocked owner = true := by
        intro up
        rw [if_pos up] at down
        cases down
      rw [inStep.flagged, not_or] at unflagged
      exact unflagged

theorem after (steps : List Step) : (threads.after steps).InStep := by
  induction steps generalizing threads with
  | nil => exact inStep
  | cons taken steps inductionHypothesis => exact inductionHypothesis (inStep.step taken)

end InStep

/-- Whether the call of a transaction is over once the transaction has blocked and left. -/
def CanReturn (threads : Threads) (owner : TransactionId) : Prop :=
  (threads.after [.block owner, .leave owner]).phase owner = .idle

/-- Whoever is in a parked call can return from it just when its flag is down. -/
theorem canReturn_iff (inStep : threads.InStep) {owner : TransactionId} {call : Call}
    (parked : (threads.phase owner).parked? = some call) :
    threads.CanReturn owner ↔ threads.system.isBlocked owner = false := by
  have nobody := inStep.alone owner call parked
  rw [CanReturn, (block_leave parked nobody).2, inStep.onlyGates.block_eq]
  cases threads.system.isBlocked owner <;> simp

/-- The two-phase suspension loses no wake-up and lets nobody go too early.  Let any transactions
carry out the sections of their calls, deliver the wake-ups, block and return, each in this order
and all of them mixed in any order.  Then the flag of a transaction is up exactly while it has a
request in a queue, or a request that has been granted but whose wake-up is not yet delivered.  For
a transaction in a call that was parked, whether it has blocked yet or not: either its request for
the lock that the call asks for waits, or the lock is granted; and it can return just when the lock
is granted and the wake-up delivered. -/
theorem suspended_iff_after (config : Config) (owners : List TransactionId) (steps : List Step) :
    let threads := (opened config owners).after steps
    let table := threads.system.store.table
    ∀ owner,
      (threads.system.isBlocked owner = true ↔
        table.Waiting owner ∨ threads.AwaitsWakeup owner) ∧
      ∀ call, (threads.phase owner).parked? = some call →
        let lock := call.lock owner
        (table.Waiting owner ↔ ∃ request ∈ table.queueOf lock.name, request.lock = lock) ∧
        (¬table.Waiting owner → lock ∈ (table.entry lock.name).granted) ∧
        (threads.CanReturn owner ↔ ¬table.Waiting owner ∧ ¬threads.AwaitsWakeup owner) := by
  intro threads table owner
  have inStep : threads.InStep := (InStep.opened config owners).after steps
  refine ⟨inStep.flagged owner, fun call parked => ?_⟩
  intro lock
  have owned : lock.owner = owner := by cases call <;> rfl
  have asked : table.Asked lock := inStep.asked owner call parked
  refine ⟨?_, ?_, ?_⟩
  · constructor
    · intro waits
      cases asked with
      | waits queued asks => exact ⟨_, queued, asks⟩
      | granted idle => exact absurd (owned ▸ waits) idle
    · intro ⟨request, queued, asks⟩
      exact ⟨lock.name, request, queued, asks ▸ owned⟩
  · intro idle
    cases asked with
    | @waits request queued asks =>
        exact absurd ⟨lock.name, request, queued, asks ▸ owned⟩ idle
    | granted _ held => exact held
  · rw [canReturn_iff inStep parked, ← not_or, ← inStep.flagged, Bool.not_eq_true]

end Threads

end Granularity
