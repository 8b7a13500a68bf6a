import Granularity.Proofs.Table.Served

/-!
What a call that passes its checks can do.

Acquiring, promoting and exchanging come down to one request, which `Table.Poses` reads off the
call; the request is granted at once or waits at one end of its queue.  Releasing takes a lock off.
`Table.Passes` lists these three outcomes with everything that was checked, and no later proof opens
the calls themselves.
-/

namespace Granularity

/-- The lock that a call asks for; a release asks for none, and its mode is `NL`. -/
def Call.lock (owner : TransactionId) : Call → Lock
  | .acquire name mode | .promote name mode | .exchange name mode _ => ⟨name, mode, owner⟩
  | .release name => ⟨name, .NL, owner⟩

namespace Table

/-- The request that a call comes down to when it passes its checks, and the end of the queue at
which it waits if it has to. -/
inductive Poses (table : Table) (owner : TransactionId) : Call → Request → QueueEnd → Prop where
  | acquire {name : ResourceName} {mode : Mode} (free : table.modeOf owner name = .NL)
      (locked : mode ≠ .NL) :
      Poses table owner (.acquire name mode) ⟨owner, ⟨name, mode, owner⟩, []⟩ .back
  | promote {name : ResourceName} {mode : Mode} (held : table.modeOf owner name ≠ .NL)
      (raised : table.modeOf owner name ≠ mode)
      (covered : Mode.covers mode (table.modeOf owner name) = true) :
      Poses table owner (.promote name mode) ⟨owner, ⟨name, mode, owner⟩, []⟩ .front
  | exchange {name : ResourceName} {mode : Mode} {released : List ResourceName}
      {locks : List Lock} (listed : table.modeOf owner name ≠ .NL → name ∈ released)
      (held : table.locksOn owner released.eraseDups = .ok locks) (locked : mode ≠ .NL) :
      Poses table owner (.exchange name mode released) ⟨owner, ⟨name, mode, owner⟩, locks⟩ .front

/-- The request finds room, and nobody waits ahead of it if it would join the back. -/
def Admits (table : Table) (request : Request) (side : QueueEnd) : Prop :=
  (table.entry request.lock.name).hasRoom request = true ∧
    (side = .back → table.queueOf request.lock.name = [])

/-- What a call that passed its checks has done. -/
inductive Passes (table : Table) (owner : TransactionId) (call : Call) (done : Section) : Prop where
  | released {name : ResourceName} {lock : Lock} {fewer : Table} (called : call = .release name)
      (removed : table.remove owner name = some (lock, fewer))
      (left : done.table = (fewer.drain [name]).1) (served : done.served = (fewer.drain [name]).2)
      (free : done.parked = false)
  | granted {request : Request} {side : QueueEnd} (poses : table.Poses owner call request side)
      (admits : table.Admits request side)
      (left : done.table = ((table.apply request).1.drain (table.freedBy request)).1)
      (served : done.served = ((table.apply request).1.drain (table.freedBy request)).2)
      (free : done.parked = false)
  | parked {request : Request} {side : QueueEnd} (poses : table.Poses owner call request side)
      (full : ¬table.Admits request side) (left : done.table = table.enqueue request side)
      (served : done.served = []) (waits : done.parked = true)

/-! ### Locks on several names -/

/-- The locks found on some names stand on these names, in their order. -/
theorem locksOn_eq_ok {table : Table} {owner : TransactionId} :
    ∀ {names : List ResourceName} {locks : List Lock}, table.locksOn owner names = .ok locks →
      locks.map Lock.name = names ∧
        ∀ lock ∈ locks, table.lockOf? owner lock.name = some lock
  | [], locks, found => by
      rw [locksOn] at found
      cases found
      simp
  | name :: names, locks, found => by
      rw [locksOn] at found
      cases first : table.lockOf? owner name with
      | none => simp [first] at found
      | some lock =>
          have named : lock.name = name := by
            have hit := List.find?_some first
            simpa using hit
          cases others : table.locksOn owner names with
          | error refusal => simp [first, others, Except.map] at found
          | ok rest =>
              simp only [first, others, Except.map, Except.ok.injEq] at found
              subst found
              obtain ⟨restNames, restFound⟩ := locksOn_eq_ok others
              refine ⟨by rw [List.map_cons, named, restNames], ?_⟩
              intro held member
              rcases List.mem_cons.mp member with rfl | member
              · rw [named]
                exact first
              · exact restFound held member

variable {table : Table} {owner : TransactionId}

namespace Poses

variable {call : Call} {request : Request} {side : QueueEnd}

theorem lock_eq (poses : table.Poses owner call request side) : request.lock = call.lock owner := by
  cases poses <;> rfl

theorem owner_eq (poses : table.Poses owner call request side) : request.lock.owner = owner := by
  cases poses <;> rfl

theorem locked (poses : table.Poses owner call request side) : request.lock.mode ≠ .NL := by
  cases poses with
  | acquire _ locked => exact locked
  | promote held raised covered =>
      rintro (rfl : _ = Mode.NL)
      cases held (Mode.eq_NL_of_covers_NL covered)
  | exchange _ _ locked => exact locked

/-- The locks to give up are the caller's own. -/
theorem released_held (poses : table.Poses owner call request side) :
    ∀ lock ∈ request.released, table.lockOf? owner lock.name = some lock := by
  cases poses with
  | acquire => simp
  | promote => simp
  | exchange _ held => exact (locksOn_eq_ok held).2

theorem coherent (poses : table.Poses owner call request side) (sound : table.Sound) :
    request.Coherent where
  waiter_eq := by cases poses <;> rfl
  released_owner := by
    intro lock member
    obtain ⟨held, _⟩ := sound.lockOf?_eq_some.mp (poses.released_held lock member)
    rw [poses.owner_eq]
    exact (sound.mem_locksOf_iff.mp held).1

end Poses

/-! ### The calls -/

theorem passes_acquire {name : ResourceName} {mode : Mode} {done : Section}
    (passed : table.acquire owner name mode = .ok done) :
    table.Passes owner (.acquire name mode) done := by
  rw [acquire] at passed
  by_cases held : table.modeOf owner name = .NL
  · by_cases none : mode = .NL
    · simp [held, none] at passed
    · have poses : table.Poses owner (.acquire name mode) ⟨owner, ⟨name, mode, owner⟩, []⟩ .back :=
        .acquire held none
      simp only [held, ne_eq, not_true_eq_false, if_false, none] at passed
      split at passed
      · next free =>
          rw [Bool.and_eq_true, List.isEmpty_iff] at free
          cases passed
          refine .granted poses ⟨free.2, fun _ => free.1⟩ ?_ ?_ rfl
          · exact (congrArg Prod.fst (drain_nil _)).symm
          · exact (congrArg Prod.snd (drain_nil _)).symm
      · next full =>
          rw [Bool.and_eq_true, List.isEmpty_iff] at full
          cases passed
          exact .parked poses (fun admits => full ⟨admits.2 rfl, admits.1⟩) rfl rfl rfl
  · simp [held] at passed

theorem passes_release {name : ResourceName} {done : Section}
    (passed : table.release owner name = .ok done) : table.Passes owner (.release name) done := by
  rw [release] at passed
  split at passed
  · simp at passed
  · cases removed : table.remove owner name with
    | none => simp [removed] at passed
    | some both =>
        obtain ⟨lock, fewer⟩ := both
        simp only [removed, Except.ok.injEq] at passed
        subst passed
        exact .released rfl removed rfl rfl rfl

theorem passes_promote {name : ResourceName} {mode : Mode} {done : Section}
    (passed : table.promote owner name mode = .ok done) :
    table.Passes owner (.promote name mode) done := by
  rw [promote] at passed
  by_cases held : table.modeOf owner name = .NL
  · simp [held] at passed
  · by_cases same : table.modeOf owner name = mode
    · rw [same] at held
      simp [same, held] at passed
    · by_cases covered : Mode.covers mode (table.modeOf owner name) = true
      · have poses : table.Poses owner (.promote name mode) ⟨owner, ⟨name, mode, owner⟩, []⟩
            .front := .promote held same covered
        simp only [held, same, covered, not_true_eq_false, if_false] at passed
        split at passed
        · next room =>
            cases passed
            refine .granted poses ⟨room, nofun⟩ ?_ ?_ rfl
            · exact (congrArg Prod.fst (drain_nil _)).symm
            · exact (congrArg Prod.snd (drain_nil _)).symm
        · next full =>
            cases passed
            exact .parked poses (fun admits => full admits.1) rfl rfl rfl
      · simp [held, same, covered] at passed

theorem passes_exchange {name : ResourceName} {mode : Mode} {released : List ResourceName}
    {done : Section} (passed : table.exchange owner name mode released = .ok done) :
    table.Passes owner (.exchange name mode released) done := by
  rw [exchange] at passed
  by_cases duplicate : table.modeOf owner name ≠ .NL ∧ name ∉ released.eraseDups
  · simp [duplicate] at passed
  · cases held : table.locksOn owner released.eraseDups with
    | error refusal => simp only [duplicate, held, if_false, reduceCtorEq] at passed
    | ok locks =>
        by_cases none : mode = .NL
        · simp only [duplicate, held, none, if_true, if_false, reduceCtorEq] at passed
        · have listed : table.modeOf owner name ≠ .NL → name ∈ released := by
            intro locked
            by_contra missing
            exact duplicate ⟨locked, fun member => missing (List.mem_eraseDups.mp member)⟩
          have poses : table.Poses owner (.exchange name mode released)
              ⟨owner, ⟨name, mode, owner⟩, locks⟩ .front := .exchange listed held none
          simp only [duplicate, held, none, if_false] at passed
          split at passed
          · next room =>
              cases passed
              exact .granted poses ⟨room, nofun⟩ rfl rfl rfl
          · next full =>
              cases passed
              exact .parked poses (fun admits => full admits.1) rfl rfl rfl

/-- A call that passes its checks releases a lock, or grants or parks the request that it poses. -/
theorem passes_call {call : Call} {done : Section} (passed : table.call owner call = .ok done) :
    table.Passes owner call done := by
  cases call with
  | acquire => exact passes_acquire passed
  | release => exact passes_release passed
  | promote => exact passes_promote passed
  | exchange => exact passes_exchange passed

/-! ### Soundness of calls -/

namespace Sound

theorem enqueue (sound : table.Sound) {request : Request} (locked : request.lock.mode ≠ .NL)
    (coherent : request.Coherent) (side : QueueEnd) : (table.enqueue request side).Sound := by
  rw [enqueue_eq]
  refine sound.setQueue fun other member => ?_
  rcases mem_queueWith.mp member with rfl | member
  · exact ⟨locked, rfl, coherent⟩
  · exact sound.queued member

theorem drain (sound : table.Sound) (names : List ResourceName) : (table.drain names).1.Sound :=
  sound.served (served_drain table names)

/-- Every call that passes its checks keeps the table sound. -/
theorem call {call : Call} {done : Section} (sound : table.Sound)
    (passed : table.call owner call = .ok done) : done.table.Sound := by
  cases passes_call passed with
  | released _ removed left =>
      rw [left]
      exact (sound.remove removed).drain _
  | granted poses admits left =>
      rw [left]
      exact (sound.apply poses.locked admits.1).drain _
  | parked poses _ left =>
      rw [left]
      exact sound.enqueue poses.locked (poses.coherent sound) _

end Sound

end Table

end Granularity
