import Granularity.Proofs.Table.Passed

/-!
What a call adds to a resource.

Between two states nothing is added to a resource when every lock granted on it at the end was
granted on it, in the same mode, at the beginning, and nobody waits for it at the end.  Releases and
the service of other queues add nothing; a call adds to the one resource for which it poses a
request, unless the lock that it asks for is there already.
-/

namespace Granularity

/-- A lock that has been granted is among the granted locks. -/
theorem Entry.mem_granted_withLock (entry : Entry) (lock : Lock) :
    lock ∈ (entry.withLock lock).granted := by
  apply List.mem_of_find?_eq_some (p := fun held => held.owner == lock.owner)
  rw [withLock, find?_place Lock.owner, if_pos rfl]

namespace Table

/-- From one state to another no lock is granted on a name or exchanged for another mode, and nobody
waits for the name in the end. -/
def AddsNothing (before after : Table) (name : ResourceName) : Prop :=
  (∀ lock ∈ (after.entry name).granted, lock ∈ (before.entry name).granted) ∧
    after.queueOf name = []

variable {table : Table} {name : ResourceName}

namespace AddsNothing

theorem refl (nobody : table.queueOf name = []) : AddsNothing table table name :=
  ⟨fun _ member => member, nobody⟩

theorem trans {middle after : Table} (first : AddsNothing table middle name)
    (second : AddsNothing middle after name) : AddsNothing table after name :=
  ⟨fun lock member => first.1 lock (second.1 lock member), second.2⟩

/-- A mode that is held afterwards was held before. -/
theorem modeOf_eq {after : Table} (addsNothing : AddsNothing table after name)
    (sound : table.Sound) (soundAfter : after.Sound) {owner : TransactionId}
    (held : after.modeOf owner name ≠ .NL) : table.modeOf owner name = after.modeOf owner name := by
  have granted : after.Grants owner name (after.modeOf owner name) :=
    (soundAfter.grants_iff held).mpr rfl
  exact (sound.grants_iff held).mp (addsNothing.1 _ granted)

end AddsNothing

/-! ### Grants and service elsewhere -/

/-- Granting a request adds nothing to the resources that it does not ask for. -/
theorem addsNothing_apply {request : Request} (elsewhere : request.lock.name ≠ name)
    (nobody : table.queueOf name = []) : AddsNothing table (table.apply request).1 name := by
  refine ⟨fun lock member => ?_, (queueOf_apply request name).trans nobody⟩
  rw [apply_eq, entry_grant, if_neg elsewhere] at member
  exact granted_afterReleases_subset request name lock member

/-- Serving queues adds nothing to a resource for which nobody waits. -/
theorem Served.addsNothing {final : Table} {served : List Request}
    (chain : Served table served final) (sound : table.Sound) (nobody : table.queueOf name = []) :
    AddsNothing table final name := by
  induction chain with
  | nobody => exact .refl nobody
  | @front before _ other request rest _ queued room _ inductionHypothesis =>
      have elsewhere : other ≠ name := by
        rintro rfl
        rw [queued] at nobody
        cases nobody
      have shortened : AddsNothing before (before.setQueue other rest) name := by
        refine ⟨fun lock member => ?_, ?_⟩
        · rwa [granted_setQueue] at member
        · rw [queueOf_setQueue, if_neg elsewhere, nobody]
      have granted := addsNothing_apply ((sound.front queued).2.1 ▸ elsewhere) shortened.2
      have sound := sound.apply_front queued room
      exact (shortened.trans granted).trans (inductionHypothesis sound granted.2)

/-- A call adds nothing to a resource for which it poses no request and nobody waits. -/
theorem Sound.addsNothing_call (sound : table.Sound) {owner : TransactionId} {call : Call}
    {done : Section} (passed : table.call owner call = .ok done) (nobody : table.queueOf name = [])
    (elsewhere : ∀ request side, table.Poses owner call request side →
      request.lock.name ≠ name) : AddsNothing table done.table name := by
  cases passes_call passed with
  | @released other _ fewer _ removed left =>
      have taken : AddsNothing table fewer name := by
        refine ⟨fun lock member => ?_, (queueOf_remove removed name).trans nobody⟩
        rw [entry_remove removed] at member
        split at member
        · exact List.mem_of_mem_eraseP member
        · exact member
      rw [left]
      exact taken.trans ((served_drain _ _).addsNothing (sound.remove removed) taken.2)
  | granted poses admits left =>
      have granted := addsNothing_apply (elsewhere _ _ poses) nobody
      rw [left]
      exact granted.trans
        ((served_drain _ _).addsNothing (sound.apply poses.locked admits.1) granted.2)
  | parked poses _ left =>
      rw [left, enqueue_eq]
      refine ⟨fun lock member => ?_, ?_⟩
      · rwa [granted_setQueue] at member
      · rw [queueOf_setQueue, if_neg (elsewhere _ _ poses), nobody]

/-! ### The request of a call -/

/-- Serving resources for which nobody waits changes nothing. -/
theorem drainFor_of_nobody {names : List ResourceName}
    (nobody : ∀ name ∈ names, table.queueOf name = []) (rounds : Nat) :
    drainFor rounds names table = (table, []) := by
  induction names generalizing rounds with
  | nil => rw [drainFor]
  | cons first names inductionHypothesis =>
      cases rounds with
      | zero => rfl
      | succ rounds =>
          have idle : table.serve first = ⟨table, [], []⟩ := by
            rw [serve, nobody first List.mem_cons_self, serveQueue]
          have rest := inductionHypothesis
            (fun name member => nobody name (List.mem_cons_of_mem first member)) rounds
          rw [drainFor, idle]
          simp only [List.append_nil, rest]

theorem mem_freed (name : ResourceName) {other : ResourceName} :
    ∀ (released : List Lock) (table : Table) (freed : List ResourceName),
      other ∈ (released.foldl (applyRelease name) (table, freed)).2 →
        other ∈ freed ∨ other ∈ released.map Lock.name
  | [], _, _, member => Or.inl member
  | first :: rest, table, freed, member => by
      have marked {earlier : Table}
          (member : other ∈ (rest.foldl (applyRelease name) (earlier, freed ++ [first.name])).2) :
          other ∈ freed ∨ other ∈ (first :: rest).map Lock.name := by
        rcases mem_freed name rest earlier _ member with member | listed
        · rcases List.mem_append.mp member with member | new
          · exact Or.inl member
          · exact Or.inr (List.mem_singleton.mp new ▸ List.mem_cons_self)
        · exact Or.inr (List.mem_cons_of_mem _ listed)
      rw [List.foldl_cons] at member
      rcases applyRelease_cases table name freed first with
        ⟨own, same⟩ | ⟨_, _, same⟩ | ⟨_, _, _, _, same⟩
      · subst own
        rw [same] at member
        exact marked member
      · rw [same] at member
        exact (mem_freed name rest table freed member).imp_right (List.mem_cons_of_mem _)
      · rw [same] at member
        exact marked member

/-- A resource is freed only by a release that the request lists. -/
theorem mem_freedBy {request : Request} (freed : name ∈ table.freedBy request) :
    name ∈ request.released.map Lock.name :=
  (mem_freed request.lock.name request.released table [] freed).resolve_left List.not_mem_nil

/-- A call adds to the resource for which it poses a request, unless the lock is granted already.
Nobody may wait for what the request gives up, since a waiting request of the same transaction might
take the lock away again. -/
theorem Passes.adds {owner : TransactionId} {call : Call} {done : Section}
    (passes : table.Passes owner call done) (asks : ∀ name, call ≠ .release name)
    (nobody : ∀ request side, table.Poses owner call request side →
      ∀ lock ∈ request.released, table.queueOf lock.name = [])
    (fresh : call.lock owner ∉ (table.entry (call.lock owner).name).granted) :
    ¬AddsNothing table done.table (call.lock owner).name := by
  intro addsNothing
  cases passes with
  | released called => exact asks _ called
  | @granted request side poses _ left =>
      have idle : ∀ other ∈ table.freedBy request, (table.apply request).1.queueOf other = [] := by
        intro other freed
        obtain ⟨lock, member, rfl⟩ := List.mem_map.mp (mem_freedBy freed)
        rw [queueOf_apply]
        exact nobody request side poses lock member
      rw [left, drain, drainFor_of_nobody idle, ← poses.lock_eq] at addsNothing
      rw [← poses.lock_eq] at fresh
      refine fresh (addsNothing.1 _ ?_)
      rw [apply_eq, entry_grant, if_pos rfl]
      exact Entry.mem_granted_withLock _ _
  | @parked request side poses _ left =>
      rw [left, ← poses.lock_eq] at addsNothing
      have waits : request ∈ (table.enqueue request side).queueOf request.lock.name :=
        mem_queueOf_enqueue.mpr (Or.inl ⟨rfl, rfl⟩)
      rw [addsNothing.2] at waits
      cases waits

end Table

end Granularity
