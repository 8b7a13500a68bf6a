import Granularity.Proofs.Table.Sound

/-!
Granting requests, one by one.

`Table.apply` carries out the releases of a request and grants its lock; its effect on the modes
that a transaction holds is the function `Request.outcome`.  Serving queues is a chain of such
steps, each of which takes the request at the front of some queue when there is room for it:
`Table.Served` is that chain, and whatever one such step preserves, `Table.drain` preserves.
-/

namespace Granularity

/-- The modes that the owner of a request holds once the request is granted. -/
def Request.outcome (request : Request) (modes : ResourceName → Mode) (name : ResourceName) :
    Mode :=
  if name = request.lock.name then request.lock.mode
  else if name ∈ request.released.map Lock.name then .NL
  else modes name

namespace Request

variable {request : Request} {modes : ResourceName → Mode} {name : ResourceName}

theorem outcome_own : request.outcome modes request.lock.name = request.lock.mode :=
  if_pos rfl

theorem outcome_given (apart : name ≠ request.lock.name)
    (given : name ∈ request.released.map Lock.name) : request.outcome modes name = .NL := by
  rw [outcome, if_neg apart, if_pos given]

theorem outcome_kept (apart : name ≠ request.lock.name)
    (kept : name ∉ request.released.map Lock.name) : request.outcome modes name = modes name := by
  rw [outcome, if_neg apart, if_neg kept]

end Request

namespace Table

variable {table : Table}

/-! ### Carrying out the releases of a request -/

/-- A release marks the request's own name, takes off another lock, or finds nothing to take. -/
theorem applyRelease_cases (table : Table) (name : ResourceName) (freed : List ResourceName)
    (released : Lock) :
    (released.name = name ∧
      applyRelease name (table, freed) released = (table, freed ++ [name])) ∨
    (released.name ≠ name ∧ table.remove released.owner released.name = none ∧
      applyRelease name (table, freed) released = (table, freed)) ∨
    (released.name ≠ name ∧ ∃ lock fewer,
      table.remove released.owner released.name = some (lock, fewer) ∧
      applyRelease name (table, freed) released = (fewer, freed ++ [released.name])) := by
  by_cases own : released.name = name
  · exact Or.inl ⟨own, by simp [applyRelease, own]⟩
  · cases removed : table.remove released.owner released.name with
    | none => exact Or.inr (Or.inl ⟨own, rfl, by simp [applyRelease, own, removed]⟩)
    | some both =>
        obtain ⟨lock, fewer⟩ := both
        exact Or.inr (Or.inr ⟨own, lock, fewer, rfl, by simp [applyRelease, own, removed]⟩)

/-- What holds at the start, and survives a mark on the request's own name and a removal elsewhere,
holds after all releases. -/
theorem releases_induction {motive : Table → List ResourceName → Prop} (name : ResourceName)
    (marked : ∀ table freed, motive table freed → motive table (freed ++ [name]))
    (removed : ∀ table freed owner other lock fewer, other ≠ name →
      table.remove owner other = some (lock, fewer) → motive table freed →
      motive fewer (freed ++ [other])) :
    ∀ (released : List Lock) (table : Table) (freed : List ResourceName), motive table freed →
      motive (released.foldl (applyRelease name) (table, freed)).1
        (released.foldl (applyRelease name) (table, freed)).2
  | [], _, _, start => start
  | first :: rest, table, freed, start => by
      rw [List.foldl_cons]
      rcases applyRelease_cases table name freed first with
        ⟨_, same⟩ | ⟨_, _, same⟩ | ⟨apart, lock, fewer, taken, same⟩
      · rw [same]
        exact releases_induction name marked removed rest _ _ (marked _ _ start)
      · rw [same]
        exact releases_induction name marked removed rest _ _ start
      · rw [same]
        exact releases_induction name marked removed rest _ _
          (removed _ _ _ _ _ _ apart taken start)

/-- The table after the releases of a request, before its lock is granted. -/
def afterReleases (table : Table) (request : Request) : Table :=
  (request.released.foldl (applyRelease request.lock.name) (table, [])).1

/-- The resources that lose a lock by the releases of a request. -/
def freedBy (table : Table) (request : Request) : List ResourceName :=
  (request.released.foldl (applyRelease request.lock.name) (table, [])).2

theorem apply_eq (table : Table) (request : Request) :
    table.apply request =
      ((table.afterReleases request).grant request.lock, table.freedBy request) := rfl

theorem queueOf_afterReleases (request : Request) (name : ResourceName) :
    (table.afterReleases request).queueOf name = table.queueOf name :=
  releases_induction (motive := fun after _ => after.queueOf name = table.queueOf name)
    request.lock.name (fun _ _ same => same)
    (fun _ _ _ _ _ _ _ taken same => (queueOf_remove taken name).trans same)
    request.released table [] rfl

@[simp] theorem queueOf_apply (request : Request) (name : ResourceName) :
    (table.apply request).1.queueOf name = table.queueOf name := by
  rw [apply_eq, queueOf_grant, queueOf_afterReleases]

/-- Releases only make room. -/
theorem granted_afterReleases_subset (request : Request) (name : ResourceName) :
    ∀ lock ∈ ((table.afterReleases request).entry name).granted,
      lock ∈ (table.entry name).granted := by
  refine releases_induction
    (motive := fun after _ =>
      ∀ lock ∈ (after.entry name).granted, lock ∈ (table.entry name).granted)
    request.lock.name (fun _ _ subset => subset) ?_ request.released table [] (fun _ member => member)
  intro before freed owner other lock fewer _ taken subset held member
  rw [entry_remove taken] at member
  split at member
  · exact subset held (List.mem_of_mem_eraseP member)
  · exact subset held member

theorem hasRoomFor_afterReleases {request : Request} {name : ResourceName} {mode : Mode}
    {owner : TransactionId} (room : (table.entry name).hasRoomFor mode owner = true) :
    ((table.afterReleases request).entry name).hasRoomFor mode owner = true := by
  rw [Entry.hasRoomFor_iff] at room ⊢
  intro lock member
  exact room lock (granted_afterReleases_subset request name lock member)

namespace Sound

theorem afterReleases (sound : table.Sound) (request : Request) :
    (table.afterReleases request).Sound :=
  releases_induction (motive := fun after _ => after.Sound) request.lock.name
    (fun _ _ before => before) (fun _ _ _ _ _ _ _ taken before => before.remove taken)
    request.released table [] sound

/-- A request can be granted where there is room for it. -/
theorem apply (sound : table.Sound) {request : Request} (locked : request.lock.mode ≠ .NL)
    (room : (table.entry request.lock.name).hasRoom request = true) :
    (table.apply request).1.Sound :=
  (sound.afterReleases request).grant locked (hasRoomFor_afterReleases room)

theorem given_cons_of_not_given {owner other : TransactionId} {name wanted given : ResourceName}
    {names : List ResourceName} (unhit : ¬(other = owner ∧ wanted = given)) :
    (other = owner ∧ wanted ≠ name ∧ wanted ∈ given :: names) ↔
      other = owner ∧ wanted ≠ name ∧ wanted ∈ names := by
  constructor
  · intro ⟨sameOwner, notOwn, member⟩
    cases List.mem_cons.mp member with
    | inl sameName => exact absurd ⟨sameOwner, sameName⟩ unhit
    | inr later => exact ⟨sameOwner, notOwn, later⟩
  · intro ⟨sameOwner, notOwn, later⟩
    exact ⟨sameOwner, notOwn, List.mem_cons_of_mem given later⟩

theorem modeOf_releases (name : ResourceName) (owner : TransactionId) (other : TransactionId)
    (wanted : ResourceName) :
    ∀ (released : List Lock) (table : Table) (freed : List ResourceName), table.Sound →
      (∀ lock ∈ released, lock.owner = owner) →
      (released.foldl (applyRelease name) (table, freed)).1.modeOf other wanted =
        if other = owner ∧ wanted ≠ name ∧ wanted ∈ released.map Lock.name then .NL
        else table.modeOf other wanted
  | [], _, _, _, _ => by simp
  | first :: rest, table, freed, sound, owned => by
      have firstOwned := owned first List.mem_cons_self
      have restOwned : ∀ lock ∈ rest, lock.owner = owner :=
        fun lock member => owned lock (List.mem_cons_of_mem first member)
      rw [List.foldl_cons, List.map_cons]
      rcases applyRelease_cases table name freed first with
        ⟨own, same⟩ | ⟨_, missing, same⟩ | ⟨apart, lock, fewer, taken, same⟩
      · rw [same, modeOf_releases name owner other wanted rest table _ sound restOwned]
        by_cases hit : wanted = first.name
        · simp [hit, own]
        · simp [hit]
      · rw [same, modeOf_releases name owner other wanted rest table _ sound restOwned]
        by_cases hit : other = owner ∧ wanted = first.name
        · obtain ⟨rfl, rfl⟩ := hit
          have free : table.modeOf other first.name = .NL := by
            rw [modeOf_eq_entry, Entry.modeOf_eq, ← firstOwned, remove_eq_none.mp missing]
            rfl
          simp [free]
        · exact (if_congr (given_cons_of_not_given hit) rfl rfl).symm
      · rw [same,
          modeOf_releases name owner other wanted rest fewer _ (sound.remove taken) restOwned,
          sound.modeOf_remove taken, firstOwned]
        by_cases hit : other = owner ∧ wanted = first.name
        · obtain ⟨rfl, rfl⟩ := hit
          simp [apart]
        · have unhit : ¬(owner = other ∧ first.name = wanted) :=
            fun both => hit ⟨both.1.symm, both.2.symm⟩
          rw [if_neg unhit]
          exact (if_congr (given_cons_of_not_given hit) rfl rfl).symm

/-- Granting a request gives its owner the outcome and leaves the other transactions alone. -/
theorem modeOf_apply (sound : table.Sound) {request : Request} (coherent : request.Coherent)
    (owner : TransactionId) :
    (table.apply request).1.modeOf owner =
      if owner = request.lock.owner then request.outcome (table.modeOf owner)
      else table.modeOf owner := by
  funext name
  have releases := modeOf_releases request.lock.name request.lock.owner owner name
    request.released table [] sound coherent.released_owner
  rw [apply_eq, modeOf_grant, Table.afterReleases, releases]
  by_cases own : owner = request.lock.owner
  · subst own
    by_cases same : name = request.lock.name
    · simp [Request.outcome, same]
    · simp [Request.outcome, same, Ne.symm same]
  · simp [own, Ne.symm own]

end Sound

/-! ### Serving queues -/

/-- Requests granted from the fronts of queues, each when there was room for it. -/
inductive Served : Table → List Request → Table → Prop where
  | nobody (table : Table) : Served table [] table
  | front {table final : Table} {name : ResourceName} {request : Request}
      {rest served : List Request} (queued : table.queueOf name = request :: rest)
      (room : (table.entry name).hasRoom request = true)
      (later : Served ((table.setQueue name rest).apply request).1 served final) :
      Served table (request :: served) final

theorem Served.trans {start middle final : Table} {first second : List Request}
    (earlier : Served start first middle) (later : Served middle second final) :
    Served start (first ++ second) final := by
  induction earlier with
  | nobody => exact later
  | front queued room _ inductionHypothesis =>
      exact .front queued room (inductionHypothesis later)

theorem serveQueue_of_room {name : ResourceName} {request : Request} {rest : List Request}
    (room : (table.entry name).hasRoom request = true) :
    serveQueue name (request :: rest) table =
      let later := serveQueue name rest ((table.setQueue name rest).apply request).1
      ⟨later.table, request :: later.served,
        (table.setQueue name rest).freedBy request ++ later.freed⟩ := by
  rw [serveQueue, if_pos room]
  rfl

theorem serveQueue_of_no_room {name : ResourceName} {request : Request} {rest : List Request}
    (full : ¬(table.entry name).hasRoom request = true) :
    serveQueue name (request :: rest) table = ⟨table, [], []⟩ := by
  rw [serveQueue, if_neg full]

/-- After its front has been granted, the rest of a queue is what waits for the resource. -/
theorem queueOf_next (name : ResourceName) (request : Request) (rest : List Request) :
    ((table.setQueue name rest).apply request).1.queueOf name = rest := by
  rw [queueOf_apply, queueOf_setQueue, if_pos rfl]

/-- Granting from the front of a queue takes one request out and puts none in. -/
theorem queueOf_next_sublist {name : ResourceName} {request : Request} {rest : List Request}
    (queued : table.queueOf name = request :: rest) (other : ResourceName) :
    (((table.setQueue name rest).apply request).1.queueOf other).Sublist (table.queueOf other) := by
  rw [queueOf_apply, queueOf_setQueue]
  split
  · next same =>
      rw [← same, queued]
      exact List.sublist_cons_self request rest
  · exact .refl _

theorem served_serveQueue (name : ResourceName) :
    ∀ (queue : List Request) (table : Table), table.queueOf name = queue →
      Served table (serveQueue name queue table).served (serveQueue name queue table).table
  | [], table, _ => .nobody table
  | request :: rest, table, queued => by
      by_cases room : (table.entry name).hasRoom request = true
      · rw [serveQueue_of_room room]
        exact .front queued room (served_serveQueue name rest _ (queueOf_next name request rest))
      · rw [serveQueue_of_no_room room]
        exact .nobody table

@[simp] theorem drain_nil (table : Table) : table.drain [] = (table, []) := by
  rw [drain, drainFor]

theorem served_drainFor : ∀ (rounds : Nat) (names : List ResourceName) (table : Table),
    Served table (drainFor rounds names table).2 (drainFor rounds names table).1
  | _, [], table => by
      rw [drainFor]
      exact .nobody table
  | 0, _ :: _, table => .nobody table
  | rounds + 1, name :: names, table =>
      (served_serveQueue name _ table rfl).trans
        (served_drainFor rounds (names ++ (table.serve name).freed) (table.serve name).table)

/-- Serving grants requests from the fronts of queues and does nothing else. -/
theorem served_drain (table : Table) (names : List ResourceName) :
    Served table (table.drain names).2 (table.drain names).1 :=
  served_drainFor _ names table

namespace Sound

variable {name : ResourceName} {request : Request} {rest : List Request}

/-- The rest of a queue may stand in its place. -/
theorem setQueue_rest (sound : table.Sound) (queued : table.queueOf name = request :: rest) :
    (table.setQueue name rest).Sound :=
  sound.setQueue fun _ member => sound.queued (queued ▸ List.mem_cons_of_mem request member)

theorem front (sound : table.Sound) (queued : table.queueOf name = request :: rest) :
    request.lock.mode ≠ .NL ∧ request.lock.name = name ∧ request.Coherent :=
  sound.queued (queued ▸ List.mem_cons_self)

theorem apply_front (sound : table.Sound) (queued : table.queueOf name = request :: rest)
    (room : (table.entry name).hasRoom request = true) :
    ((table.setQueue name rest).apply request).1.Sound := by
  obtain ⟨locked, named, _⟩ := sound.front queued
  refine (sound.setQueue_rest queued).apply locked ?_
  rw [Entry.hasRoom, Entry.hasRoomFor, granted_setQueue, named]
  exact room

/-- What a transaction holds after the request at the front of a queue has been granted. -/
theorem modeOf_apply_front (sound : table.Sound) (queued : table.queueOf name = request :: rest)
    (owner : TransactionId) :
    ((table.setQueue name rest).apply request).1.modeOf owner =
      if owner = request.lock.owner then request.outcome (table.modeOf owner)
      else table.modeOf owner := by
  have unchanged : (table.setQueue name rest).modeOf owner = table.modeOf owner :=
    funext fun other => modeOf_setQueue ..
  rw [(sound.setQueue_rest queued).modeOf_apply (sound.front queued).2.2, unchanged]

theorem served {final : Table} {granted : List Request} (chain : Served table granted final)
    (sound : table.Sound) : final.Sound := by
  induction chain with
  | nobody => exact sound
  | front queued room _ inductionHypothesis =>
      exact inductionHypothesis (sound.apply_front queued room)

end Sound

end Table

end Granularity
