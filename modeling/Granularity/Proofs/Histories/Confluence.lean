import Granularity.Proofs.Histories.Footprint
import Granularity.Proofs.Table.Settled

/-!
Service comes to the same end in any order.

A request at the front of a queue is granted when there is room for it.  Two such requests of
different transactions stand in different queues, and granting one of them neither moves the other
nor takes its room away; it makes no difference which goes first.  So one request may be pulled to
the front of any service that goes on until nobody can be served, and all such services of a table
grant the same requests and leave the same table.
-/

namespace Granularity

namespace Request

/-- The granted locks of a resource once the request is granted: its lock stands in the place of its
owner's old one, or at the end, and where a lock is given up the owner has none. -/
def grantedAfter (request : Request) (name : ResourceName) (granted : List Lock) : List Lock :=
  if name = request.lock.name then place Lock.owner request.lock granted
  else if name ∈ request.released.map Lock.name then
    granted.filter fun held => held.owner != request.lock.owner
  else granted

/-- Requests of different owners for different names may be granted in either order. -/
theorem grantedAfter_comm {one other : Request} (owners : one.lock.owner ≠ other.lock.owner)
    (names : one.lock.name ≠ other.lock.name) (name : ResourceName) (granted : List Lock) :
    one.grantedAfter name (other.grantedAfter name granted) =
      other.grantedAfter name (one.grantedAfter name granted) := by
  by_cases ownOne : name = one.lock.name
  · have notOther : name ≠ other.lock.name := fun same => names (ownOne.symm.trans same)
    simp only [grantedAfter, if_pos ownOne, if_neg notOther]
    split
    · exact (filter_place Lock.owner owners granted).symm
    · rfl
  · by_cases ownOther : name = other.lock.name
    · simp only [grantedAfter, if_neg ownOne, if_pos ownOther]
      split
      · exact filter_place Lock.owner owners.symm granted
      · rfl
    · simp only [grantedAfter, if_neg ownOne, if_neg ownOther]
      split
      · split
        · rw [List.filter_comm]
        · rfl
      · rfl

end Request

namespace Table

variable {table : Table}

namespace Sound

/-- A sound table is determined by its granted lists, its queues and the lists of the
transactions. -/
theorem ext {other : Table} (sound : table.Sound) (otherSound : other.Sound)
    (granted : ∀ name, (table.entry name).granted = (other.entry name).granted)
    (queues : ∀ name, table.queueOf name = other.queueOf name)
    (lists : ∀ owner, table.locksOf owner = other.locksOf owner) : table = other := by
  have entries : table.entries = other.entries :=
    Sparse.ext_get fun name => congrArg₂ Entry.mk (granted name) (queues name)
  have holdings : table.holdings = other.holdings := Sparse.ext_get lists
  have beneath : table.beneath = other.beneath := by
    refine Sparse.ext_get fun ⟨upper, owner⟩ => ?_
    have count := sound.counted upper owner
    rw [lists, ← otherSound.counted upper owner] at count
    exact count
  exact (Table.mk.injEq ..).mpr ⟨entries, holdings, beneath⟩

/-- The releases of a request take its owner's locks off the resources that they name. -/
theorem granted_releases (name : ResourceName) (owner : TransactionId) (other : ResourceName) :
    ∀ (released : List Lock) (table : Table) (freed : List ResourceName), table.Sound →
      (∀ lock ∈ released, lock.owner = owner) →
      ((released.foldl (applyRelease name) (table, freed)).1.entry other).granted =
        if other ≠ name ∧ other ∈ released.map Lock.name then
          (table.entry other).granted.filter fun held => held.owner != owner
        else (table.entry other).granted
  | [], _, _, _, _ => by simp
  | first :: rest, table, freed, sound, owned => by
      have firstOwned := owned first List.mem_cons_self
      have restOwned : ∀ lock ∈ rest, lock.owner = owner :=
        fun lock member => owned lock (List.mem_cons_of_mem first member)
      rw [List.foldl_cons, List.map_cons]
      rcases applyRelease_cases table name freed first with
        ⟨own, same⟩ | ⟨_, missing, same⟩ | ⟨apart, lock, fewer, taken, same⟩
      · rw [same, granted_releases name owner other rest table _ sound restOwned]
        refine if_congr ?_ rfl rfl
        rw [List.mem_cons, own]
        exact and_congr_right fun notOwn => (or_iff_right notOwn).symm
      · rw [same, granted_releases name owner other rest table _ sound restOwned]
        by_cases hit : other = first.name
        · -- The owner has no lock there, so there is nothing to take out.
          have nothing : ((table.entry other).granted.filter fun held => held.owner != owner) =
              (table.entry other).granted := by
            rw [remove_eq_none, Entry.lockOf?, find?_key_eq_none Lock.owner, firstOwned,
              ← hit] at missing
            refine List.filter_eq_self.mpr fun held member => bne_iff_ne.mpr fun heldOwner => ?_
            exact missing (List.mem_map.mpr ⟨held, member, heldOwner⟩)
          rw [nothing, ite_self, ite_self]
        · simp [hit]
      · rw [same, granted_releases name owner other rest fewer _ (sound.remove taken) restOwned,
          entry_remove taken, firstOwned]
        by_cases hit : first.name = other
        · subst hit
          rw [if_pos rfl, if_pos (And.intro apart List.mem_cons_self), Entry.without,
            eraseP_eq_filter Lock.owner (sound.entries first.name).owners_nodup]
          simp [List.filter_filter]
        · simp [hit, Ne.symm hit]

/-- What granting a request makes of the granted locks of a resource. -/
theorem granted_apply (sound : table.Sound) {request : Request} (coherent : request.Coherent)
    (name : ResourceName) :
    ((table.apply request).1.entry name).granted =
      request.grantedAfter name (table.entry name).granted := by
  have releases := granted_releases request.lock.name request.lock.owner name
    request.released table [] sound coherent.released_owner
  rw [apply_eq, entry_grant, Request.grantedAfter]
  by_cases own : request.lock.name = name
  · subst own
    rw [if_neg (fun both => both.1 rfl)] at releases
    rw [if_pos rfl, if_pos rfl, Entry.withLock, Table.afterReleases, releases]
  · rw [if_neg own, if_neg (Ne.symm own), Table.afterReleases, releases]
    simp [Ne.symm own]

end Sound

/-! ### One step of service -/

/-- The request stands at the front of its queue and finds room; `next` is the table once it has
been granted. -/
inductive Serves (table : Table) (request : Request) : (next : Table) → Prop where
  | front {name : ResourceName} {rest : List Request} (queued : table.queueOf name = request :: rest)
      (room : (table.entry name).hasRoom request = true) :
      Serves table request ((table.setQueue name rest).apply request).1

theorem served_cons_iff {request : Request} {served : List Request} {final : Table} :
    Served table (request :: served) final ↔
      ∃ next, table.Serves request next ∧ Served next served final := by
  constructor
  · intro chain
    cases chain with
    | front queued room later => exact ⟨_, .front queued room, later⟩
  · rintro ⟨_, ⟨queued, room⟩, later⟩
    exact .front queued room later

/-- Nobody is served on a settled table. -/
theorem Settled.not_serves (settled : table.Settled) {request : Request} {next : Table} :
    ¬table.Serves request next := by
  rintro ⟨queued, room⟩
  rw [settled _ _ _ queued] at room
  cases room

namespace Serves

variable {request : Request} {next : Table}

/-- The request stands in the queue of the resource that it names, where there is room. -/
theorem elim (serves : table.Serves request next) (sound : table.Sound) :
    ∃ rest, table.queueOf request.lock.name = request :: rest ∧
      (table.entry request.lock.name).hasRoom request = true ∧
      next = ((table.setQueue request.lock.name rest).apply request).1 := by
  obtain ⟨queued, room⟩ := serves
  obtain ⟨_, rfl, _⟩ := sound.front queued
  exact ⟨_, queued, room, rfl⟩

theorem sound (serves : table.Serves request next) (sound : table.Sound) : next.Sound := by
  obtain ⟨queued, room⟩ := serves
  exact sound.apply_front queued room

theorem single (serves : table.Serves request next) (single : table.SingleFile) :
    next.SingleFile := by
  obtain ⟨queued, _⟩ := serves
  exact single.next queued

theorem queueOf (serves : table.Serves request next) (sound : table.Sound) (name : ResourceName) :
    next.queueOf name =
      if request.lock.name = name then (table.queueOf name).tail else table.queueOf name := by
  obtain ⟨rest, queued, _, rfl⟩ := serves.elim sound
  rw [queueOf_apply, queueOf_setQueue]
  split
  · next same => rw [← same, queued, List.tail_cons]
  · rfl

theorem granted (serves : table.Serves request next) (sound : table.Sound) (name : ResourceName) :
    (next.entry name).granted = request.grantedAfter name (table.entry name).granted := by
  obtain ⟨queued, _⟩ := serves
  rw [(sound.setQueue_rest queued).granted_apply (sound.front queued).2.2, granted_setQueue]

theorem locksOf (serves : table.Serves request next) (sound : table.Sound)
    (owner : TransactionId) :
    next.locksOf owner =
      if owner = request.lock.owner then request.locksAfter (table.locksOf owner)
      else table.locksOf owner := by
  obtain ⟨queued, _⟩ := serves
  rw [(sound.setQueue_rest queued).locksOf_apply (sound.front queued).2.2, locksOf_setQueue]

/-- Serving a request leaves one table. -/
theorem unique {other : Table} (serves : table.Serves request next)
    (again : table.Serves request other) (sound : table.Sound) : next = other := by
  obtain ⟨rest, queued, _, rfl⟩ := serves.elim sound
  obtain ⟨others, queuedAgain, _, rfl⟩ := again.elim sound
  rw [queued] at queuedAgain
  cases queuedAgain
  rfl

/-- Two requests that can both be served have different owners and names. -/
theorem apart {other : Request} {instead : Table} (serves : table.Serves request next)
    (alternative : table.Serves other instead) (differ : request ≠ other) (sound : table.Sound)
    (single : table.SingleFile) :
    request.lock.name ≠ other.lock.name ∧ request.lock.owner ≠ other.lock.owner := by
  obtain ⟨rest, queued, _, _⟩ := serves.elim sound
  obtain ⟨others, otherQueued, _, _⟩ := alternative.elim sound
  have names : request.lock.name ≠ other.lock.name := by
    intro same
    rw [← same, queued, List.cons.injEq] at otherQueued
    exact differ otherQueued.1
  refine ⟨names, fun same => names ?_⟩
  exact single.one_queue _ request (queued ▸ List.mem_cons_self) _ other
    (otherQueued ▸ List.mem_cons_self) same

/-- A request that can be served can still be served after another one. -/
theorem stays {other : Request} {instead : Table} (serves : table.Serves request next)
    (alternative : table.Serves other instead) (differ : request ≠ other) (sound : table.Sound)
    (single : table.SingleFile) : ∃ both, next.Serves other both := by
  have names := (serves.apart alternative differ sound single).1
  obtain ⟨others, otherQueued, room, _⟩ := alternative.elim sound
  have queued : next.queueOf other.lock.name = other :: others := by
    rw [serves.queueOf sound, if_neg names, otherQueued]
  refine ⟨_, .front queued ?_⟩
  rw [Entry.hasRoom, Entry.hasRoomFor_iff] at room ⊢
  intro lock member
  rw [serves.granted sound, Request.grantedAfter, if_neg (Ne.symm names)] at member
  split at member
  · exact room lock (List.mem_filter.mp member).1
  · exact room lock member

/-- It makes no difference which of two requests is served first. -/
theorem diamond {other : Request} {instead : Table} (serves : table.Serves request next)
    (alternative : table.Serves other instead) (differ : request ≠ other) (sound : table.Sound)
    (single : table.SingleFile) :
    ∃ both, next.Serves other both ∧ instead.Serves request both := by
  obtain ⟨names, owners⟩ := serves.apart alternative differ sound single
  obtain ⟨both, after⟩ := serves.stays alternative differ sound single
  obtain ⟨swapped, afterOther⟩ := alternative.stays serves (Ne.symm differ) sound single
  have nextSound := serves.sound sound
  have insteadSound := alternative.sound sound
  have same : both = swapped := by
    refine (after.sound nextSound).ext (afterOther.sound insteadSound) ?_ ?_ ?_
    · intro name
      rw [after.granted nextSound, serves.granted sound, afterOther.granted insteadSound,
        alternative.granted sound]
      exact Request.grantedAfter_comm (Ne.symm owners) (Ne.symm names) name _
    · intro name
      rw [after.queueOf nextSound, serves.queueOf sound, afterOther.queueOf insteadSound,
        alternative.queueOf sound]
      by_cases here : request.lock.name = name
      · have there : other.lock.name ≠ name := fun there => names (here.trans there.symm)
        simp [here, there]
      · simp [here]
    · intro owner
      rw [after.locksOf nextSound, serves.locksOf sound, afterOther.locksOf insteadSound,
        alternative.locksOf sound]
      by_cases mine : owner = request.lock.owner
      · have notOther : owner ≠ other.lock.owner := fun same => owners (mine.symm.trans same)
        simp [mine, mine ▸ notOther]
      · simp [mine]
  exact ⟨both, after, same ▸ afterOther⟩

end Serves

/-! ### Service until nobody can be served -/

/-- A request that can be served is served sooner or later, and might as well have been first. -/
theorem Served.pull {final : Table} {served : List Request} (chain : Served table served final)
    (settled : final.Settled) {request : Request} {next : Table}
    (serves : table.Serves request next) (sound : table.Sound) (single : table.SingleFile) :
    ∃ others, served.Perm (request :: others) ∧ Served next others final := by
  induction served generalizing table next with
  | nil =>
      cases chain
      exact absurd serves settled.not_serves
  | cons first rest inductionHypothesis =>
      obtain ⟨middle, firstServes, later⟩ := served_cons_iff.mp chain
      by_cases same : request = first
      · subst same
        cases serves.unique firstServes sound
        exact ⟨rest, .refl _, later⟩
      · obtain ⟨both, afterRequest, afterFirst⟩ := serves.diamond firstServes same sound single
        obtain ⟨others, arranged, pulled⟩ := inductionHypothesis later afterFirst
          (firstServes.sound sound) (firstServes.single single)
        refine ⟨first :: others, ?_, served_cons_iff.mpr ⟨both, afterRequest, pulled⟩⟩
        exact (arranged.cons first).trans (.swap request first others)

/-- However it is done, service that goes on until nobody can be served leaves the same table and
grants the same requests. -/
theorem Served.unique {final last : Table} {served others : List Request}
    (chain : Served table served final) (settled : final.Settled)
    (another : Served table others last) (lastSettled : last.Settled)
    (sound : table.Sound) (single : table.SingleFile) :
    final = last ∧ served.Perm others := by
  induction served generalizing table others with
  | nil =>
      cases chain
      cases others with
      | nil =>
          cases another
          exact ⟨rfl, .nil⟩
      | cons first rest =>
          obtain ⟨_, serves, _⟩ := served_cons_iff.mp another
          exact absurd serves settled.not_serves
  | cons first rest inductionHypothesis =>
      obtain ⟨next, serves, later⟩ := served_cons_iff.mp chain
      obtain ⟨remaining, arranged, pulled⟩ := another.pull lastSettled serves sound single
      obtain ⟨same, permuted⟩ := inductionHypothesis later pulled
        (serves.sound sound) (serves.single single)
      exact ⟨same, (permuted.cons first).trans arranged.symm⟩

/-- The order in which resources are put on the list of those to be served does not matter, nor
does anything on the list that could be left out. -/
theorem drain_unique {names others : List ResourceName} (sound : table.Sound)
    (single : table.SingleFile) (settled : table.SettledBut names)
    (otherSettled : table.SettledBut others) :
    (table.drain names).1 = (table.drain others).1 ∧
      (table.drain names).2.Perm (table.drain others).2 :=
  (served_drain table names).unique (settled.drain sound) (served_drain table others)
    (otherSettled.drain sound) sound single

end Table

end Granularity
