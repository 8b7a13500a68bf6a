import Granularity.Proofs.Histories.Patience

/-!
How far a call reaches.

One call may serve many queues, and every request that it grants there may give up locks and so
reach further queues.  Still nobody loses a lock by it except through a request of its own: the list
of a transaction that does not make the call is changed by its own requests that are granted on the
way, one after the other, and by nothing else.  The granted locks of a resource are changed only if
the call, or a request that it grants, names the resource.
-/

namespace Granularity

namespace Request

/-- The locks of the owner of a request once the request is granted: the locks that it gives up are
gone, and its lock stands in the place of the old one on its name, or at the end. -/
def locksAfter (request : Request) (locks : List Lock) : List Lock :=
  place Lock.name request.lock <| locks.filter fun held =>
    held.name == request.lock.name || !(request.released.map Lock.name).contains held.name

/-- The request asks for a lock on the name or gives one up there. -/
def Concerns (request : Request) (name : ResourceName) : Prop :=
  name = request.lock.name ∨ name ∈ request.released.map Lock.name

end Request

/-- The names that a call mentions. -/
def Call.names : Call → List ResourceName
  | .acquire name _ | .release name | .promote name _ => [name]
  | .exchange name _ released => name :: released

namespace Table

variable {table : Table}

/-- Nothing is served to a transaction that is not among those served. -/
theorem filter_owner_eq_nil {served : List Request} {owner : TransactionId}
    (notServed : owner ∉ served.map fun request => request.lock.owner) :
    (served.filter fun request => request.lock.owner == owner) = [] :=
  List.filter_eq_nil_iff.mpr fun request member owned =>
    notServed (List.mem_map.mpr ⟨request, member, beq_iff_eq.mp owned⟩)

/-! ### The list of a transaction -/

namespace Sound

/-- The releases of a request take the locks on other names than its own off its owner's list. -/
theorem locksOf_releases (name : ResourceName) (owner other : TransactionId) :
    ∀ (released : List Lock) (table : Table) (freed : List ResourceName), table.Sound →
      (∀ lock ∈ released, lock.owner = owner) →
      (released.foldl (applyRelease name) (table, freed)).1.locksOf other =
        if other = owner then
          (table.locksOf other).filter fun held =>
            held.name == name || !(released.map Lock.name).contains held.name
        else table.locksOf other
  | [], table, _, _, _ => by simp
  | first :: rest, table, freed, sound, owned => by
      have firstOwned := owned first List.mem_cons_self
      have restOwned : ∀ lock ∈ rest, lock.owner = owner :=
        fun lock member => owned lock (List.mem_cons_of_mem first member)
      rw [List.foldl_cons]
      rcases applyRelease_cases table name freed first with
        ⟨own, same⟩ | ⟨_, missing, same⟩ | ⟨apart, lock, fewer, taken, same⟩
      · rw [same, locksOf_releases name owner other rest table _ sound restOwned]
        refine if_congr Iff.rfl (List.filter_congr fun held _ => ?_) rfl
        by_cases hit : held.name = name <;> simp [hit, own]
      · rw [same, locksOf_releases name owner other rest table _ sound restOwned]
        split
        · next isOwner =>
            refine List.filter_congr fun held member => ?_
            have unhit : held.name ≠ first.name := by
              intro hit
              have granted := (sound.mirrored.mem_iff other held).mp member
              have absent := remove_eq_none.mp missing
              rw [Entry.lockOf?, find?_key_eq_none Lock.owner, firstOwned, ← isOwner,
                ← hit] at absent
              exact absent (List.mem_map.mpr ⟨held, granted.1, granted.2⟩)
            simp [unhit]
        · rfl
      · rw [same,
          locksOf_releases name owner other rest fewer _ (sound.remove taken) restOwned,
          locksOf_remove taken, firstOwned]
        by_cases isOwner : other = owner
        · rw [if_pos isOwner, if_pos isOwner, if_pos isOwner.symm, List.filter_filter]
          refine List.filter_congr fun held _ => ?_
          by_cases hit : held.name = first.name <;> simp [hit, apart]
        · rw [if_neg isOwner, if_neg isOwner, if_neg (Ne.symm isOwner)]

/-- Granting a request changes the list of its owner and leaves the other lists alone. -/
theorem locksOf_apply (sound : table.Sound) {request : Request} (coherent : request.Coherent)
    (owner : TransactionId) :
    (table.apply request).1.locksOf owner =
      if owner = request.lock.owner then request.locksAfter (table.locksOf owner)
      else table.locksOf owner := by
  have releases := locksOf_releases request.lock.name request.lock.owner owner
    request.released table [] sound coherent.released_owner
  rw [apply_eq]
  split
  · next own =>
      subst own
      have agree := (sound.afterReleases request).held_iff request.lock.owner request.lock.name
      rw [locksOf_grant_self _ _ agree, Table.afterReleases, releases, if_pos rfl]
      rfl
  · next apart =>
      rw [locksOf_grant_other _ (Ne.symm apart), Table.afterReleases, releases, if_neg apart]

/-- Serving queues changes the list of a transaction by its own requests, in the order in which they
are granted. -/
theorem locksOf_served (sound : table.Sound) {final : Table} {served : List Request}
    (chain : Served table served final) (owner : TransactionId) :
    final.locksOf owner =
      (served.filter fun request => request.lock.owner == owner).foldl
        (fun locks request => request.locksAfter locks) (table.locksOf owner) := by
  induction chain with
  | nobody => rfl
  | @front table final name request rest served queued room _ inductionHypothesis =>
      have next := (sound.setQueue_rest queued).locksOf_apply (sound.front queued).2.2 owner
      rw [inductionHypothesis (sound.apply_front queued room), next, locksOf_setQueue]
      by_cases own : request.lock.owner = owner
      · simp [own]
      · simp [own, Ne.symm own]

/-- Service leaves the list of a transaction alone that it does not serve. -/
theorem locksOf_served_of_not_served (sound : table.Sound) {final : Table} {served : List Request}
    (chain : Served table served final) {owner : TransactionId}
    (notServed : owner ∉ served.map fun request => request.lock.owner) :
    final.locksOf owner = table.locksOf owner := by
  rw [sound.locksOf_served chain, filter_owner_eq_nil notServed, List.foldl_nil]

/-- The call's own part leaves the lists of all others alone. -/
theorem locksOf_servesFrom (sound : table.Sound) {owner other : TransactionId} {call : Call}
    {start : Table} {names : List ResourceName}
    (serves : table.ServesFrom owner call start names) (apart : other ≠ owner) :
    start.locksOf other = table.locksOf other := by
  cases serves with
  | released _ removed => rw [locksOf_remove removed, if_neg (Ne.symm apart)]
  | granted poses =>
      rw [sound.locksOf_apply (poses.coherent sound), if_neg (poses.owner_eq ▸ apart)]

/-- A call changes the list of another transaction by the requests of that transaction which it
grants. -/
theorem locksOf_call (sound : table.Sound) {owner other : TransactionId} {call : Call}
    {done : Section} (passed : table.call owner call = .ok done) (apart : other ≠ owner) :
    done.table.locksOf other =
      (done.served.filter fun request => request.lock.owner == other).foldl
        (fun locks request => request.locksAfter locks) (table.locksOf other) := by
  cases parked : done.parked with
  | true =>
      obtain ⟨request, side, _, left, nobody⟩ := enqueued_of_parked passed parked
      rw [left, nobody, enqueue_eq, locksOf_setQueue]
      rfl
  | false =>
      obtain ⟨start, names, serves, left, served⟩ := servesFrom_of_not_parked passed parked
      rw [left, served, (sound.servesFrom serves).locksOf_served (served_drain start names),
        sound.locksOf_servesFrom serves apart]

end Sound

/-! ### The granted locks of a resource -/

/-- Releases change nothing at a resource that they do not name. -/
theorem granted_releases (name : ResourceName) {other : ResourceName} :
    ∀ (released : List Lock) (table : Table) (freed : List ResourceName),
      other ∉ released.map Lock.name →
      ((released.foldl (applyRelease name) (table, freed)).1.entry other).granted =
        (table.entry other).granted
  | [], _, _, _ => rfl
  | first :: rest, table, freed, absent => by
      rw [List.map_cons, List.mem_cons, not_or] at absent
      rw [List.foldl_cons]
      rcases applyRelease_cases table name freed first with
        ⟨_, same⟩ | ⟨_, _, same⟩ | ⟨_, lock, fewer, taken, same⟩
      · rw [same, granted_releases name rest _ _ absent.2]
      · rw [same, granted_releases name rest _ _ absent.2]
      · rw [same, granted_releases name rest _ _ absent.2, entry_remove taken,
          if_neg (Ne.symm absent.1)]

/-- Granting a request changes the granted locks only where it takes or gives up a lock. -/
theorem granted_apply {request : Request} {name : ResourceName}
    (unconcerned : ¬request.Concerns name) :
    ((table.apply request).1.entry name).granted = (table.entry name).granted := by
  rw [Request.Concerns, not_or] at unconcerned
  rw [apply_eq, entry_grant, if_neg (Ne.symm unconcerned.1)]
  exact granted_releases _ _ _ _ unconcerned.2

theorem Served.granted_eq {final : Table} {served : List Request}
    (chain : Served table served final) {name : ResourceName}
    (unconcerned : ∀ request ∈ served, ¬request.Concerns name) :
    (final.entry name).granted = (table.entry name).granted := by
  induction chain with
  | nobody => rfl
  | front queued room _ inductionHypothesis =>
      rw [inductionHypothesis fun request member =>
          unconcerned request (List.mem_cons_of_mem _ member),
        granted_apply (unconcerned _ List.mem_cons_self), granted_setQueue]

/-- The request of a call concerns only names that the call mentions. -/
theorem Poses.mem_names {owner : TransactionId} {call : Call} {request : Request}
    {side : QueueEnd} (poses : table.Poses owner call request side) {name : ResourceName}
    (concerned : request.Concerns name) : name ∈ call.names := by
  cases poses with
  | acquire => simpa [Request.Concerns, Call.names] using concerned
  | promote => simpa [Request.Concerns, Call.names] using concerned
  | exchange _ held =>
      rw [Request.Concerns, (locksOn_eq_ok held).1, List.mem_eraseDups] at concerned
      exact List.mem_cons.mpr concerned

/-- A call changes the granted locks only of a resource that it mentions, or that a request which it
grants concerns. -/
theorem granted_call {owner : TransactionId} {call : Call} {done : Section}
    (passed : table.call owner call = .ok done) {name : ResourceName}
    (unmentioned : name ∉ call.names)
    (unconcerned : ∀ request ∈ done.served, ¬request.Concerns name) :
    (done.table.entry name).granted = (table.entry name).granted := by
  cases parked : done.parked with
  | true =>
      obtain ⟨request, side, _, left, _⟩ := enqueued_of_parked passed parked
      rw [left, enqueue_eq, granted_setQueue]
  | false =>
      obtain ⟨start, names, serves, left, served⟩ := servesFrom_of_not_parked passed parked
      rw [served] at unconcerned
      rw [left, (served_drain start names).granted_eq unconcerned]
      cases serves with
      | released called removed =>
          subst called
          have apart : name ≠ _ := fun same => unmentioned (List.mem_singleton.mpr same)
          rw [entry_remove removed, if_neg (Ne.symm apart)]
      | granted poses =>
          apply granted_apply
          exact fun concerned => unmentioned (poses.mem_names concerned)

end Table

namespace System

/-- Nobody loses a lock through somebody else's call.  Whatever calls have been made by whomever,
let one more be made.  If it is refused, nothing changes.  If it passes, it grants some requests
from queues, and every transaction but the caller has afterwards just the locks that its own
requests among them, in the order in which they are granted, make of the locks it had, with the
counts that belong to these; if there are none, its locks and its counts stay as they are.  And the
granted locks of a resource change only if the call mentions the resource, or if a request that is
granted takes or gives up a lock there. -/
theorem others_undisturbed_afterCalls (config : Config)
    (handles : Std.ExtTreeMap TransactionId Handle) (calls : List (TransactionId × Call)) :
    let system := (opened config handles).afterCalls calls
    let before := system.store.table
    ∀ owner call,
      let after := (system.carryOut owner call).2.store.table
      (∀ refusal, before.call owner call = .error refusal →
        (system.carryOut owner call).2 = system) ∧
      ∀ done, before.call owner call = .ok done →
        (∀ request ∈ done.served, ∃ name, request ∈ before.queueOf name) ∧
        (∀ other, other ≠ owner →
          let granted := done.served.filter fun request => request.lock.owner == other
          let locks := granted.foldl (fun locks request => request.locksAfter locks)
            (before.locksOf other)
          (after.locksOf other = locks ∧ ∀ upper, after.countBeneath upper other =
            (locks.map Lock.name).countP fun name => name.isBeneath upper) ∧
          (granted = [] → after.locksOf other = before.locksOf other ∧
            ∀ upper, after.countBeneath upper other = before.countBeneath upper other)) ∧
        ∀ name, (after.entry name).granted ≠ (before.entry name).granted →
          name ∈ call.names ∨ ∃ request ∈ done.served, request.Concerns name := by
  intro system before owner call after
  have sound : before.Sound := sound_afterCalls config handles calls
  constructor
  · intro refusal refused
    rw [carryOut_of_refused refused]
  · intro done passed
    have left : after = done.table := congrArg Store.table (store_carryOut passed)
    rw [left]
    refine ⟨fun request served => Table.queued_of_served passed served, ?_, ?_⟩
    · intro other apart granted locks
      have listed : done.table.locksOf other = locks := sound.locksOf_call passed apart
      have counted : ∀ upper, done.table.countBeneath upper other =
          (locks.map Lock.name).countP fun name => name.isBeneath upper :=
        fun upper => listed ▸ (sound.call passed).counted upper other
      refine ⟨⟨listed, counted⟩, fun nothing => ?_⟩
      have kept : locks = before.locksOf other := by
        show granted.foldl _ _ = _
        rw [nothing]
        rfl
      rw [kept] at listed counted
      exact ⟨listed, fun upper => (counted upper).trans (sound.counted upper other).symm⟩
    · intro name changed
      by_contra outside
      rw [not_or, not_exists] at outside
      apply changed
      exact Table.granted_call passed outside.1
        fun request member concerned => outside.2 request ⟨member, concerned⟩

end System

end Granularity
