import Granularity.Proofs.Histories.Confluence
import Granularity.Proofs.Histories.Refusals

/-!
The order in which an exchange lists its releases.

A release list may be rearranged and its names repeated.  The call then finds the same locks in
another order, and since they stand on different names, giving them up in that order leaves the same
table.  Only the list of the resources that have lost a lock is rearranged too, and service does not
depend on it.
-/

namespace Granularity

namespace Request

variable {request : Request} {locks : List Lock}

theorem mem_names_rearranged (rearranged : locks.Perm request.released) {name : ResourceName} :
    name ∈ locks.map Lock.name ↔ name ∈ request.released.map Lock.name :=
  (rearranged.map Lock.name).mem_iff

theorem grantedAfter_rearranged (rearranged : locks.Perm request.released) (name : ResourceName)
    (granted : List Lock) :
    Request.grantedAfter { request with released := locks } name granted =
      request.grantedAfter name granted := by
  simp only [grantedAfter, mem_names_rearranged rearranged]

theorem locksAfter_rearranged (rearranged : locks.Perm request.released) (held : List Lock) :
    Request.locksAfter { request with released := locks } held = request.locksAfter held := by
  have contains : ∀ name, (locks.map Lock.name).contains name =
      (request.released.map Lock.name).contains name := fun name => by
    rw [Bool.eq_iff_iff, List.contains_iff_mem, List.contains_iff_mem]
    exact mem_names_rearranged rearranged
  simp only [locksAfter, contains]

end Request

namespace Table

variable {table : Table} {owner : TransactionId}

/-- Everything but the queues is the same. -/
structure SameLocks (table other : Table) : Prop where
  granted : ∀ name, (other.entry name).granted = (table.entry name).granted
  listed : ∀ owner, other.locksOf owner = table.locksOf owner
  counted : ∀ upper owner, other.countBeneath upper owner = table.countBeneath upper owner

theorem SameLocks.refl (table : Table) : table.SameLocks table :=
  ⟨fun _ => rfl, fun _ => rfl, fun _ _ => rfl⟩

/-! ### The request of a rearranged call -/

/-- The locks found on some names are those that the transaction's list gives for these names. -/
theorem mem_locksOn_iff {names : List ResourceName} {locks : List Lock}
    (found : table.locksOn owner names = .ok locks) {lock : Lock} :
    lock ∈ locks ↔ lock.name ∈ names ∧ table.lockOf? owner lock.name = some lock := by
  obtain ⟨onNames, each⟩ := locksOn_eq_ok found
  rw [← onNames]
  constructor
  · intro member
    exact ⟨List.mem_map_of_mem member, each lock member⟩
  · rintro ⟨onName, isFound⟩
    obtain ⟨second, member, sameName⟩ := List.mem_map.mp onName
    have again := each second member
    rw [sameName, isFound, Option.some.injEq] at again
    exact again ▸ member

theorem nodup_locksOn {names : List ResourceName} {locks : List Lock}
    (found : table.locksOn owner names.eraseDups = .ok locks) : locks.Nodup :=
  .of_map Lock.name ((locksOn_eq_ok found).1 ▸ nodup_eraseDups names)

/-- The locks on the listed names are found whatever the order, each once. -/
theorem locksOn_rearranged {released rearranged : List ResourceName} {locks : List Lock}
    (same : ∀ name, name ∈ rearranged ↔ name ∈ released)
    (found : table.locksOn owner released.eraseDups = .ok locks) :
    ∃ others, table.locksOn owner rearranged.eraseDups = .ok others ∧ others.Perm locks := by
  have everywhere : ∀ name ∈ rearranged.eraseDups,
      name ∈ (table.locksOf owner).map Lock.name := by
    intro name member
    have listed : name ∈ released.eraseDups :=
      List.mem_eraseDups.mpr ((same name).mp (List.mem_eraseDups.mp member))
    rw [← (locksOn_eq_ok found).1] at listed
    obtain ⟨lock, lockMember, rfl⟩ := List.mem_map.mp listed
    have isFound := ((mem_locksOn_iff found).mp lockMember).2
    exact List.mem_map.mpr ⟨lock, List.mem_of_find?_eq_some isFound, rfl⟩
  obtain ⟨others, othersFound⟩ := exists_locksOn everywhere
  refine ⟨others, othersFound, ?_⟩
  rw [List.perm_ext_iff_of_nodup (nodup_locksOn othersFound) (nodup_locksOn found)]
  intro lock
  rw [mem_locksOn_iff othersFound, mem_locksOn_iff found, List.mem_eraseDups, List.mem_eraseDups,
    same]

namespace Poses

variable {call : Call} {request other : Request} {side otherSide : QueueEnd} {done : Section}

/-- A call poses one request. -/
theorem unique (poses : table.Poses owner call request side)
    (again : table.Poses owner call other otherSide) : request = other ∧ side = otherSide := by
  cases poses with
  | acquire => cases again; exact ⟨rfl, rfl⟩
  | promote => cases again; exact ⟨rfl, rfl⟩
  | exchange _ found =>
      cases again with
      | exchange _ foundAgain =>
          rw [found, Except.ok.injEq] at foundAgain
          subst foundAgain
          exact ⟨rfl, rfl⟩

/-- A request that is admitted is granted at once. -/
theorem granted (poses : table.Poses owner call request side) (admits : table.Admits request side)
    (passed : table.call owner call = .ok done) :
    done.table = ((table.apply request).1.drain (table.freedBy request)).1 ∧
      done.served = ((table.apply request).1.drain (table.freedBy request)).2 ∧
      done.parked = false := by
  cases passes_call passed with
  | released called =>
      subst called
      cases poses
  | granted again _ left served free =>
      obtain ⟨rfl, rfl⟩ := poses.unique again
      exact ⟨left, served, free⟩
  | parked again full =>
      obtain ⟨rfl, rfl⟩ := poses.unique again
      exact absurd admits full

/-- A request that is not admitted is queued. -/
theorem parked (poses : table.Poses owner call request side) (full : ¬table.Admits request side)
    (passed : table.call owner call = .ok done) :
    done.table = table.enqueue request side ∧ done.served = [] ∧ done.parked = true := by
  cases passes_call passed with
  | released called =>
      subst called
      cases poses
  | granted again admits =>
      obtain ⟨rfl, rfl⟩ := poses.unique again
      exact absurd admits full
  | parked again _ left served waits =>
      obtain ⟨rfl, rfl⟩ := poses.unique again
      exact ⟨left, served, waits⟩

end Poses

/-- A rearranged call poses the same request with its releases rearranged. -/
theorem Poses.rearrange {name : ResourceName} {mode : Mode} {released rearranged : List ResourceName}
    {request : Request} {side : QueueEnd}
    (poses : table.Poses owner (.exchange name mode released) request side)
    (same : ∀ other, other ∈ rearranged ↔ other ∈ released) :
    ∃ locks, locks.Perm request.released ∧
      table.Poses owner (.exchange name mode rearranged) { request with released := locks } side := by
  cases poses with
  | exchange listed found locked =>
      obtain ⟨others, othersFound, arranged⟩ := locksOn_rearranged same found
      exact ⟨others, arranged, .exchange (fun held => (same name).mpr (listed held)) othersFound locked⟩

/-! ### Granting it, or putting it in a queue -/

/-- Giving up the same locks in another order leaves the same table. -/
theorem Sound.apply_rearranged (sound : table.Sound) {request : Request} {locks : List Lock}
    (coherent : request.Coherent) (locked : request.lock.mode ≠ .NL)
    (room : (table.entry request.lock.name).hasRoom request = true)
    (rearranged : locks.Perm request.released) :
    (table.apply { request with released := locks }).1 = (table.apply request).1 := by
  let other : Request := { request with released := locks }
  have otherCoherent : other.Coherent :=
    ⟨coherent.waiter_eq, fun lock member =>
      coherent.released_owner lock (rearranged.mem_iff.mp member)⟩
  have otherSound : (table.apply other).1.Sound := sound.apply locked room
  refine otherSound.ext (sound.apply locked room) ?_ ?_ ?_
  · intro name
    rw [sound.granted_apply otherCoherent, sound.granted_apply coherent]
    exact Request.grantedAfter_rearranged rearranged name _
  · intro name
    rw [queueOf_apply, queueOf_apply]
  · intro owner
    rw [sound.locksOf_apply otherCoherent, sound.locksOf_apply coherent]
    exact if_congr Iff.rfl (Request.locksAfter_rearranged rearranged _) rfl

/-- Two sections of a call that differ in the order of its releases alone: the same locks and
counts are left, the same requests are served in some order, and the queues are the same, apart from
the order of the releases in the call's own request if it waits. -/
structure Alike (table : Table) (name : ResourceName) (done other : Section) : Prop where
  parked : other.parked = done.parked
  locks : done.table.SameLocks other.table
  served : other.served.Perm done.served
  queues : done.parked = false → ∀ resource, other.table.queueOf resource = done.table.queueOf resource
  queued : done.parked = true → ∃ request locks, locks.Perm request.released ∧
    done.table.queueOf name = request :: table.queueOf name ∧
    other.table.queueOf name = { request with released := locks } :: table.queueOf name ∧
    ∀ resource, resource ≠ name → other.table.queueOf resource = done.table.queueOf resource

/-- If nobody has two requests and nobody waits who could be served, a rearranged call does the
same. -/
theorem Sound.alike_of_rearranged (sound : table.Sound) (single : table.SingleFile)
    (settled : table.Settled) {name : ResourceName} {mode : Mode}
    {released rearranged : List ResourceName} {done : Section}
    (passed : table.call owner (.exchange name mode released) = .ok done)
    (same : ∀ other, other ∈ rearranged ↔ other ∈ released) :
    ∃ other, table.call owner (.exchange name mode rearranged) = .ok other ∧
      table.Alike name done other := by
  cases passes_call passed with
  | released called => cases called
  | @granted request side poses admits left served free =>
      obtain ⟨locks, arranged, otherPoses⟩ := poses.rearrange same
      obtain ⟨other, otherPassed⟩ := otherPoses.passes
      obtain ⟨otherLeft, otherServed, otherFree⟩ := otherPoses.granted admits otherPassed
      have coherent := poses.coherent sound
      have start := sound.apply_rearranged coherent poses.locked admits.1 arranged
      have unsettled := settled.apply sound coherent poses.stronger
      have otherUnsettled := settled.apply sound (otherPoses.coherent sound) otherPoses.stronger
      have serves : table.ServesFrom owner (.exchange name mode released)
          (table.apply request).1 (table.freedBy request) := .granted poses admits
      rw [start] at otherLeft otherServed otherUnsettled
      obtain ⟨sameTable, permuted⟩ := drain_unique (sound.servesFrom serves)
        (single.servesFrom serves) otherUnsettled unsettled
      have tables : other.table = done.table := by rw [otherLeft, left, sameTable]
      refine ⟨other, otherPassed, otherFree.trans free.symm, tables ▸ .refl _, ?_, ?_, ?_⟩
      · rw [otherServed, served]
        exact permuted
      · intro _ resource
        rw [tables]
      · intro waits
        cases free.symm.trans waits
  | @parked request side poses full left served waits =>
      obtain ⟨locks, arranged, otherPoses⟩ := poses.rearrange same
      obtain ⟨other, otherPassed⟩ := otherPoses.passes
      obtain ⟨otherLeft, otherServed, otherWaits⟩ := otherPoses.parked full otherPassed
      have named : request.lock.name = name := by rw [poses.lock_eq]; rfl
      obtain rfl : side = .front := by cases poses; rfl
      rw [enqueue_eq] at left otherLeft
      refine ⟨other, otherPassed, otherWaits.trans waits.symm, ?_, ?_, ?_, ?_⟩
      · rw [left, otherLeft]
        exact ⟨fun _ => by rw [granted_setQueue, granted_setQueue], fun _ => rfl, fun _ _ => rfl⟩
      · rw [otherServed, served]
      · intro free
        cases free.symm.trans waits
      · intro _
        refine ⟨request, locks, arranged, ?_, ?_, ?_⟩
        · rw [left, queueOf_setQueue, named, if_pos rfl]
          rfl
        · rw [otherLeft, queueOf_setQueue, named, if_pos rfl]
          rfl
        · intro resource apart
          rw [left, otherLeft, queueOf_setQueue, queueOf_setQueue, named, if_neg (Ne.symm apart),
            if_neg (Ne.symm apart)]

end Table

namespace System

/-- As long as nobody makes a call while it waits, nobody waits for two requests. -/
theorem singleFile_afterCalls {config : Config} {handles : Std.ExtTreeMap TransactionId Handle}
    {calls : List (TransactionId × Call)} (patient : (opened config handles).Patient calls) :
    ((opened config handles).afterCalls calls).store.table.SingleFile := by
  refine patient.induction_opened (motive := fun system _ => system.store.table.SingleFile) calls
    ?_ .empty
  intro system tickets ticket _ before idle single
  have passed := ticket.passed
  rw [before] at passed idle
  rw [store_carryOut passed]
  exact single.after_call idle passed

/-- An exchange does not depend on the order of its release list.  Let nobody have made a call while
it waited, and let a transaction make an exchange that passes its checks.  Then the exchange passes
with any other list of the same names, repeated or not.  Either both are granted at once or both are
queued.  The granted locks of every resource, the locks of every transaction and all counts are the
same, each in the same order, and the same requests are granted from queues, perhaps in another
order.  All queues are the same too, except that a request which is queued lists the locks to give
up in another order. -/
theorem exchange_rearranged_afterCalls (config : Config)
    (handles : Std.ExtTreeMap TransactionId Handle) (calls : List (TransactionId × Call))
    (patient : (opened config handles).Patient calls) :
    let table := ((opened config handles).afterCalls calls).store.table
    ∀ owner name mode released done,
      table.call owner (.exchange name mode released) = .ok done →
      ∀ rearranged, (∀ other, other ∈ rearranged ↔ other ∈ released) →
        ∃ other, table.call owner (.exchange name mode rearranged) = .ok other ∧
          table.Alike name done other := by
  intro table owner name mode released done passed rearranged same
  have sound : table.Sound := sound_afterCalls config handles calls
  have settled : table.Settled := settled_afterCalls config handles calls
  have single : table.SingleFile := singleFile_afterCalls patient
  exact sound.alike_of_rearranged single settled passed same

/-- A writer of two tables, and a reader that waits for each of them. -/
def readersOfTwoTables : List (TransactionId × Call) :=
  [(1, .acquire ⟨"orders", []⟩ .X), (1, .acquire ⟨"users", []⟩ .X),
    (2, .acquire ⟨"orders", []⟩ .S), (3, .acquire ⟨"users", []⟩ .S)]

/-- The writer takes the log and gives up some tables for it. -/
def tablesForLog (released : List ResourceName) : Call :=
  .exchange ⟨"log", []⟩ .X released

/-- The owners of the requests that the call serves, in order, if it passes. -/
def servedOwners (table : Table) (call : Call) : Option (List TransactionId) :=
  (table.call 1 call).toOption.map fun done => done.served.map Request.waiter

theorem exists_of_servedOwners {table : Table} {call : Call} {owners : List TransactionId}
    (served : servedOwners table call = some owners) :
    ∃ done, table.call 1 call = .ok done ∧ done.served.map Request.waiter = owners := by
  rw [servedOwners] at served
  cases passed : table.call 1 call with
  | error =>
      rw [passed] at served
      cases served
  | ok done =>
      rw [passed] at served
      exact ⟨done, rfl, Option.some.inj served⟩

/-- The order in which the writer lists the tables decides which of the readers goes first, and
nothing else. -/
theorem readers_served_in_either_order :
    let table := ((opened {} ∅).afterCalls readersOfTwoTables).store.table
    ∃ done other,
      table.call 1 (tablesForLog [⟨"orders", []⟩, ⟨"users", []⟩]) = .ok done ∧
      table.call 1 (tablesForLog [⟨"users", []⟩, ⟨"orders", []⟩, ⟨"users", []⟩]) = .ok other ∧
      done.served.map Request.waiter = [2, 3] ∧ other.served.map Request.waiter = [3, 2] ∧
      done.table.SameLocks other.table := by
  intro table
  have patient : (opened {} ∅).Patient readersOfTwoTables := by decide +kernel
  have forwards : servedOwners table (tablesForLog [⟨"orders", []⟩, ⟨"users", []⟩]) =
      some [2, 3] := by decide +kernel
  have backwards : servedOwners table
      (tablesForLog [⟨"users", []⟩, ⟨"orders", []⟩, ⟨"users", []⟩]) = some [3, 2] := by
    decide +kernel
  have same : ∀ name : ResourceName,
      name ∈ [(⟨"users", []⟩ : ResourceName), ⟨"orders", []⟩, ⟨"users", []⟩] ↔
        name ∈ [(⟨"orders", []⟩ : ResourceName), ⟨"users", []⟩] := by
    intro name
    simp only [List.mem_cons, List.not_mem_nil, or_false]
    exact ⟨fun either => either.elim Or.inr id, Or.inr⟩
  obtain ⟨done, passed, order⟩ := exists_of_servedOwners forwards
  obtain ⟨second, secondPassed, reverse⟩ := exists_of_servedOwners backwards
  obtain ⟨other, otherPassed, alike⟩ := exchange_rearranged_afterCalls {} ∅ readersOfTwoTables
    patient 1 _ _ _ done passed _ same
  obtain rfl : second = other := Except.ok.inj (secondPassed.symm.trans otherPassed)
  exact ⟨done, second, passed, secondPassed, order, reverse, alike.locks⟩

end System

end Granularity
