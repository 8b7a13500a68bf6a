import Granularity.Lock
import Granularity.Sparse

/-!
The lock table.

Three views of the granted locks are kept side by side: per resource in the order of granting, per
transaction in the order of acquisition, and as counts of the locks that a transaction holds beneath
a name.  `Table.grant` and `Table.remove` change all three; the queues of waiting requests belong to
the first view and are changed only by `Table.enqueue` and `Table.setQueue`.
-/

namespace Granularity

/-! ### One resource -/

/-- The granted locks of one resource, oldest first, and the requests that wait for it. -/
structure Entry where
  granted : List Lock
  queue : List Request
deriving DecidableEq, Repr

instance : Inhabited Entry := ⟨⟨[], []⟩⟩

namespace Entry

/-- The mode that a transaction holds, `NL` for none. -/
def modeOf (entry : Entry) (owner : TransactionId) : Mode :=
  match entry.granted.find? fun lock => lock.owner == owner with
  | some lock => lock.mode
  | none => .NL

/-- The mode is compatible with every granted lock of the other transactions. -/
def hasRoomFor (entry : Entry) (mode : Mode) (owner : TransactionId) : Bool :=
  entry.granted.all fun lock => lock.owner == owner || Mode.compatible mode lock.mode

/-- A request could be granted now. -/
def hasRoom (entry : Entry) (request : Request) : Bool :=
  entry.hasRoomFor request.lock.mode request.lock.owner

end Entry

/-! ### Counts beneath a name -/

/-- A name and a transaction: the place at which locks beneath are counted. -/
structure Slot where
  upper : ResourceName
  owner : TransactionId
deriving DecidableEq, Repr

namespace Slot

instance : Ord Slot := ⟨compareLex (compareOn upper) (compareOn owner)⟩

instance : Std.TransOrd Slot :=
  inferInstanceAs (Std.TransCmp (compareLex (compareOn upper) (compareOn owner)))

instance : Std.LawfulEqOrd Slot where
  compare_self := Std.ReflCmp.compare_self
  eq_of_compare {first second} same := by
    have both : compare first.upper second.upper = .eq ∧ compare first.owner second.owner = .eq :=
      Ordering.then_eq_eq.mp same
    have upper : first.upper = second.upper := Std.LawfulEqCmp.eq_of_compare both.1
    have owner : first.owner = second.owner := Std.LawfulEqCmp.eq_of_compare both.2
    cases first
    cases second
    exact (Slot.mk.injEq ..).mpr ⟨upper, owner⟩

end Slot

/-- The list with its first matching element replaced where it stands. -/
def replaceFirst {α : Type} (matching : α → Bool) (replacement : α) : List α → List α
  | [] => []
  | element :: rest =>
      if matching element then replacement :: rest
      else element :: replaceFirst matching replacement rest

/-! ### The table -/

/-- Who holds and who waits for what. -/
structure Table where
  /-- The granted locks and the queue of every resource. -/
  entries : Sparse ResourceName Entry
  /-- The locks of every transaction in the order of acquisition. -/
  holdings : Sparse TransactionId (List Lock)
  /-- How many locks a transaction holds strictly beneath a name. -/
  beneath : Sparse Slot Nat
deriving DecidableEq, Inhabited

namespace Table

/-- The table in which nobody holds or waits for anything. -/
def empty : Table := ⟨.empty, .empty, .empty⟩

/-- The entry of a resource. -/
def entry (table : Table) (name : ResourceName) : Entry :=
  table.entries.get name

/-- The mode that a transaction holds on a resource, `NL` for none. -/
def modeOf (table : Table) (owner : TransactionId) (name : ResourceName) : Mode :=
  (table.entry name).modeOf owner

/-- A transaction's locks in the order of acquisition. -/
def locksOf (table : Table) (owner : TransactionId) : List Lock :=
  table.holdings.get owner

/-- A transaction's lock on a resource, as its own list has it. -/
def lockOf? (table : Table) (owner : TransactionId) (name : ResourceName) : Option Lock :=
  (table.locksOf owner).find? fun lock => lock.name == name

/-- The requests that wait for a resource, front first. -/
def queueOf (table : Table) (name : ResourceName) : List Request :=
  (table.entry name).queue

/-- The number of locks that a transaction holds strictly beneath a name. -/
def countBeneath (table : Table) (upper : ResourceName) (owner : TransactionId) : Nat :=
  table.beneath.get ⟨upper, owner⟩

/-- Every count that is not zero, by name and then by transaction. -/
def counts (table : Table) : List (Slot × Nat) :=
  table.beneath.toList

/-- The counts with one transaction's counts above a name changed. -/
def recount (beneath : Sparse Slot Nat) (name : ResourceName) (owner : TransactionId)
    (change : Nat → Nat) : Sparse Slot Nat :=
  name.ancestors.foldl (fun counts upper => counts.update ⟨upper, owner⟩ change) beneath

/-- Grant a lock.  A lock of the same owner on the same resource is replaced where it stands in
both lists; otherwise the lock goes to the end of both, and every name above counts one more. -/
def grant (table : Table) (lock : Lock) : Table :=
  let entry := table.entry lock.name
  if entry.granted.any fun held => held.owner == lock.owner then
    { table with
      entries := table.entries.set lock.name
        { entry with
          granted := replaceFirst (fun held => held.owner == lock.owner) lock entry.granted }
      holdings := table.holdings.update lock.owner
        (replaceFirst (fun held => held.name == lock.name) lock) }
  else
    { entries := table.entries.set lock.name { entry with granted := entry.granted ++ [lock] }
      holdings := table.holdings.update lock.owner (· ++ [lock])
      beneath := recount table.beneath lock.name lock.owner (· + 1) }

/-- Take a transaction's lock off a resource; nothing if it has none there.  The queue stays. -/
def remove (table : Table) (owner : TransactionId) (name : ResourceName) : Option (Lock × Table) :=
  let entry := table.entry name
  match entry.granted.find? fun held => held.owner == owner with
  | none => none
  | some lock => some (lock,
      { entries := table.entries.set name
          { entry with granted := entry.granted.eraseP fun held => held.owner == owner }
        holdings := table.holdings.update owner
          (List.filter fun held => held.name != name)
        beneath := recount table.beneath name owner (· - 1) })

/-- The table with another queue at a resource. -/
def setQueue (table : Table) (name : ResourceName) (queue : List Request) : Table :=
  { table with entries := table.entries.update name fun entry => { entry with queue := queue } }

end Table

end Granularity
