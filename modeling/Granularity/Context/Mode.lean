import Granularity.Context.Basic
import Granularity.Table.Basic

/-!
The modes in force at a context.

The explicit mode is the one that a transaction holds on the very name.  The effective mode is what
the transaction may rely on there: its explicit mode if it has one, and otherwise what the hierarchy
implies.  `S` and `X` are handed down, `SIX` hands down its `S`, and an `IX` hands down `S` where a
`SIX` stands above.
-/

namespace Granularity

namespace Table

/-- The transaction holds `SIX` on a name strictly above. -/
def hasSIXAbove (table : Table) (owner : TransactionId) (name : ResourceName) : Bool :=
  (table.locksOf owner).any fun lock => lock.mode == .SIX && name.isBeneath lock.name

/-- The transaction's locks strictly beneath a name, in the order of acquisition. -/
def locksBeneath (table : Table) (owner : TransactionId) (name : ResourceName) : List Lock :=
  (table.locksOf owner).filter fun lock => lock.name.isBeneath name

/-- The mode that a mode in force on the parent hands down. -/
def handedDown (table : Table) (owner : TransactionId) (name : ResourceName) : Mode → Mode
  | .S => .S
  | .X => .X
  | .SIX => .S
  | .IX => if table.hasSIXAbove owner name then .S else .NL
  | .NL | .IS => .NL

/-- The mode in force at the first of some names, each the parent of the one before it. -/
def effectiveOn (table : Table) (owner : TransactionId) : List ResourceName → Mode
  | [] => .NL
  | name :: above =>
      let explicit := table.modeOf owner name
      if explicit ≠ .NL then explicit
      else table.handedDown owner name (table.effectiveOn owner above)

end Table

namespace Context

/-- The mode held at the very node of a context. -/
def explicitMode (context : Context) (table : Table) (owner : TransactionId) : Mode :=
  table.modeOf owner context.name

/-- The mode in force at a context, held there or implied from above. -/
def effectiveMode (context : Context) (table : Table) (owner : TransactionId) : Mode :=
  table.effectiveOn owner context.names

/-- The transaction holds `SIX` on a name strictly above the context. -/
def hasSIXAbove (context : Context) (table : Table) (owner : TransactionId) : Bool :=
  table.hasSIXAbove owner context.name

/-- The names strictly beneath on which the transaction holds a mode that only reads, `S` or `IS`,
in the order of acquisition. -/
def readersBeneath (context : Context) (table : Table) (owner : TransactionId) :
    List ResourceName :=
  ((table.locksBeneath owner context.name).filter fun lock =>
    lock.mode == .S || lock.mode == .IS).map Lock.name

end Context

end Granularity
