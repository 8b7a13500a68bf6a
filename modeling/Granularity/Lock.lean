import Granularity.Mode
import Granularity.ResourceName
import Granularity.Text.Detailed

/-!
Locks, and requests for locks.

A lock is a mode on a name, owned by a transaction.  A request asks for a lock and lists the locks
that its owner gives up in the same step in which it is granted; it also names the transaction that
waits for it.
-/

namespace Granularity

/-- Transactions are numbered by words of 64 bits. -/
abbrev TransactionId := UInt64

/-- The detailed text of a name. -/
def ResourceName.detailed (name : ResourceName) : String :=
  Text.record "ResourceName"
    [⟨"segments", Text.bracketed (name.segments.map Text.quoted)⟩]

/-- A mode on a name, owned by a transaction. -/
structure Lock where
  name : ResourceName
  mode : Mode
  owner : TransactionId
deriving DecidableEq, Repr, Inhabited

namespace Lock

/-- A lock as messages show it: owner, mode, and the path in parentheses. -/
def text (lock : Lock) : String :=
  s!"T{lock.owner}: {lock.mode}({lock.name})"

instance : ToString Lock := ⟨Lock.text⟩

/-- A lock with every field labelled. -/
def detailed (lock : Lock) : String :=
  Text.record "Lock"
    [⟨"name", lock.name.detailed⟩, ⟨"lock_type", lock.mode.text⟩,
     ⟨"transaction", toString lock.owner⟩]

end Lock

/-- A request for a lock, made by a transaction that waits until it is granted. -/
structure Request where
  /-- The transaction to wake when the request is granted. -/
  waiter : TransactionId
  /-- The lock asked for. -/
  lock : Lock
  /-- The locks to give up when the request is granted. -/
  released : List Lock
deriving DecidableEq, Repr, Inhabited

namespace Request

/-- A request as messages show it; the locks to give up stand in parentheses, if there are any. -/
def text (request : Request) : String :=
  let asked := s!"Request for {request.lock}"
  if request.released.isEmpty then asked
  else asked ++ " (releasing " ++ ", ".intercalate (request.released.map Lock.text) ++ ")"

instance : ToString Request := ⟨Request.text⟩

/-- A request with every field labelled. -/
def detailed (request : Request) : String :=
  Text.record "LockRequest"
    [⟨"transaction", toString request.waiter⟩, ⟨"lock", request.lock.detailed⟩,
     ⟨"released", Text.bracketed (request.released.map Lock.detailed)⟩]

end Request

end Granularity
