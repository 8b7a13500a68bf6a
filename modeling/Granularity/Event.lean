import Granularity.Lock

/-!
What observers of the lock table are told.

Four events report the calls that change the table, each once, when the call has passed its checks.
`blocked` follows a call that has to wait, and `granted` reports that a waiting request has left its
queue.
-/

namespace Granularity

/-- The kinds of events. -/
inductive EventKind where
  | acquire
  | release
  | promote
  | exchange
  | blocked
  | granted
deriving DecidableEq, Repr

namespace EventKind

/-- Every kind once. -/
def all : List EventKind := [acquire, release, promote, exchange, blocked, granted]

/-- The written name of a kind. -/
def text : EventKind → String
  | acquire => "acquire"
  | release => "release"
  | promote => "promote"
  | exchange => "acquire_and_release"
  | blocked => "blocked"
  | granted => "granted"

/-- The kind with this written name. -/
def ofText? (word : String) : Option EventKind :=
  all.find? fun kind => kind.text == word

/-- The kind reports a call that changes the table. -/
def isCall : EventKind → Bool
  | acquire | release | promote | exchange => true
  | blocked | granted => false

end EventKind

/-- Something that happened in the lock table. -/
inductive Event where
  /-- A lock was asked for. -/
  | acquire (owner : TransactionId) (name : ResourceName) (mode : Mode)
  /-- A lock was given up. -/
  | release (owner : TransactionId) (name : ResourceName)
  /-- A stronger mode was asked for. -/
  | promote (owner : TransactionId) (name : ResourceName) (mode : Mode)
  /-- A lock was asked for in exchange for others. -/
  | exchange (owner : TransactionId) (name : ResourceName) (mode : Mode)
      (released : List ResourceName)
  /-- The call reported last has to wait. -/
  | blocked (owner : TransactionId) (name : ResourceName) (mode : Mode)
  /-- A waiting request has been granted. -/
  | granted (owner : TransactionId) (name : ResourceName) (mode : Mode)
deriving DecidableEq, Repr

namespace Event

/-- The kind of an event. -/
def kind : Event → EventKind
  | acquire .. => .acquire
  | release .. => .release
  | promote .. => .promote
  | exchange .. => .exchange
  | blocked .. => .blocked
  | granted .. => .granted

/-- The transaction that an event concerns. -/
def owner : Event → TransactionId
  | acquire owner .. | release owner .. | promote owner .. | exchange owner ..
  | blocked owner .. | granted owner .. => owner

/-- The event reports a call that changes the table. -/
def isCall (event : Event) : Bool :=
  event.kind.isCall

end Event

end Granularity
