import Granularity.Context.Mode
import Granularity.Table.Call

/-!
The operations on contexts.

A lock manager stores its configuration, its lock table, and its tree of contexts.  An operation is
decided by this store alone: it is refused, or there is nothing to do, or it comes down to one call
on the lock table.  The decisions keep the rule of the hierarchy, that a mode is held on a name only
while the parent's mode admits it, and that a lock is given up only when nothing beneath it is
locked.
-/

namespace Granularity

/-- The configuration, the lock table and the contexts of a lock manager. -/
structure Store where
  config : Config
  table : Table
  contexts : ContextTree
deriving DecidableEq

/-- A manager in which nothing has happened. -/
def Store.fresh (config : Config) : Store :=
  ⟨config, .empty, .empty⟩

/-- What an operation comes down to. -/
inductive Move where
  /-- There is nothing to do. -/
  | stay
  /-- Carry out one call, with a remark before it if there is one. -/
  | make (remark : Option Remark) (call : Call)
deriving DecidableEq, Repr

namespace Context

/-- Refuse a context that takes no locks. -/
def checkWritable (context : Context) (contexts : ContextTree) : Except Refusal Unit :=
  if context.place.readOnly then .error (.readOnly context.name)
  else
    match context.above with
    | [] => .ok ()
    | parent :: _ =>
        if contexts.childLocksDisabled parent.id then .error (.childLocksDisabled parent.name)
        else .ok ()

/-- Refuse a mode that the mode in force on the parent does not admit. -/
def checkAdmitted (context : Context) (table : Table) (owner : TransactionId) (mode : Mode) :
    Except Refusal Unit :=
  match context.parent? with
  | none => .ok ()
  | some parent =>
      let inForce := parent.effectiveMode table owner
      if Mode.admits inForce mode then .ok ()
      else .error (.notAdmitted inForce parent.name mode context.name)

/-- Take a lock at a context.  Only a lock on the very node stands in the way; a mode that is merely
implied does not. -/
def acquire (context : Context) (store : Store) (owner : TransactionId) (mode : Mode) :
    Except Refusal Move := do
  context.checkWritable store.contexts
  let held := context.explicitMode store.table owner
  if held ≠ .NL then throw (.duplicateLock owner context.name held)
  if mode = .NL then throw (.nothingToAcquire context.name)
  context.checkAdmitted store.table owner mode
  return .make none (.acquire context.name mode)

/-- Give up the lock at a context, once nothing beneath is locked. -/
def release (context : Context) (store : Store) (owner : TransactionId) :
    Except Refusal Move := do
  context.checkWritable store.contexts
  if context.explicitMode store.table owner = .NL then throw (.noLockHeld owner context.name)
  let below := store.table.countBeneath context.name owner
  if below ≠ 0 then throw (.locksBeneath owner below context.name)
  return .make none (.release context.name)

/-- Exchange the mode held at a context for one that covers it.  `SIX` reads the whole subtree, so a
promotion to it gives up the locks beneath that only read, in the same step. -/
def promote (context : Context) (store : Store) (owner : TransactionId) (mode : Mode) :
    Except Refusal Move := do
  context.checkWritable store.contexts
  let held := context.explicitMode store.table owner
  if held = .NL then throw (.noLockHeld owner context.name)
  if held = mode then throw (.duplicateLock owner context.name held)
  if ¬ Mode.covers mode held then throw (.notAPromotion held context.name mode)
  context.checkAdmitted store.table owner mode
  if mode ≠ .SIX then return .make none (.promote context.name mode)
  if context.hasSIXAbove store.table owner then throw (.readAbove context.name)
  let readers := context.readersBeneath store.table owner
  return .make (some (.promotingToSIX context.name owner readers.length))
    (.exchange context.name .SIX (readers ++ [context.name]))

/-- The one mode that stands for a mode and the locks beneath it: `X` if anything of it writes or
means to write, and `S` otherwise. -/
def escalationTarget (held : Mode) (beneath : List Lock) : Mode :=
  let writes (mode : Mode) : Bool := mode == .IX || mode == .SIX || mode == .X
  if writes held || beneath.any fun lock => writes lock.mode then .X else .S

/-- Replace the lock at a context and every lock beneath by a single one.  Where `S` or `X` is held
already, or a mode is merely implied, there is nothing to do. -/
def escalate (context : Context) (store : Store) (owner : TransactionId) :
    Except Refusal Move := do
  context.checkWritable store.contexts
  if context.effectiveMode store.table owner = .NL then
    throw (.noLockHeld owner context.name)
  let held := context.explicitMode store.table owner
  if ¬ held.isIntent then return .stay
  let beneath := store.table.locksBeneath owner context.name
  let target := escalationTarget held beneath
  return .make (some (.escalating context.name held target owner))
    (.exchange context.name target (context.name :: beneath.map Lock.name))

end Context

/-- What a transaction can ask for: a call on the table itself, or an operation on a context. -/
inductive Operation where
  | direct (call : Call)
  | acquire (context : Context) (mode : Mode)
  | release (context : Context)
  | promote (context : Context) (mode : Mode)
  | escalate (context : Context)
deriving DecidableEq, Repr

/-- What an operation comes down to in the present state. -/
def Operation.decide (operation : Operation) (store : Store) (owner : TransactionId) :
    Except Refusal Move :=
  match operation with
  | direct call => .ok (.make none call)
  | acquire context mode => context.acquire store owner mode
  | release context => context.release store owner
  | promote context mode => context.promote store owner mode
  | escalate context => context.escalate store owner

end Granularity
