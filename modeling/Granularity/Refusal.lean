import Granularity.Lock
import Granularity.Path

/-!
Why a request is refused.

A refusal is a cause with the things it is about.  Its wording is one headline per category with
the cause spelled out after it; the two causes that concern a transaction's own locks have a wording
of their own and no headline.
-/

namespace Granularity

/-- Categories of refusals that share a headline. -/
inductive Headline where
  | invalidLock
  | unsupported
  | invalidName
  | invalidConfig
  /-- The store was left unusable by a caller that broke off while it had the store to itself.  No
  `Refusal` falls under it, since a call here is one step that cannot break off; a program that
  carries out calls side by side words such a failure with it. -/
  | poisoned
deriving DecidableEq, Repr

namespace Headline

/-- The words before the colon. -/
def text : Headline → String
  | invalidLock => "invalid lock request"
  | unsupported => "unsupported lock operation"
  | invalidName => "invalid resource name"
  | invalidConfig => "invalid lock manager config"
  | poisoned => "lock poisoned"

/-- A headline with the cause after it. -/
def message (headline : Headline) (cause : String) : String :=
  headline.text ++ ": " ++ cause

end Headline

/-- The reasons for which a lock request, a look-up or a plan is refused. -/
inductive Refusal where
  /-- The transaction already holds a lock on the name. -/
  | duplicateLock (owner : TransactionId) (name : ResourceName) (held : Mode)
  /-- The transaction holds no lock on the name. -/
  | noLockHeld (owner : TransactionId) (name : ResourceName)
  /-- No mode has this name. -/
  | unknownMode (word : String)
  /-- A lock cannot be acquired as `NL`, which stands for no lock. -/
  | nothingToAcquire (name : ResourceName)
  /-- The wanted mode does not cover the held one. -/
  | notAPromotion (held : Mode) (name : ResourceName) (wanted : Mode)
  /-- The mode in force on the parent does not admit the wanted mode on the child. -/
  | notAdmitted (inForce : Mode) (parent : ResourceName) (wanted : Mode) (name : ResourceName)
  /-- Locks beneath have to be released first. -/
  | locksBeneath (owner : TransactionId) (count : Nat) (name : ResourceName)
  /-- An ancestor already reads the whole subtree. -/
  | readAbove (name : ResourceName)
  /-- Only `NL`, `S` and `X` can be planned for. -/
  | notPlannable (wanted : Mode)
  /-- A root cannot inherit a mode. -/
  | inheritsAtRoot (name : ResourceName) (inForce : Mode)
  /-- The context takes no locks. -/
  | readOnly (name : ResourceName)
  /-- The context admits no locks on its children. -/
  | childLocksDisabled (parent : ResourceName)
  /-- A text is not a name. -/
  | malformedName (flaw : NameFlaw)
  /-- A document is not a configuration. -/
  | malformedConfig
deriving DecidableEq, Repr

namespace Refusal

/-- The headline of a cause; the causes that concern a transaction's own locks have none. -/
def headline? : Refusal → Option Headline
  | duplicateLock .. | noLockHeld .. => none
  | unknownMode .. | nothingToAcquire .. | notAPromotion .. | notAdmitted .. | locksBeneath ..
  | readAbove .. | notPlannable .. | inheritsAtRoot .. => some .invalidLock
  | readOnly .. | childLocksDisabled .. => some .unsupported
  | malformedName .. => some .invalidName
  | malformedConfig => some .invalidConfig

/-- The cause, spelled out.  Of a malformed configuration it does not say where the flaw is. -/
def cause : Refusal → String
  | duplicateLock owner name held => s!"transaction {owner} already holds {held} on {name}"
  | noLockHeld owner name => s!"transaction {owner} holds no lock on {name}"
  | unknownMode word => "unknown lock type " ++ Text.quoted word
  | nothingToAcquire name => s!"cannot acquire NL on {name}"
  | notAPromotion held name wanted => s!"{held} on {name} cannot be promoted to {wanted}"
  | notAdmitted inForce parent wanted name =>
      s!"{inForce} on {parent} does not admit {wanted} on {name}"
  | locksBeneath owner count name =>
      s!"transaction {owner} still holds {count} lock(s) beneath {name}"
  | readAbove name => s!"an ancestor of {name} already holds SIX"
  | notPlannable wanted => s!"can only ensure NL, S or X, not {wanted}"
  | inheritsAtRoot name inForce => s!"{name} inherits {inForce} without a parent"
  | readOnly name => s!"{name} is readonly"
  | childLocksDisabled parent => s!"child locks are disabled beneath {parent}"
  | malformedName flaw => flaw.text
  | malformedConfig => "the document is not a configuration"

/-- The whole wording of a refusal. -/
def message (refusal : Refusal) : String :=
  match refusal.headline? with
  | none => refusal.cause
  | some headline => headline.message refusal.cause

end Refusal

/-- The mode that a word names, or the refusal of the word. -/
def Mode.ofText (word : String) : Except Refusal Mode :=
  match Mode.ofText? word with
  | some mode => .ok mode
  | none => .error (.unknownMode word)

end Granularity
