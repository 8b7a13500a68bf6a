import Granularity.Lock

/-!
Handles, through which waiting transactions are suspended and woken.

A call that has to wait raises the flag of its handle while the lock table is still in its hands,
and suspends itself only afterwards; whoever grants the request lowers the flag.  Because the flag
is up before anybody can grant the request, a wake-up that comes before the suspension is not lost.

A recorder never suspends anybody and counts the signals.  A gate suspends its transaction as long
as its flag is up.
-/

namespace Granularity

/-- A handle that counts signals and suspends nobody. -/
structure Recorder where
  blocked : Bool
  blockCalls : Nat
  unblockCalls : Nat
deriving DecidableEq, Repr

/-- A handle that suspends its transaction while the flag is up. -/
structure Gate where
  blocked : Bool
deriving DecidableEq, Repr

/-- A gate with its fields labelled. -/
def Gate.detailed (gate : Gate) (owner : TransactionId) : String :=
  Text.record "ThreadTransaction"
    [⟨"id", toString owner⟩, ⟨"blocked", toString gate.blocked⟩]

/-- The handle of a transaction. -/
inductive Handle where
  | counting (recorder : Recorder)
  | suspending (gate : Gate)
deriving DecidableEq, Repr

namespace Handle

/-- A recorder that has had no signal. -/
def newRecorder : Handle := .counting ⟨false, 0, 0⟩

/-- A gate that is open. -/
def newGate : Handle := .suspending ⟨false⟩

/-- The flag is up. -/
def blocked : Handle → Bool
  | .counting recorder => recorder.blocked
  | .suspending gate => gate.blocked

/-- Raise the flag. -/
def prepareBlock : Handle → Handle
  | .counting recorder => .counting { recorder with blocked := true }
  | .suspending _ => .suspending ⟨true⟩

/-- Lower the flag. -/
def unblock : Handle → Handle
  | .counting recorder =>
      .counting { recorder with blocked := false, unblockCalls := recorder.unblockCalls + 1 }
  | .suspending _ => .suspending ⟨false⟩

/-- Suspend the caller if need be: no handle is left for as long as the caller stays suspended. -/
def block? : Handle → Option Handle
  | .counting recorder => some (.counting { recorder with blockCalls := recorder.blockCalls + 1 })
  | .suspending gate => if gate.blocked then none else some (.suspending gate)

end Handle

/-- The signals that a handle takes. -/
inductive Signal where
  | prepareBlock
  | block
  | unblock
deriving DecidableEq, Repr

/-- The handle after a signal; a caller that would be suspended leaves it as it is. -/
def Handle.after (handle : Handle) : Signal → Handle
  | .prepareBlock => handle.prepareBlock
  | .block => handle.block?.getD handle
  | .unblock => handle.unblock

/-- A handle with at most one call suspended on it. -/
structure Attended where
  handle : Handle
  suspended : Bool
deriving DecidableEq, Repr

/-- What comes of a signal. -/
inductive SignalReply where
  /-- The signal was taken; a suspended call may have returned because of it. -/
  | taken (returned : Bool)
  /-- The caller is suspended. -/
  | suspended
  /-- Somebody is suspended already, and nothing was done. -/
  | busy
deriving DecidableEq, Repr

namespace Attended

/-- Give a handle a signal. -/
def signal (attended : Attended) (given : Signal) : SignalReply × Attended :=
  let handle := attended.handle.after given
  match given with
  | .prepareBlock => (.taken false, { attended with handle := handle })
  | .unblock => (.taken attended.suspended, ⟨handle, false⟩)
  | .block =>
      if attended.suspended then (.busy, attended)
      else if attended.handle.block?.isNone then (.suspended, ⟨handle, true⟩)
      else (.taken false, ⟨handle, false⟩)

end Attended

end Granularity
