import Granularity.Plan

/-!
Plans for what a transaction needs.

A transaction says that it wants to read or to write at a context, by the mode `S` or `X`.  The
plan takes the intentions on the names above, from the root down, and then the fewest operations
that give the context the wanted mode: an acquisition, a promotion, or an escalation of what is
held beneath.  A mode that is merely inherited is raised where it is held, unless the parent admits
the wanted mode on the context itself.

Giving up everything goes from the deepest names to the roots, so that no lock is left beneath a
name that has been given up.
-/

namespace Granularity

namespace Planner

/-- Hold at least an intention at the first of some places and at every place after it, each the
parent of the one before, from the last to the first.  Nothing is done above a place that holds
enough, and an `S` that has to admit `IX` beneath becomes `SIX`. -/
def ensureIntentions (owner : TransactionId) (intention : Mode) : List Place → Plan
  | [] => .done
  | place :: above =>
      let context : Context := ⟨place, above⟩
      if intention = .NL then .done
      else .look fun store =>
        let explicit := context.explicitMode store.table owner
        if Mode.covers explicit intention then .done
        else
          (ensureIntentions owner intention above).andThen <| .ask <|
            match explicit with
            | .NL => .acquire context intention
            | .S => .promote context (if intention = .IX then .SIX else intention)
            | _ => .promote context intention

/-- Give the first of some places, each the parent of the one before, the wanted mode. -/
def ensureAt (owner : TransactionId) (wanted : Mode) : List Place → Plan
  | [] => .done
  | place :: above => .look fun store =>
      let context : Context := ⟨place, above⟩
      let effective := context.effectiveMode store.table owner
      let explicit := context.explicitMode store.table owner
      if Mode.covers effective wanted then .done
      else if wanted = .S ∧ context.hasSIXAbove store.table owner then .done
      else .say (.ensuring wanted context.name owner explicit effective) <|
        if effective = .IX ∧ wanted = .S then
          (ensureIntentions owner .IX above).andThen (.ask (.promote context .SIX))
        else if explicit.isIntent then
          (ensureIntentions owner wanted.intention above).andThen <|
            .perform (.escalate context) <| .look fun later =>
              if Mode.covers (context.explicitMode later.table owner) wanted then .done
              else .ask (.promote context wanted)
        else if effective = .NL then
          (ensureIntentions owner wanted.intention above).andThen (.ask (.acquire context wanted))
        else if explicit = .S then
          (ensureIntentions owner .IX above).andThen (.ask (.promote context .X))
        else
          match context.parent? with
          | none => .fail (.inheritsAtRoot context.name effective)
          | some parent =>
              if Mode.admits (parent.effectiveMode store.table owner) wanted then
                .ask (.acquire context wanted)
              else ensureAt owner wanted above

end Planner

namespace Context

/-- The context itself and the places above it. -/
def places (context : Context) : List Place :=
  context.place :: context.above

/-- Have the wanted mode in force at a context; only `NL`, `S` and `X` can be wanted. -/
def ensure (context : Context) (owner : TransactionId) (wanted : Mode) : Plan :=
  if wanted = .NL ∨ wanted = .S ∨ wanted = .X then Planner.ensureAt owner wanted context.places
  else .fail (.notPlannable wanted)

/-- Hold at least an intention at a context and above it. -/
def ensureIntentions (context : Context) (owner : TransactionId) (intention : Mode) : Plan :=
  Planner.ensureIntentions owner intention context.places

end Context

/-- Some locks with deeper names first; names of one depth keep their order. -/
def deepestFirst (locks : List Lock) : List Lock :=
  locks.mergeSort fun first second => second.name.depth ≤ first.name.depth

/-- Give up every lock of a transaction, deepest names first. -/
def releaseAll (owner : TransactionId) : Plan :=
  .look fun store =>
    let locks := deepestFirst (store.table.locksOf owner)
    .say (.releasingAll locks.length owner)
      (.ofList (locks.map fun lock => .direct (.release lock.name)))

end Granularity
