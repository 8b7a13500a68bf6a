import Granularity.Proofs.Contexts.LookUp

/-!
Look-ups, step by step.

A look-up works on the tree itself: it checks segments, and it makes the root and then one child
after the other where they are missing.  If a check failed after something had been made, what was
made would stay.  `LookUp.steps` takes these steps on a tree that is kept whether or not the look-up
goes through; it gives the context that `LookUp.resolve` gives, and a refusal leaves the tree as it
was.
-/

namespace Granularity

namespace ContextTree

/-- Steps on a tree of contexts.  What has been made stays if a later step is refused. -/
abbrev Steps := ExceptT Refusal (StateM ContextTree)

namespace Steps

/-- Refuse a segment that is not sound. -/
def check (segment : String) : Steps Unit :=
  liftM (checkSegment segment)

/-- Make what is missing. -/
def make (change : ContextTree → ContextId × ContextTree) : Steps ContextId :=
  modifyGet change

/-- How the steps end, and the tree that they leave. -/
def on {α : Type} (steps : Steps α) (tree : ContextTree) : Except Refusal α × ContextTree :=
  steps.run.run tree

variable {α : Type} {tree : ContextTree}

theorem on_get_bind (next : ContextTree → Steps α) :
    on (get >>= next) tree = on (next tree) tree := rfl

theorem on_make_bind (change : ContextTree → ContextId × ContextTree)
    (next : ContextId → Steps α) :
    on (make change >>= next) tree = on (next (change tree).1) (change tree).2 := rfl

theorem on_check_bind (segment : String) (next : Unit → Steps α) :
    on (check segment >>= next) tree =
      match checkSegment segment with
      | .error refusal => (.error refusal, tree)
      | .ok () => on (next ()) tree := by
  rw [check]
  cases checkSegment segment <;> rfl

/-- All segments are checked before anything else is done. -/
theorem on_checks_bind (segments : List String) (next : PUnit → Steps α) :
    on (forM segments check >>= next) tree =
      match segments.findSome? ResourceName.segmentFlaw? with
      | some flaw => (.error (.malformedName flaw), tree)
      | none => on (next ⟨⟩) tree := by
  induction segments with
  | nil => rfl
  | cons segment rest inductionHypothesis =>
      rw [List.forM_cons, bind_assoc, on_check_bind, checkSegment, List.findSome?_cons]
      cases ResourceName.segmentFlaw? segment with
      | some flaw => rfl
      | none => exact inductionHypothesis

/-- Making one child after the other is a descent. -/
theorem on_descent_bind (below : List String) (top : ContextId) (next : ContextId → Steps α) :
    on (below.foldlM (fun id segment => make fun tree => tree.child id segment) top >>= next) tree =
      on (next (tree.descend top below).1) (tree.descend top below).2 := by
  induction below generalizing top tree with
  | nil => rfl
  | cons segment rest inductionHypothesis =>
      rw [List.foldlM_cons, bind_assoc, on_make_bind]
      exact inductionHypothesis _

end Steps

end ContextTree

namespace LookUp

open ContextTree (Steps)

/-- The steps of a look-up by name: what is there is found, and else all segments are checked before
the missing nodes are made from the root down. -/
def stepsOfName (config : Config) (name : ResourceName) : Steps Context := do
  match (← get).find? name with
  | some id => return (← get).attach id
  | none =>
      forM name.segments Steps.check
      let top ← Steps.make fun tree => tree.root name.root (config.disablesChildrenOf name.root)
      let makeChild (id : ContextId) (segment : String) : Steps ContextId :=
        Steps.make fun tree => tree.child id segment
      let id ← name.below.foldlM makeChild top
      return (← get).attach id

/-- The steps of a look-up. -/
def steps (config : Config) : LookUp → Steps Context
  | root segment => do
      Steps.check segment
      let id ← Steps.make fun tree => tree.root segment (config.disablesChildrenOf segment)
      return (← get).attach id
  | named name => stepsOfName config name
  | spelled path =>
      match ResourceName.ofPath path with
      | .error flaw => throw (.malformedName flaw)
      | .ok name => stepsOfName config name
  | child parent segment => do
      Steps.check segment
      let id ← Steps.make fun tree => tree.child parent.place.id segment
      return ⟨(← get).place id, parent.place :: parent.above⟩

/-- The answer of a look-up and the tree that it leaves; nothing is made if it is refused. -/
def settled (tree : ContextTree) : Except Refusal (Context × ContextTree) →
    Except Refusal Context × ContextTree
  | .error refusal => (.error refusal, tree)
  | .ok (context, grown) => (.ok context, grown)

theorem on_stepsOfName (config : Config) (name : ResourceName) (tree : ContextTree) :
    (stepsOfName config name).on tree = settled tree (tree.contextOfName config name) := by
  rw [stepsOfName, Steps.on_get_bind, ContextTree.contextOfName]
  cases tree.find? name with
  | some id => rfl
  | none =>
      simp only [Steps.on_checks_bind]
      cases name.segments.findSome? ResourceName.segmentFlaw? with
      | some flaw => rfl
      | none =>
          simp only [Steps.on_make_bind, Steps.on_descent_bind]
          rfl

/-- Step by step a look-up gives what it gives at once. -/
theorem on_steps (wanted : LookUp) (config : Config) (tree : ContextTree) :
    (wanted.steps config).on tree = settled tree (wanted.resolve tree config) := by
  cases wanted with
  | root segment =>
      rw [steps, Steps.on_check_bind, resolve, ContextTree.rootContext]
      cases ContextTree.checkSegment segment with
      | error refusal => rfl
      | ok => rfl
  | named name => exact on_stepsOfName config name tree
  | spelled path =>
      rw [steps, resolve, ContextTree.contextOfPath]
      cases ResourceName.ofPath path with
      | error flaw => rfl
      | ok name => exact on_stepsOfName config name tree
  | child parent segment =>
      rw [steps, Steps.on_check_bind, resolve, ContextTree.childContext]
      cases ContextTree.checkSegment segment with
      | error refusal => rfl
      | ok => rfl

/-- A look-up that is refused makes nothing. -/
theorem steps_refused {wanted : LookUp} {config : Config} {tree : ContextTree} {refusal : Refusal}
    (refused : ((wanted.steps config).on tree).1 = .error refusal) :
    ((wanted.steps config).on tree).2 = tree := by
  rw [on_steps] at refused ⊢
  cases found : wanted.resolve tree config with
  | error => rfl
  | ok both =>
      rw [found] at refused
      cases refused

end LookUp

end Granularity
