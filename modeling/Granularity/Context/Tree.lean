import Granularity.Path

/-!
The tree of contexts.

A context is a node of the hierarchy through which locks are taken.  Nodes are numbered in the order
in which they are made and are never taken away, so a number stays good.  Roots are found by their
segment, and every node finds its children by theirs.  A child is read-only when its parent is, or
when its parent has stopped locks on its children by the time the child is made.
-/

namespace Granularity

/-- The number of a context. -/
abbrev ContextId := Nat

/-- One node of the hierarchy. -/
structure ContextNode where
  name : ResourceName
  parent : Option ContextId
  /-- The children by their last segment. -/
  children : Std.ExtTreeMap String ContextId
  /-- No lock can be taken here; settled when the node is made. -/
  readOnly : Bool
  /-- No lock can be taken on the children. -/
  childLocksDisabled : Bool
deriving DecidableEq

instance : Inhabited ContextNode := ⟨⟨default, none, ∅, false, false⟩⟩

/-- Every context made so far. -/
structure ContextTree where
  nodes : List ContextNode
  /-- The roots by their segment. -/
  roots : Std.ExtTreeMap String ContextId
deriving DecidableEq

namespace ContextTree

/-- The tree without contexts. -/
def empty : ContextTree := ⟨[], ∅⟩

instance : Inhabited ContextTree := ⟨empty⟩

/-- The node of a number; a number that is not in use stands for a node without a name. -/
def node (tree : ContextTree) (id : ContextId) : ContextNode :=
  tree.nodes.getD id default

/-- The number that the next new node gets. -/
def nextId (tree : ContextTree) : ContextId :=
  tree.nodes.length

/-- The root of this name, made if it is missing; only a new root takes the flag. -/
def root (tree : ContextTree) (segment : String) (childLocksDisabled : Bool) :
    ContextId × ContextTree :=
  match tree.roots[segment]? with
  | some id => (id, tree)
  | none =>
      let node : ContextNode :=
        { name := ⟨segment, []⟩
          parent := none
          children := ∅
          readOnly := false
          childLocksDisabled := childLocksDisabled }
      (tree.nextId, ⟨tree.nodes ++ [node], tree.roots.insert segment tree.nextId⟩)

/-- The child of this name beneath a node, made if it is missing. -/
def child (tree : ContextTree) (parent : ContextId) (segment : String) : ContextId × ContextTree :=
  let above := tree.node parent
  match above.children[segment]? with
  | some id => (id, tree)
  | none =>
      let node : ContextNode :=
        { name := above.name.child segment
          parent := some parent
          children := ∅
          readOnly := above.readOnly || above.childLocksDisabled
          childLocksDisabled := false }
      let linked := tree.nodes.modify parent fun above =>
        { above with children := above.children.insert segment tree.nextId }
      (tree.nextId, ⟨linked ++ [node], tree.roots⟩)

/-- The node reached from another by following segments, made where it is missing. -/
def descend (tree : ContextTree) (id : ContextId) : List String → ContextId × ContextTree
  | [] => (id, tree)
  | segment :: rest =>
      let (next, grown) := tree.child id segment
      grown.descend next rest

/-- The node reached from another by following segments that are all there. -/
def follow? (tree : ContextTree) (id : ContextId) : List String → Option ContextId
  | [] => some id
  | segment :: rest =>
      match (tree.node id).children[segment]? with
      | none => none
      | some next => tree.follow? next rest

/-- The node of this name, if it has been made. -/
def find? (tree : ContextTree) (name : ResourceName) : Option ContextId :=
  match tree.roots[name.root]? with
  | none => none
  | some id => tree.follow? id name.below

/-- Stop locks on the children of a node: those to come are read-only, those there can no longer be
locked through. -/
def disableChildLocks (tree : ContextTree) (id : ContextId) : ContextTree :=
  { tree with
    nodes := tree.nodes.modify id fun node => { node with childLocksDisabled := true } }

/-- Locks on the children of a node have been stopped. -/
def childLocksDisabled (tree : ContextTree) (id : ContextId) : Bool :=
  (tree.node id).childLocksDisabled

end ContextTree

end Granularity
