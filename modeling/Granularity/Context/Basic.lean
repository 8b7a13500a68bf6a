import Granularity.Context.Tree
import Granularity.Refusal

/-!
Contexts, through which locks of a hierarchy are taken.

A context is a place in the tree together with the places above it, nearest first.  It is found by
the name of a root, by a whole name or path, or from its parent; what is missing on the way is made.
A look-up checks every segment before anything is made, so a look-up that fails makes nothing.  The
configuration of a lock manager names the root that stands for the database, and the roots that take
no locks on their children from the start.
-/

namespace Granularity

/-- Which root is the database, and beneath which roots no locks are taken. -/
structure Config where
  /-- The name of the root that stands for the database. -/
  databaseName : String := "database"
  /-- Roots whose children take no locks, such as name spaces for indices. -/
  readOnlyRoots : List String := []
deriving DecidableEq, Repr

instance : Inhabited Config := ⟨{}⟩

/-- The root of this name admits no locks on its children. -/
def Config.disablesChildrenOf (config : Config) (root : String) : Bool :=
  config.readOnlyRoots.contains root

/-- A node as contexts see it: what never changes about it. -/
structure Place where
  id : ContextId
  name : ResourceName
  readOnly : Bool
deriving DecidableEq, Repr

/-- A place in the hierarchy with the places above it, nearest first. -/
structure Context where
  place : Place
  above : List Place
deriving DecidableEq, Repr

namespace Context

/-- The name of a context. -/
def name (context : Context) : ResourceName :=
  context.place.name

/-- The context one level up; a root has none. -/
def parent? (context : Context) : Option Context :=
  match context.above with
  | [] => none
  | parent :: above => some ⟨parent, above⟩

/-- The name of a context and the names above it, nearest first. -/
def names (context : Context) : List ResourceName :=
  context.name :: context.above.map Place.name

/-- A context as messages show it. -/
def text (context : Context) : String :=
  "LockContext(" ++ context.name.text ++ ")"

/-- A context with its fields labelled. -/
def detailed (context : Context) : String :=
  Text.record "LockContext"
    [⟨"name", context.name.detailed⟩, ⟨"readonly", toString context.place.readOnly⟩]

end Context

namespace ContextTree

/-- The place of a node. -/
def place (tree : ContextTree) (id : ContextId) : Place :=
  let node := tree.node id
  ⟨id, node.name, node.readOnly⟩

/-- The places above a node, nearest first, at most so many. -/
def placesAbove (tree : ContextTree) : Nat → ContextId → List Place
  | 0, _ => []
  | most + 1, id =>
      match (tree.node id).parent with
      | none => []
      | some parent => tree.place parent :: tree.placesAbove most parent

/-- The context of a node.  A parent is made before its children, so no more places stand above a
node than its number says. -/
def attach (tree : ContextTree) (id : ContextId) : Context :=
  ⟨tree.place id, tree.placesAbove id id⟩

/-- Refuse a segment that is not sound. -/
def checkSegment (segment : String) : Except Refusal Unit :=
  match ResourceName.segmentFlaw? segment with
  | some flaw => .error (.malformedName flaw)
  | none => .ok ()

/-- The context of the root of this name. -/
def rootContext (tree : ContextTree) (config : Config) (segment : String) :
    Except Refusal (Context × ContextTree) := do
  checkSegment segment
  let (id, grown) := tree.root segment (config.disablesChildrenOf segment)
  return (grown.attach id, grown)

/-- The context of this name.  A name that is not there yet is checked segment by segment. -/
def contextOfName (tree : ContextTree) (config : Config) (name : ResourceName) :
    Except Refusal (Context × ContextTree) :=
  match tree.find? name with
  | some id => .ok (tree.attach id, tree)
  | none =>
      match name.segments.findSome? ResourceName.segmentFlaw? with
      | some flaw => .error (.malformedName flaw)
      | none =>
          let (top, rooted) := tree.root name.root (config.disablesChildrenOf name.root)
          let (id, grown) := rooted.descend top name.below
          .ok (grown.attach id, grown)

/-- The context of the name that a path spells. -/
def contextOfPath (tree : ContextTree) (config : Config) (path : String) :
    Except Refusal (Context × ContextTree) :=
  match ResourceName.ofPath path with
  | .error flaw => .error (.malformedName flaw)
  | .ok name => tree.contextOfName config name

/-- The context of the child of this name. -/
def childContext (tree : ContextTree) (context : Context) (segment : String) :
    Except Refusal (Context × ContextTree) := do
  checkSegment segment
  let (id, grown) := tree.child context.place.id segment
  return (⟨grown.place id, context.place :: context.above⟩, grown)

end ContextTree

end Granularity
