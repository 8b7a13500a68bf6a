import Granularity.Proofs.Contexts.Tree
import Granularity.Proofs.Paths

/-!
Look-ups.

Contexts are found by the name of a root, by a whole name or path, or from their parent.  A look-up
that succeeds has found a node that was there, or has made what was missing under checked segments.
However a context is found, the tree stays sound and grows, and the context shows the hierarchy as
it is.
-/

namespace Granularity

/-! ### Ways to find a context -/

/-- The ways in which a context is found. -/
inductive LookUp where
  | root (segment : String)
  | named (name : ResourceName)
  | spelled (path : String)
  | child (parent : Context) (segment : String)

namespace LookUp

/-- The context found, and the tree with what was made on the way. -/
def resolve (wanted : LookUp) (tree : ContextTree) (config : Config) :
    Except Refusal (Context × ContextTree) :=
  match wanted with
  | root segment => tree.rootContext config segment
  | named name => tree.contextOfName config name
  | spelled path => tree.contextOfPath config path
  | child parent segment => tree.childContext parent segment

/-- The context from which a look-up sets out. -/
def start? : LookUp → Option Context
  | root _ | named _ | spelled _ => none
  | child parent _ => some parent

/-- The name that is looked for; a path that spells no name looks for none. -/
def name? : LookUp → Option ResourceName
  | root segment => some ⟨segment, []⟩
  | named name => some name
  | spelled path => (ResourceName.ofPath path).toOption
  | child parent segment => some (parent.name.child segment)

/-- What a look-up that succeeds comes to: the root or the child of a checked segment, the node of a
name that is there, or the nodes of a checked name that is not. -/
inductive Resolved (tree : ContextTree) (config : Config) :
    LookUp → Context × ContextTree → Prop where
  | root {segment : String} {made : ContextId × ContextTree}
      (checked : ResourceName.IsSegment segment)
      (making : tree.root segment (config.disablesChildrenOf segment) = made) :
      Resolved tree config (root segment) (made.2.attach made.1, made.2)
  | found {wanted : LookUp} {name : ResourceName} {id : ContextId}
      (sought : wanted.name? = some name) (there : tree.find? name = some id) :
      Resolved tree config wanted (tree.attach id, tree)
  | made {wanted : LookUp} {name : ResourceName} {top made : ContextId × ContextTree}
      (sought : wanted.name? = some name) (missing : tree.find? name = none)
      (checked : name.WellFormed)
      (rooting : tree.root name.root (config.disablesChildrenOf name.root) = top)
      (making : top.2.descend top.1 name.below = made) :
      Resolved tree config wanted (made.2.attach made.1, made.2)
  | child {parent : Context} {segment : String} {made : ContextId × ContextTree}
      (checked : ResourceName.IsSegment segment)
      (making : tree.child parent.place.id segment = made) :
      Resolved tree config (child parent segment)
        (⟨made.2.place made.1, parent.place :: parent.above⟩, made.2)

/-- A segment passes its check exactly when it is sound. -/
theorem checkSegment_eq_ok {segment : String} :
    ContextTree.checkSegment segment = .ok () ↔ ResourceName.IsSegment segment := by
  rw [ContextTree.checkSegment, ← ResourceName.segmentFlaw?_eq_none]
  cases ResourceName.segmentFlaw? segment with
  | none => simp
  | some flaw => simp

section

variable {wanted : LookUp} {tree : ContextTree} {config : Config} {found : Context × ContextTree}

theorem resolved_of_name {name : ResourceName} (sought : wanted.name? = some name)
    (ok : tree.contextOfName config name = .ok found) : Resolved tree config wanted found := by
  rw [ContextTree.contextOfName] at ok
  cases there : tree.find? name with
  | some id =>
      simp only [there, Except.ok.injEq] at ok
      rw [← ok]
      exact .found sought there
  | none =>
      cases flaw : name.segments.findSome? ResourceName.segmentFlaw? with
      | some flaw => simp [there, flaw] at ok
      | none =>
          simp only [there, flaw, Except.ok.injEq] at ok
          rw [← ok]
          have checked : name.WellFormed := fun segment member =>
            ResourceName.segmentFlaw?_eq_none.mp
              (List.findSome?_eq_none_iff.mp flaw segment member)
          exact .made sought there checked rfl rfl

theorem resolved (ok : wanted.resolve tree config = .ok found) :
    Resolved tree config wanted found := by
  cases wanted with
  | root segment =>
      rw [resolve, ContextTree.rootContext] at ok
      cases checked : ContextTree.checkSegment segment with
      | error refusal => simp [checked, bind, Except.bind] at ok
      | ok =>
          simp only [checked, bind, Except.bind, pure, Except.pure, Except.ok.injEq] at ok
          rw [← ok]
          exact .root (checkSegment_eq_ok.mp checked) rfl
  | named name => exact resolved_of_name rfl ok
  | spelled path =>
      rw [resolve, ContextTree.contextOfPath] at ok
      cases read : ResourceName.ofPath path with
      | error flaw => simp [read] at ok
      | ok name =>
          simp only [read] at ok
          exact resolved_of_name (by rw [name?, read]; rfl) ok
  | child parent segment =>
      rw [resolve, ContextTree.childContext] at ok
      cases checked : ContextTree.checkSegment segment with
      | error refusal => simp [checked, bind, Except.bind] at ok
      | ok =>
          simp only [checked, bind, Except.bind, pure, Except.pure, Except.ok.injEq] at ok
          rw [← ok]
          exact .child (checkSegment_eq_ok.mp checked) rfl

theorem exists_of_wellFormed {name : ResourceName} (wellFormed : name.WellFormed) :
    ∃ found, tree.contextOfName config name = .ok found := by
  have flawless : name.segments.findSome? ResourceName.segmentFlaw? = none :=
    List.findSome?_eq_none_iff.mpr fun segment member =>
      ResourceName.segmentFlaw?_eq_none.mpr (wellFormed segment member)
  rw [ContextTree.contextOfName, flawless]
  cases tree.find? name with
  | some id => exact ⟨_, rfl⟩
  | none => exact ⟨_, rfl⟩

/-- Whoever looks for a well-formed name succeeds. -/
theorem exists_resolve {name : ResourceName} (sought : wanted.name? = some name)
    (wellFormed : name.WellFormed) : ∃ found, wanted.resolve tree config = .ok found := by
  cases wanted with
  | root segment =>
      obtain rfl := Option.some.inj sought
      have checked := ResourceName.wellFormed_root.mp wellFormed
      rw [resolve, ContextTree.rootContext, checkSegment_eq_ok.mpr checked]
      exact ⟨_, rfl⟩
  | named other =>
      obtain rfl := Option.some.inj sought
      exact exists_of_wellFormed wellFormed
  | spelled path =>
      rw [name?] at sought
      cases read : ResourceName.ofPath path with
      | error flaw => simp [read, Except.toOption] at sought
      | ok other =>
          rw [read] at sought
          obtain rfl := Option.some.inj sought
          rw [resolve, ContextTree.contextOfPath, read]
          exact exists_of_wellFormed wellFormed
  | child parent segment =>
      obtain rfl := Option.some.inj sought
      have checked := (ResourceName.wellFormed_child.mp wellFormed).2
      rw [resolve, ContextTree.childContext, checkSegment_eq_ok.mpr checked]
      exact ⟨_, rfl⟩

end

end LookUp

/-! ### What is found -/

namespace ContextTree

variable {tree : ContextTree}

/-- A look-up keeps the tree sound and lets it grow, and the tree knows the context found. -/
structure Finds (tree : ContextTree) (found : Context × ContextTree) : Prop where
  sound : found.2.Sound
  grows : tree.Grows found.2
  knows : found.2.Knows found.1

theorem Makes.finds {made : ContextId × ContextTree} (makes : tree.Makes made) :
    tree.Finds (made.2.attach made.1, made.2) :=
  ⟨makes.sound, makes.grows, makes.inside, rfl⟩

/-- The context of a child stands beneath the context of its parent. -/
theorem Sound.finds_child (sound : tree.Sound) {parent : Context} (known : tree.Knows parent)
    {segment : String} {made : ContextId × ContextTree}
    (making : tree.child parent.place.id segment = made) :
    tree.Finds (⟨made.2.place made.1, parent.place :: parent.above⟩, made.2) := by
  obtain ⟨makes, above⟩ := sound.makes_child known.1 segment
  rw [making] at makes above
  refine ⟨makes.sound, makes.grows, makes.inside, ?_⟩
  show made.2.attach made.1 = _
  rw [makes.sound.attach_eq makes.inside above, sound.attach_grown makes.grows known.1,
    makes.grows.place_eq _ known.1, known.2, known.place_eq]

end ContextTree

/-- A look-up from a context that has been found finds another. -/
theorem LookUp.finds {wanted : LookUp} {tree : ContextTree} {config : Config}
    {found : Context × ContextTree} (sound : tree.Sound)
    (known : ∀ context ∈ wanted.start?, tree.Knows context)
    (ok : wanted.resolve tree config = .ok found) : tree.Finds found := by
  cases resolved ok with
  | @root segment _ _ making => exact (making ▸ sound.makes_root segment _).finds
  | found _ there => exact (sound.makes_found (sound.find?_inside there)).finds
  | @made _ name _ _ _ _ _ rooting making =>
      have top := rooting ▸ sound.makes_root name.root (config.disablesChildrenOf name.root)
      have bottom := making ▸ top.sound.makes_descend name.below top.inside
      exact ContextTree.Makes.finds ⟨bottom.sound, top.grows.trans bottom.grows, bottom.inside⟩
  | child _ making => exact sound.finds_child (known _ rfl) making

/-! ### Trees that look-ups have made -/

/-- The tree has been made from nothing by look-ups that set out from contexts found before, and by
stopping the locks on the children of contexts. -/
inductive ContextTree.Explored (config : Config) : ContextTree → Prop where
  | empty : Explored config .empty
  | lookUp {tree : ContextTree} {wanted : LookUp} {found : Context × ContextTree}
      (earlier : Explored config tree) (known : ∀ context ∈ wanted.start?, tree.Knows context)
      (ok : wanted.resolve tree config = .ok found) : Explored config found.2
  | disableChildLocks {tree : ContextTree} (earlier : Explored config tree) (context : Context) :
      Explored config (tree.disableChildLocks context.place.id)

theorem ContextTree.Explored.sound {config : Config} {tree : ContextTree}
    (explored : tree.Explored config) : tree.Sound := by
  induction explored with
  | empty => exact .empty
  | lookUp _ known ok inductionHypothesis => exact (LookUp.finds inductionHypothesis known ok).sound
  | disableChildLocks _ context inductionHypothesis =>
      exact inductionHypothesis.disableChildLocks context.place.id

end Granularity
