import Granularity.Context.Basic
import Granularity.Proofs.Hierarchy
import Mathlib.Data.List.GetD

/-!
The tree of contexts mirrors the hierarchy of names.

A parent is made before its children and carries the parent's name, so the places above a node are
the ancestors of its name, nearest first.  Nodes are only ever added, and what a context says about
a node and the nodes above it never changes.
-/

namespace Granularity

/-- The places above a context carry the names above its own. -/
def Context.Aligned (context : Context) : Prop :=
  context.above.map Place.name = context.name.ancestors

namespace ContextTree

/-- What holds of every tree that look-ups have made. -/
structure Sound (tree : ContextTree) : Prop where
  top : ∀ id < tree.nodes.length, (tree.node id).parent = none → (tree.node id).name.parent? = none
  below : ∀ id < tree.nodes.length, ∀ parent, (tree.node id).parent = some parent →
    parent < id ∧ (tree.node id).name.parent? = some (tree.node parent).name
  children : ∀ id < tree.nodes.length, ∀ (segment : String) child,
    (tree.node id).children[segment]? = some child →
      child < tree.nodes.length ∧ (tree.node child).parent = some id
  roots : ∀ (segment : String) id, tree.roots[segment]? = some id → id < tree.nodes.length

/-- Nodes have been added, and those that were there have kept what never changes. -/
structure Grows (tree grown : ContextTree) : Prop where
  length_le : tree.nodes.length ≤ grown.nodes.length
  parent_eq : ∀ id < tree.nodes.length, (grown.node id).parent = (tree.node id).parent
  place_eq : ∀ id < tree.nodes.length, grown.place id = tree.place id

/-- The context belongs to a node of the tree and shows the places above that node. -/
def Knows (tree : ContextTree) (context : Context) : Prop :=
  context.place.id < tree.nodes.length ∧ tree.attach context.place.id = context

instance (tree : ContextTree) (context : Context) : Decidable (tree.Knows context) :=
  inferInstanceAs (Decidable (_ ∧ _))

variable {tree grown : ContextTree}

namespace Knows

variable {context : Context} (known : tree.Knows context)
include known

theorem place_eq : tree.place context.place.id = context.place :=
  congrArg Context.place known.2

theorem name_eq : (tree.node context.place.id).name = context.name :=
  congrArg Place.name known.place_eq

theorem readOnly_eq : (tree.node context.place.id).readOnly = context.place.readOnly :=
  congrArg Place.readOnly known.place_eq

end Knows

namespace Grows

theorem refl (tree : ContextTree) : tree.Grows tree :=
  ⟨Nat.le_refl _, fun _ _ => rfl, fun _ _ => rfl⟩

theorem trans {later : ContextTree} (first : tree.Grows grown) (second : grown.Grows later) :
    tree.Grows later where
  length_le := Nat.le_trans first.length_le second.length_le
  parent_eq id inside :=
    (second.parent_eq id (Nat.lt_of_lt_of_le inside first.length_le)).trans
      (first.parent_eq id inside)
  place_eq id inside :=
    (second.place_eq id (Nat.lt_of_lt_of_le inside first.length_le)).trans
      (first.place_eq id inside)

end Grows

/-! ### The places above a node -/

/-- No place stands above a node without a parent. -/
theorem above_of_top {id : ContextId} (top : (tree.node id).parent = none) :
    (tree.attach id).above = [] := by
  show tree.placesAbove id id = []
  cases id with
  | zero => rfl
  | succ before => rw [placesAbove, top]

namespace Sound

theorem empty : Sound ContextTree.empty := by
  constructor <;> simp [ContextTree.empty]

variable (sound : tree.Sound)
include sound

/-- Nothing is made before the first node. -/
theorem placesAbove_first (inside : 0 < tree.nodes.length) :
    ∀ most, tree.placesAbove most 0 = [] := by
  intro most
  cases most with
  | zero => rfl
  | succ most =>
      rw [placesAbove]
      cases above : (tree.node 0).parent with
      | none => rfl
      | some parent => exact absurd (sound.below 0 inside parent above).1 (Nat.not_lt_zero _)

/-- A parent is made before its children, so the places above a node end soon enough. -/
theorem placesAbove_eq : ∀ (most more : Nat) {id : ContextId}, id < tree.nodes.length →
    id ≤ most → id ≤ more → tree.placesAbove most id = tree.placesAbove more id := by
  intro most
  induction most with
  | zero =>
      intro more id inside bound _
      obtain rfl := Nat.le_zero.mp bound
      rw [sound.placesAbove_first inside, sound.placesAbove_first inside]
  | succ most inductionHypothesis =>
      intro more id inside bound otherBound
      cases more with
      | zero =>
          obtain rfl := Nat.le_zero.mp otherBound
          rw [sound.placesAbove_first inside, sound.placesAbove_first inside]
      | succ more =>
          rw [placesAbove, placesAbove]
          cases above : (tree.node id).parent with
          | none => rfl
          | some parent =>
              have earlier := (sound.below id inside parent above).1
              have rest : tree.placesAbove most parent = tree.placesAbove more parent :=
                inductionHypothesis more (Nat.lt_trans earlier inside)
                  (Nat.le_of_lt_succ (Nat.lt_of_lt_of_le earlier bound))
                  (Nat.le_of_lt_succ (Nat.lt_of_lt_of_le earlier otherBound))
              exact congrArg (tree.place parent :: ·) rest

theorem attach_eq {id parent : ContextId} (inside : id < tree.nodes.length)
    (above : (tree.node id).parent = some parent) :
    tree.attach id = ⟨tree.place id, tree.place parent :: (tree.attach parent).above⟩ := by
  have earlier := (sound.below id inside parent above).1
  obtain ⟨before, rfl⟩ := Nat.exists_eq_succ_of_ne_zero (Nat.ne_zero_of_lt earlier)
  rw [attach, placesAbove, above]
  exact congrArg (fun places => Context.mk _ (tree.place parent :: places))
    (sound.placesAbove_eq _ _ (Nat.lt_trans earlier inside) (Nat.le_of_lt_succ earlier)
      (Nat.le_refl _))

/-- The places above a node carry the names above its name. -/
theorem attach_aligned {id : ContextId} (inside : id < tree.nodes.length) :
    (tree.attach id).Aligned := by
  induction id using Nat.strongRecOn with
  | ind id inductionHypothesis =>
      cases above : (tree.node id).parent with
      | none =>
          rw [Context.Aligned, above_of_top above]
          exact (ResourceName.ancestors_of_top (sound.top id inside above)).symm
      | some parent =>
          obtain ⟨earlier, upper⟩ := sound.below id inside parent above
          have parentAligned := inductionHypothesis parent earlier (Nat.lt_trans earlier inside)
          rw [Context.Aligned] at parentAligned ⊢
          rw [sound.attach_eq inside above, List.map_cons, parentAligned]
          exact (ResourceName.ancestors_of_parent upper).symm

/-- What is known of a node and of the places above it does not change as the tree grows. -/
theorem attach_grown (grows : tree.Grows grown) {id : ContextId}
    (inside : id < tree.nodes.length) : grown.attach id = tree.attach id := by
  have same : ∀ most, ∀ id < tree.nodes.length,
      grown.placesAbove most id = tree.placesAbove most id := by
    intro most
    induction most with
    | zero => exact fun _ _ => rfl
    | succ most inductionHypothesis =>
        intro id inside
        rw [placesAbove, placesAbove, grows.parent_eq id inside]
        cases above : (tree.node id).parent with
        | none => rfl
        | some parent =>
            have parentInside := Nat.lt_trans (sound.below id inside parent above).1 inside
            exact congrArg₂ List.cons (grows.place_eq parent parentInside)
              (inductionHypothesis parent parentInside)
  rw [attach, attach, grows.place_eq id inside, same id id inside]

theorem aligned {context : Context} (known : tree.Knows context) : context.Aligned :=
  known.2 ▸ sound.attach_aligned known.1

/-- The place next above a context belongs to a context too. -/
theorem knows_above {place upper : Place} {above : List Place}
    (known : tree.Knows ⟨place, upper :: above⟩) : tree.Knows ⟨upper, above⟩ := by
  obtain ⟨inside, attached⟩ := known
  cases parent : (tree.node place.id).parent with
  | none =>
      have nothing : (tree.attach place.id).above = [] := above_of_top parent
      rw [attached] at nothing
      cases nothing
  | some id =>
      have parentInside := Nat.lt_trans (sound.below place.id inside id parent).1 inside
      rw [sound.attach_eq inside parent, Context.mk.injEq, List.cons.injEq] at attached
      obtain ⟨_, rfl, rfl⟩ := attached
      exact ⟨parentInside, rfl⟩

theorem knows_grown (grows : tree.Grows grown) {context : Context} (known : tree.Knows context) :
    grown.Knows context :=
  ⟨Nat.lt_of_lt_of_le known.1 grows.length_le, (sound.attach_grown grows known.1).trans known.2⟩

end Sound

/-! ### Making nodes -/

/-- A node that has been found or made: the tree is sound, has only grown, and holds the node. -/
structure Makes (tree : ContextTree) (made : ContextId × ContextTree) : Prop where
  sound : made.2.Sound
  grows : tree.Grows made.2
  inside : made.1 < made.2.nodes.length

theorem Sound.makes_found (sound : tree.Sound) {id : ContextId} (inside : id < tree.nodes.length) :
    tree.Makes (id, tree) :=
  ⟨sound, .refl tree, inside⟩

theorem node_append_of_lt {nodes : List ContextNode} {last : ContextNode}
    {roots : Std.ExtTreeMap String ContextId} {id : ContextId} (inside : id < nodes.length) :
    node ⟨nodes ++ [last], roots⟩ id = nodes.getD id default := by
  rw [node, List.getD_append _ _ _ _ inside]

theorem node_append_self (nodes : List ContextNode) (last : ContextNode)
    (roots : Std.ExtTreeMap String ContextId) :
    node ⟨nodes ++ [last], roots⟩ nodes.length = last := by
  rw [node, List.getD_append_right _ _ _ _ (Nat.le_refl _), Nat.sub_self]
  rfl

theorem getD_modify {nodes : List ContextNode} {id : ContextId} (inside : id < nodes.length)
    (changed : ContextId) (change : ContextNode → ContextNode) :
    (nodes.modify changed change).getD id default =
      if changed = id then change (nodes.getD id default) else nodes.getD id default := by
  rw [List.getD_eq_getElem?_getD, List.getElem?_modify, List.getD_eq_getElem?_getD,
    List.getElem?_eq_getElem inside]
  split
  · rfl
  · rfl

theorem Grows.name_eq (grows : tree.Grows grown) {id : ContextId}
    (inside : id < tree.nodes.length) : (grown.node id).name = (tree.node id).name :=
  congrArg Place.name (grows.place_eq id inside)

section Older

variable {id : ContextId} (sound : tree.Sound) (grows : tree.Grows grown)
variable (inside : id < tree.nodes.length)
include sound grows inside

theorem Sound.top_grown (above : (grown.node id).parent = none) :
    (grown.node id).name.parent? = none := by
  rw [grows.parent_eq id inside] at above
  rw [grows.name_eq inside]
  exact sound.top id inside above

theorem Sound.below_grown {parent : ContextId} (above : (grown.node id).parent = some parent) :
    parent < id ∧ (grown.node id).name.parent? = some (grown.node parent).name := by
  rw [grows.parent_eq id inside] at above
  obtain ⟨earlier, name⟩ := sound.below id inside parent above
  rw [grows.name_eq inside, grows.name_eq (Nat.lt_trans earlier inside)]
  exact ⟨earlier, name⟩

/-- The children that were listed already are children still. -/
theorem Sound.children_grown {segment : String} {child : ContextId}
    (listed : (tree.node id).children[segment]? = some child) :
    child < tree.nodes.length ∧ (grown.node child).parent = some id := by
  obtain ⟨childInside, above⟩ := sound.children id inside segment child listed
  rw [grows.parent_eq child childInside]
  exact ⟨childInside, above⟩

end Older

/-- A tree stays sound when one node is added with a name that fits its parent, and when the only
new entry among the children or the roots leads to that node. -/
theorem Sound.extend (sound : tree.Sound) (grows : tree.Grows grown) {last : ContextNode}
    (count : grown.nodes.length = tree.nodes.length + 1)
    (added : grown.node tree.nodes.length = last) (childless : last.children = ∅)
    (top : last.parent = none → last.name.parent? = none)
    (below : ∀ parent, last.parent = some parent →
      parent < tree.nodes.length ∧ last.name.parent? = some (tree.node parent).name)
    (children : ∀ id < tree.nodes.length, ∀ (segment : String) child,
      (grown.node id).children[segment]? = some child →
        (tree.node id).children[segment]? = some child ∨
          child = tree.nodes.length ∧ last.parent = some id)
    (roots : ∀ (segment : String) id, grown.roots[segment]? = some id →
      tree.roots[segment]? = some id ∨ id = tree.nodes.length) : grown.Sound := by
  subst added
  constructor
  case top =>
    intro id inside above
    rw [count] at inside
    rcases Nat.lt_succ_iff_lt_or_eq.mp inside with inside | rfl
    · exact sound.top_grown grows inside above
    · exact top above
  case below =>
    intro id inside parent above
    rw [count] at inside
    rcases Nat.lt_succ_iff_lt_or_eq.mp inside with inside | rfl
    · exact sound.below_grown grows inside above
    · obtain ⟨earlier, name⟩ := below parent above
      rw [grows.name_eq earlier]
      exact ⟨earlier, name⟩
  case children =>
    intro id inside segment child listed
    rw [count] at inside ⊢
    rcases Nat.lt_succ_iff_lt_or_eq.mp inside with inside | rfl
    · rcases children id inside segment child listed with listed | ⟨rfl, above⟩
      · obtain ⟨childInside, above⟩ := sound.children_grown grows inside listed
        exact ⟨Nat.lt_succ_of_lt childInside, above⟩
      · exact ⟨Nat.lt_succ_self _, above⟩
    · rw [childless] at listed
      simp at listed
  case roots =>
    intro segment id listed
    rw [count]
    rcases roots segment id listed with listed | rfl
    · exact Nat.lt_succ_of_lt (sound.roots segment id listed)
    · exact Nat.lt_succ_self _

/-- A new root changes nothing about the older nodes. -/
theorem grows_append (tree : ContextTree) (last : ContextNode)
    (roots : Std.ExtTreeMap String ContextId) : tree.Grows ⟨tree.nodes ++ [last], roots⟩ where
  length_le := by simp
  parent_eq id inside := by
    rw [node_append_of_lt inside]
    rfl
  place_eq id inside := by
    rw [place, node_append_of_lt inside]
    rfl

theorem Sound.makes_root (sound : tree.Sound) (segment : String) (childLocksDisabled : Bool) :
    tree.Makes (tree.root segment childLocksDisabled) := by
  cases found : tree.roots[segment]? with
  | some id =>
      simp only [root, found]
      exact sound.makes_found (sound.roots segment id found)
  | none =>
      simp only [root, found]
      have count (last : ContextNode) :
          (tree.nodes ++ [last]).length = tree.nodes.length + 1 := by simp
      refine ⟨?_, grows_append tree _ _, ?_⟩
      · refine sound.extend (grows_append tree _ _) (count _) (node_append_self _ _ _) rfl
          (fun _ => rfl) nofun ?_ ?_
        · intro id inside other child listed
          rw [node_append_of_lt inside] at listed
          exact Or.inl listed
        · intro other id listed
          rw [Std.ExtTreeMap.getElem?_insert] at listed
          split at listed
          · exact Or.inr (Option.some.inj listed).symm
          · exact Or.inl listed
      · rw [count]
        exact Nat.lt_succ_self _

section

variable {parent : ContextId} {segment : String}

theorem length_child_of_missing (missing : (tree.node parent).children[segment]? = none) :
    (tree.child parent segment).2.nodes.length = tree.nodes.length + 1 := by
  simp [child, missing]

theorem node_child_old (missing : (tree.node parent).children[segment]? = none) {id : ContextId}
    (inside : id < tree.nodes.length) :
    (tree.child parent segment).2.node id =
      if parent = id then
        { tree.node id with children := (tree.node id).children.insert segment tree.nextId }
      else tree.node id := by
  simp only [child, missing]
  rw [node_append_of_lt (by rw [List.length_modify]; exact inside), getD_modify inside]
  rfl

theorem node_child_new (missing : (tree.node parent).children[segment]? = none) :
    (tree.child parent segment).2.node tree.nodes.length =
      ⟨(tree.node parent).name.child segment, some parent, ∅,
        (tree.node parent).readOnly || (tree.node parent).childLocksDisabled, false⟩ := by
  simp only [child, missing]
  have here := node_append_self
    (tree.nodes.modify parent fun above =>
      { above with children := above.children.insert segment tree.nextId })
    ⟨(tree.node parent).name.child segment, some parent, ∅,
      (tree.node parent).readOnly || (tree.node parent).childLocksDisabled, false⟩ tree.roots
  rw [List.length_modify] at here
  exact here

/-- A new child is named after its parent, and read-only when the parent shuts it. -/
theorem place_child_new {parent : ContextId} {segment : String}
    (missing : (tree.node parent).children[segment]? = none) :
    (tree.child parent segment).2.place (tree.child parent segment).1 =
      ⟨tree.nodes.length, (tree.node parent).name.child segment,
        (tree.node parent).readOnly || (tree.node parent).childLocksDisabled⟩ := by
  have number : (tree.child parent segment).1 = tree.nodes.length := by
    simp only [child, missing]
    rfl
  rw [number, place, node_child_new missing]

/-- A new child changes nothing about the older nodes but the list of its parent's children. -/
theorem grows_child (missing : (tree.node parent).children[segment]? = none) :
    tree.Grows (tree.child parent segment).2 where
  length_le := by
    rw [length_child_of_missing missing]
    exact Nat.le_succ _
  parent_eq id inside := by
    rw [node_child_old missing inside]
    split
    · rfl
    · rfl
  place_eq id inside := by
    rw [place, node_child_old missing inside]
    split
    · rfl
    · rfl

theorem Sound.makes_child (sound : tree.Sound) (inside : parent < tree.nodes.length)
    (segment : String) :
    tree.Makes (tree.child parent segment) ∧
      ((tree.child parent segment).2.node (tree.child parent segment).1).parent = some parent := by
  cases found : (tree.node parent).children[segment]? with
  | some id =>
      obtain ⟨childInside, above⟩ := sound.children parent inside segment id found
      have same : tree.child parent segment = (id, tree) := by simp only [child, found]
      rw [same]
      exact ⟨sound.makes_found childInside, above⟩
  | none =>
      have grows := grows_child found
      have count := length_child_of_missing found
      have number : (tree.child parent segment).1 = tree.nodes.length := by
        simp only [child, found]
        rfl
      have last := node_child_new found
      refine ⟨⟨?_, grows, ?_⟩, ?_⟩
      · refine sound.extend grows count last rfl nofun ?_ ?_ ?_
        · rintro _ ⟨⟩
          exact ⟨inside, ResourceName.parent?_child _ _⟩
        · intro id idInside other child listed
          rw [node_child_old found idInside] at listed
          split at listed
          · next same =>
              rw [Std.ExtTreeMap.getElem?_insert] at listed
              split at listed
              · exact Or.inr ⟨(Option.some.inj listed).symm, congrArg some same⟩
              · exact Or.inl listed
          · exact Or.inl listed
        · intro other id listed
          simp only [child, found] at listed
          exact Or.inl listed
      · rw [number, count]
        exact Nat.lt_succ_self _
      · rw [number, last]

end

theorem Sound.makes_descend (segments : List String) : ∀ {tree : ContextTree} {id : ContextId},
    tree.Sound → id < tree.nodes.length → tree.Makes (tree.descend id segments) := by
  induction segments with
  | nil => exact fun sound inside => sound.makes_found inside
  | cons segment rest inductionHypothesis =>
      intro tree id sound inside
      obtain ⟨next, _⟩ := sound.makes_child inside segment
      have later := inductionHypothesis next.sound next.inside
      exact ⟨later.sound, next.grows.trans later.grows, later.inside⟩

theorem Sound.follow?_inside (sound : tree.Sound) (segments : List String) :
    ∀ {id found : ContextId}, id < tree.nodes.length → tree.follow? id segments = some found →
      found < tree.nodes.length := by
  induction segments with
  | nil =>
      intro id found inside followed
      cases followed
      exact inside
  | cons segment rest inductionHypothesis =>
      intro id found inside followed
      rw [follow?] at followed
      cases listed : (tree.node id).children[segment]? with
      | none => simp [listed] at followed
      | some next =>
          simp only [listed] at followed
          exact inductionHypothesis (sound.children id inside segment next listed).1 followed

theorem Sound.find?_inside (sound : tree.Sound) {name : ResourceName} {found : ContextId}
    (hit : tree.find? name = some found) : found < tree.nodes.length := by
  rw [find?] at hit
  cases listed : tree.roots[name.root]? with
  | none => simp [listed] at hit
  | some id =>
      simp only [listed] at hit
      exact sound.follow?_inside name.below (sound.roots name.root id listed) hit

/-- Stopping the locks on children moves no node and renames none. -/
theorem grows_disableChildLocks (tree : ContextTree) (id : ContextId) :
    tree.Grows (tree.disableChildLocks id) where
  length_le := by simp [disableChildLocks]
  parent_eq other inside := by
    rw [disableChildLocks, node, getD_modify inside]
    split
    · rfl
    · rfl
  place_eq other inside := by
    rw [disableChildLocks, place, node, getD_modify inside]
    split
    · rfl
    · rfl

theorem length_disableChildLocks (tree : ContextTree) (id : ContextId) :
    (tree.disableChildLocks id).nodes.length = tree.nodes.length := by
  simp [disableChildLocks]

/-- Stopping the locks on children lists no child and drops none. -/
theorem children_disableChildLocks (id : ContextId) {other : ContextId}
    (inside : other < tree.nodes.length) :
    ((tree.disableChildLocks id).node other).children = (tree.node other).children := by
  rw [disableChildLocks, node, getD_modify inside]
  split
  · rfl
  · rfl

theorem Sound.disableChildLocks (sound : tree.Sound) (id : ContextId) :
    (tree.disableChildLocks id).Sound := by
  have grows := grows_disableChildLocks tree id
  have count := length_disableChildLocks tree id
  constructor
  case top =>
    intro other inside above
    rw [count] at inside
    exact sound.top_grown grows inside above
  case below =>
    intro other inside parent above
    rw [count] at inside
    exact sound.below_grown grows inside above
  case children =>
    intro other inside segment child listed
    rw [count] at inside ⊢
    rw [children_disableChildLocks id inside] at listed
    exact sound.children_grown grows inside listed
  case roots =>
    rw [count]
    exact sound.roots

end ContextTree

end Granularity
