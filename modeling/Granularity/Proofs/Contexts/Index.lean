import Granularity.Proofs.Contexts.LookUp

/-!
Names lead to nodes, and read-only subtrees stay shut.

Every node of the tree is listed where a look-up searches for it: a root among the roots, and every
other node among the children of its parent.  So no name has two nodes, and whichever way a context
is found, it is the same node with the same flag.

A node is read-only when its parent is.  The children of a root that the configuration names are
read-only as well, since such a root has stopped the locks on its children from the moment on at
which it is made.
-/

namespace Granularity

/-- Nothing beneath the place can be locked: it is read-only, or the configuration says so. -/
def Config.Shuts (config : Config) (place : Place) : Prop :=
  place.readOnly = true ∨ ∃ segment ∈ config.readOnlyRoots, place.name = ⟨segment, []⟩

namespace ContextTree

/-- A node stands where it is searched for and has the flags that it should have. -/
structure Placed (tree : ContextTree) (config : Config) (id : ContextId) : Prop where
  top : (tree.node id).parent = none →
    ∃ segment, (tree.node id).name = ⟨segment, []⟩ ∧ tree.roots[segment]? = some id
  below : ∀ parent, (tree.node id).parent = some parent →
    ∃ segment, (tree.node id).name = (tree.node parent).name.child segment ∧
      (tree.node parent).children[segment]? = some id
  armed : ∀ segment ∈ config.readOnlyRoots, (tree.node id).name = ⟨segment, []⟩ →
    (tree.node id).childLocksDisabled = true
  shut : ∀ parent, (tree.node id).parent = some parent → config.Shuts (tree.place parent) →
    (tree.node id).readOnly = true

/-- Every node is placed so. -/
def Indexed (tree : ContextTree) (config : Config) : Prop :=
  ∀ id < tree.nodes.length, tree.Placed config id

namespace Indexed

variable {tree : ContextTree} {config : Config}

theorem empty (config : Config) : ContextTree.empty.Indexed config :=
  fun _ inside => absurd inside (Nat.not_lt_zero _)

/-! ### One node for a name -/

/-- A node with the name of a child is listed under it by the node of the parent. -/
theorem listed_child (indexed : tree.Indexed config) (sound : tree.Sound) {id : ContextId}
    (inside : id < tree.nodes.length) {name : ResourceName} {segment : String}
    (child : (tree.node id).name = name.child segment) :
    ∃ parent < tree.nodes.length, (tree.node parent).name = name ∧
      (tree.node parent).children[segment]? = some id := by
  have upper : (tree.node id).name.parent? = some name := by
    rw [child, ResourceName.parent?_child]
  cases above : (tree.node id).parent with
  | none =>
      rw [sound.top id inside above] at upper
      cases upper
  | some parent =>
      obtain ⟨earlier, parentName⟩ := sound.below id inside parent above
      obtain ⟨last, whole, listed⟩ := (indexed id inside).below parent above
      rw [upper, Option.some.injEq] at parentName
      rw [child, parentName] at whole
      have same : segment = last := by simpa [ResourceName.child] using whole
      exact ⟨parent, Nat.lt_trans earlier inside, parentName.symm, same ▸ listed⟩

/-- A node with the name of a root is listed under it among the roots. -/
theorem listed_root (indexed : tree.Indexed config) (sound : tree.Sound) {id : ContextId}
    (inside : id < tree.nodes.length) {segment : String}
    (root : (tree.node id).name = ⟨segment, []⟩) : tree.roots[segment]? = some id := by
  have top : (tree.node id).parent = none := by
    cases above : (tree.node id).parent with
    | none => rfl
    | some parent =>
        have upper := (sound.below id inside parent above).2
        rw [root] at upper
        cases upper
  obtain ⟨other, name, listed⟩ := (indexed id inside).top top
  rw [root, ResourceName.mk.injEq] at name
  exact name.1 ▸ listed

/-- No two nodes have the same name. -/
theorem eq_of_name_eq (indexed : tree.Indexed config) (sound : tree.Sound)
    {first second : ContextId} (firstInside : first < tree.nodes.length)
    (secondInside : second < tree.nodes.length)
    (same : (tree.node first).name = (tree.node second).name) : first = second := by
  generalize named : (tree.node second).name = name at same
  induction name using ResourceName.induction_child generalizing first second with
  | root segment =>
      have listed := indexed.listed_root sound firstInside same
      exact Option.some.inj (listed.symm.trans (indexed.listed_root sound secondInside named))
  | child upper segment inductionHypothesis =>
      obtain ⟨parent, parentInside, parentName, listed⟩ :=
        indexed.listed_child sound firstInside same
      obtain ⟨otherParent, otherInside, otherName, otherListed⟩ :=
        indexed.listed_child sound secondInside named
      obtain rfl := inductionHypothesis parentInside otherInside otherName parentName
      exact Option.some.inj (listed.symm.trans otherListed)

/-- A name has one context at most. -/
theorem context_eq (indexed : tree.Indexed config) (sound : tree.Sound) {first second : Context}
    (firstKnown : tree.Knows first) (secondKnown : tree.Knows second)
    (same : first.name = second.name) : first = second := by
  have id : first.place.id = second.place.id :=
    indexed.eq_of_name_eq sound firstKnown.1 secondKnown.1
      (firstKnown.name_eq.trans (same.trans secondKnown.name_eq.symm))
  rw [← firstKnown.2, ← secondKnown.2, id]

/-! ### Beneath a place that is shut -/

/-- Everything beneath a place that is shut is read-only. -/
theorem readOnly_beneath (indexed : tree.Indexed config) (sound : tree.Sound)
    {upper : ResourceName}
    (shuts : ∀ id < tree.nodes.length, (tree.node id).name = upper → config.Shuts (tree.place id))
    {id : ContextId} : id < tree.nodes.length → (tree.node id).name.isBeneath upper = true →
      (tree.node id).readOnly = true := by
  induction id using Nat.strongRecOn with
  | ind id inductionHypothesis =>
      intro inside beneath
      obtain ⟨parentName, parentAbove, within⟩ := ResourceName.isBeneath_iff_parent.mp beneath
      cases above : (tree.node id).parent with
      | none =>
          rw [sound.top id inside above] at parentAbove
          cases parentAbove
      | some parent =>
          obtain ⟨earlier, name⟩ := sound.below id inside parent above
          have parentInside := Nat.lt_trans earlier inside
          rw [name, Option.some.injEq] at parentAbove
          apply (indexed id inside).shut parent above
          rcases within with same | beneath
          · exact shuts parent parentInside (parentAbove.trans same.symm)
          · exact Or.inl (inductionHypothesis parent earlier parentInside (parentAbove ▸ beneath))

section

variable (indexed : tree.Indexed config) (sound : tree.Sound) {upper lower : Context}
include indexed sound

/-- Every context strictly beneath a root that the configuration names is read-only. -/
theorem readOnly_of_root {segment : String} (listed : segment ∈ config.readOnlyRoots)
    (known : tree.Knows lower) (beneath : lower.name.isBeneath ⟨segment, []⟩ = true) :
    lower.place.readOnly = true := by
  rw [← known.readOnly_eq]
  apply indexed.readOnly_beneath sound (fun _ _ named => Or.inr ⟨segment, listed, named⟩) known.1
  rw [known.name_eq]
  exact beneath

/-- Every context strictly beneath a read-only one is read-only. -/
theorem readOnly_of_upper (upperKnown : tree.Knows upper) (known : tree.Knows lower)
    (readOnly : upper.place.readOnly = true) (beneath : lower.name.isBeneath upper.name = true) :
    lower.place.readOnly = true := by
  have shuts : ∀ id < tree.nodes.length, (tree.node id).name = upper.name →
      config.Shuts (tree.place id) := by
    intro id inside named
    have same := indexed.eq_of_name_eq sound inside upperKnown.1
      (named.trans upperKnown.name_eq.symm)
    left
    rw [same, upperKnown.place_eq]
    exact readOnly
  rw [← known.readOnly_eq]
  apply indexed.readOnly_beneath sound shuts known.1
  rw [known.name_eq]
  exact beneath

end

end Indexed

/-! ### Growing trees -/

variable {tree grown : ContextTree} {config : Config}

/-- Whoever was listed is listed, and no lock that was stopped is let through. -/
structure Retains (tree grown : ContextTree) : Prop where
  roots : ∀ (segment : String) id, tree.roots[segment]? = some id → grown.roots[segment]? = some id
  children : ∀ id < tree.nodes.length, ∀ (segment : String) child,
    (tree.node id).children[segment]? = some child → (grown.node id).children[segment]? = some child
  stopped : ∀ id < tree.nodes.length, (tree.node id).childLocksDisabled = true →
    (grown.node id).childLocksDisabled = true

namespace Retains

theorem refl (tree : ContextTree) : tree.Retains tree :=
  ⟨fun _ _ listed => listed, fun _ _ _ _ listed => listed, fun _ _ stopped => stopped⟩

theorem trans {later : ContextTree} (first : tree.Retains grown) (grows : tree.Grows grown)
    (second : grown.Retains later) : tree.Retains later where
  roots segment id listed := second.roots segment id (first.roots segment id listed)
  children id inside segment child listed :=
    second.children id (Nat.lt_of_lt_of_le inside grows.length_le) segment child
      (first.children id inside segment child listed)
  stopped id inside stopped :=
    second.stopped id (Nat.lt_of_lt_of_le inside grows.length_le) (first.stopped id inside stopped)

end Retains

/-- The nodes that were there stay placed. -/
theorem Placed.kept {id : ContextId} (placed : tree.Placed config id) (sound : tree.Sound)
    (inside : id < tree.nodes.length) (grows : tree.Grows grown) (retains : tree.Retains grown) :
    grown.Placed config id where
  top above := by
    rw [grows.parent_eq id inside] at above
    obtain ⟨segment, name, listed⟩ := placed.top above
    exact ⟨segment, (grows.name_eq inside).trans name, retains.roots segment id listed⟩
  below parent above := by
    rw [grows.parent_eq id inside] at above
    have parentInside := Nat.lt_trans (sound.below id inside parent above).1 inside
    obtain ⟨segment, name, listed⟩ := placed.below parent above
    rw [grows.name_eq inside, grows.name_eq parentInside]
    exact ⟨segment, name, retains.children parent parentInside segment id listed⟩
  armed segment member name := by
    rw [grows.name_eq inside] at name
    exact retains.stopped id inside (placed.armed segment member name)
  shut parent above shuts := by
    rw [grows.parent_eq id inside] at above
    have parentInside := Nat.lt_trans (sound.below id inside parent above).1 inside
    rw [grows.place_eq parent parentInside] at shuts
    exact (congrArg Place.readOnly (grows.place_eq id inside)).trans
      (placed.shut parent above shuts)

/-- A tree in which every node is placed stays so when the one new node is placed. -/
theorem Indexed.extend (indexed : tree.Indexed config) (sound : tree.Sound)
    (grows : tree.Grows grown) (retains : tree.Retains grown)
    (count : grown.nodes.length = tree.nodes.length + 1)
    (placed : grown.Placed config tree.nodes.length) : grown.Indexed config := by
  intro id inside
  rw [count] at inside
  rcases Nat.lt_succ_iff_lt_or_eq.mp inside with inside | rfl
  · exact (indexed id inside).kept sound inside grows retains
  · exact placed

/-- Whoever looks up what is listed finds it when something else has been listed that was not. -/
theorem getElem?_insert_of_missing {listing : Std.ExtTreeMap String ContextId} {segment : String}
    (missing : listing[segment]? = none) (added : ContextId) {other : String} {id : ContextId}
    (listed : listing[other]? = some id) : (listing.insert segment added)[other]? = some id := by
  rw [Std.ExtTreeMap.getElem?_insert]
  split
  · next same =>
      rw [← Std.LawfulEqCmp.eq_of_compare same, missing] at listed
      cases listed
  · exact listed

section

variable {segment : String}

theorem retains_root (missing : tree.roots[segment]? = none) (disabled : Bool) :
    tree.Retains (tree.root segment disabled).2 where
  roots other id listed := by
    simp only [ContextTree.root, missing]
    exact getElem?_insert_of_missing missing _ listed
  children id inside other child listed := by
    simp only [ContextTree.root, missing]
    rw [node_append_of_lt inside]
    exact listed
  stopped id inside stopped := by
    simp only [ContextTree.root, missing]
    rw [node_append_of_lt inside]
    exact stopped

theorem placed_root (missing : tree.roots[segment]? = none) :
    (tree.root segment (config.disablesChildrenOf segment)).2.Placed config tree.nodes.length := by
  simp only [ContextTree.root, missing]
  constructor
  case top =>
    intro _
    rw [node_append_self]
    exact ⟨segment, rfl, Std.ExtTreeMap.getElem?_insert_self⟩
  case below =>
    intro parent above
    rw [node_append_self] at above
    cases above
  case armed =>
    intro other member name
    rw [node_append_self] at name ⊢
    cases name
    exact List.contains_iff_mem.mpr member
  case shut =>
    intro parent above
    rw [node_append_self] at above
    cases above

theorem Indexed.root (indexed : tree.Indexed config) (sound : tree.Sound) (segment : String) :
    (tree.root segment (config.disablesChildrenOf segment)).2.Indexed config := by
  cases found : tree.roots[segment]? with
  | some id =>
      simp only [ContextTree.root, found]
      exact indexed
  | none =>
      apply indexed.extend sound _ (retains_root found _) _ (placed_root found)
      · simp only [ContextTree.root, found]
        exact grows_append tree _ _
      · simp [ContextTree.root, found]

variable {parent : ContextId} (missing : (tree.node parent).children[segment]? = none)
include missing

theorem retains_child : tree.Retains (tree.child parent segment).2 where
  roots other id listed := by
    simp only [ContextTree.child, missing]
    exact listed
  children id inside other child listed := by
    rw [node_child_old missing inside]
    split
    · next same =>
        subst same
        exact getElem?_insert_of_missing missing _ listed
    · exact listed
  stopped id inside stopped := by
    rw [node_child_old missing inside]
    split
    · exact stopped
    · exact stopped

/-- A new child is listed by its parent and read-only if the parent stops the locks on its
children. -/
theorem Indexed.placed_child (indexed : tree.Indexed config) (inside : parent < tree.nodes.length) :
    (tree.child parent segment).2.Placed config tree.nodes.length := by
  have grows := grows_child missing
  have new := node_child_new missing
  constructor
  case top =>
    intro above
    rw [new] at above
    cases above
  case below =>
    intro upper above
    rw [new] at above ⊢
    cases above
    rw [grows.name_eq inside, node_child_old missing inside, if_pos rfl]
    exact ⟨segment, rfl, Std.ExtTreeMap.getElem?_insert_self⟩
  case armed =>
    intro other member name
    rw [new] at name
    have upper := ResourceName.parent?_child (tree.node parent).name segment
    rw [show (tree.node parent).name.child segment = ⟨other, []⟩ from name] at upper
    cases upper
  case shut =>
    intro upper above shuts
    rw [new] at above ⊢
    cases above
    rw [grows.place_eq parent inside] at shuts
    apply Bool.or_eq_true_iff.mpr
    rcases shuts with readOnly | ⟨other, member, name⟩
    · exact Or.inl readOnly
    · exact Or.inr ((indexed parent inside).armed other member name)

end

theorem Indexed.child (indexed : tree.Indexed config) (sound : tree.Sound) {parent : ContextId}
    (inside : parent < tree.nodes.length) (segment : String) :
    (tree.child parent segment).2.Indexed config := by
  cases found : (tree.node parent).children[segment]? with
  | some id =>
      simp only [ContextTree.child, found]
      exact indexed
  | none =>
      exact indexed.extend sound (grows_child found) (retains_child found)
        (length_child_of_missing found) (indexed.placed_child found inside)

/-- The locks on the children of one more node are stopped. -/
theorem childLocksDisabled_disableChildLocks (changed : ContextId) {id : ContextId}
    (inside : id < tree.nodes.length) :
    (tree.disableChildLocks changed).childLocksDisabled id =
      (decide (changed = id) || tree.childLocksDisabled id) := by
  rw [childLocksDisabled, disableChildLocks, node, getD_modify inside]
  split
  · next same => simp [same]
  · next apart => simp [apart, childLocksDisabled, node]

theorem retains_disableChildLocks (tree : ContextTree) (changed : ContextId) :
    tree.Retains (tree.disableChildLocks changed) where
  roots _ _ listed := listed
  children id inside segment child listed := by
    rw [children_disableChildLocks changed inside]
    exact listed
  stopped id inside stopped := by
    show (tree.disableChildLocks changed).childLocksDisabled id = true
    rw [childLocksDisabled_disableChildLocks changed inside, childLocksDisabled, stopped,
      Bool.or_true]

theorem Indexed.disableChildLocks (indexed : tree.Indexed config) (sound : tree.Sound)
    (changed : ContextId) : (tree.disableChildLocks changed).Indexed config := by
  intro id inside
  have old : id < tree.nodes.length := length_disableChildLocks tree changed ▸ inside
  exact (indexed id old).kept sound old (grows_disableChildLocks tree changed)
    (retains_disableChildLocks tree changed)

/-! ### What look-ups make -/

/-- A tree that comes from another by making roots, as the configuration has them, and children. -/
inductive Made (config : Config) (tree : ContextTree) : ContextTree → Prop where
  | nothing : Made config tree tree
  | root {grown : ContextTree} (earlier : Made config tree grown) (segment : String) :
      Made config tree (grown.root segment (config.disablesChildrenOf segment)).2
  | child {grown : ContextTree} (earlier : Made config tree grown) {parent : ContextId}
      (inside : parent < grown.nodes.length) (segment : String) :
      Made config tree (grown.child parent segment).2

theorem Made.indexed (made : Made config tree grown) (sound : tree.Sound)
    (indexed : tree.Indexed config) : grown.Sound ∧ grown.Indexed config := by
  induction made with
  | nothing => exact ⟨sound, indexed⟩
  | root _ segment inductionHypothesis =>
      obtain ⟨sound, indexed⟩ := inductionHypothesis
      exact ⟨(sound.makes_root segment _).sound, indexed.root sound segment⟩
  | child _ inside segment inductionHypothesis =>
      obtain ⟨sound, indexed⟩ := inductionHypothesis
      exact ⟨(sound.makes_child inside segment).1.sound, indexed.child sound inside segment⟩

/-- What look-ups make leaves the nodes that were there as they are. -/
theorem Made.retains (made : Made config tree grown) (sound : tree.Sound) :
    grown.Sound ∧ tree.Grows grown ∧ tree.Retains grown := by
  induction made with
  | nothing => exact ⟨sound, .refl tree, .refl tree⟩
  | @root before _ segment inductionHypothesis =>
      obtain ⟨sound, grows, retains⟩ := inductionHypothesis
      have makes := sound.makes_root segment (config.disablesChildrenOf segment)
      refine ⟨makes.sound, grows.trans makes.grows, retains.trans grows ?_⟩
      cases found : before.roots[segment]? with
      | some id =>
          simp only [ContextTree.root, found]
          exact .refl before
      | none => exact retains_root found _
  | @child before _ parent inside segment inductionHypothesis =>
      obtain ⟨sound, grows, retains⟩ := inductionHypothesis
      have makes := (sound.makes_child inside segment).1
      refine ⟨makes.sound, grows.trans makes.grows, retains.trans grows ?_⟩
      cases found : (before.node parent).children[segment]? with
      | some id =>
          simp only [ContextTree.child, found]
          exact .refl before
      | none => exact retains_child found

/-- Following segments makes one child after the other. -/
theorem Made.descend (segments : List String) :
    ∀ {grown : ContextTree} {id : ContextId}, Made config tree grown → grown.Sound →
      id < grown.nodes.length → Made config tree (grown.descend id segments).2 := by
  induction segments with
  | nil => exact fun made _ _ => made
  | cons segment rest inductionHypothesis =>
      intro grown id made sound inside
      obtain ⟨next, _⟩ := sound.makes_child inside segment
      exact inductionHypothesis (made.child inside segment) next.sound next.inside

/-! ### Trees without read-only contexts -/

/-- No context is read-only, and none has stopped the locks on its children. -/
def Writable (tree : ContextTree) : Prop :=
  ∀ node ∈ tree.nodes, node.readOnly = false ∧ node.childLocksDisabled = false

namespace Writable

theorem empty : ContextTree.empty.Writable :=
  fun _ member => by cases member

/-- A number that is not in use stands for a node without flags. -/
theorem node (writable : tree.Writable) (id : ContextId) :
    (tree.node id).readOnly = false ∧ (tree.node id).childLocksDisabled = false := by
  rw [ContextTree.node, List.getD_eq_getElem?_getD]
  cases found : tree.nodes[id]? with
  | none => exact ⟨rfl, rfl⟩
  | some node => exact writable node (List.mem_of_getElem? found)

theorem root (writable : tree.Writable) (segment : String) :
    (tree.root segment false).2.Writable := by
  rw [ContextTree.root]
  split
  · exact writable
  · intro node member
    rcases List.mem_append.mp member with member | new
    · exact writable node member
    · rw [List.mem_singleton.mp new]
      exact ⟨rfl, rfl⟩

theorem child (writable : tree.Writable) (parent : ContextId) (segment : String) :
    (tree.child parent segment).2.Writable := by
  rw [ContextTree.child]
  dsimp only
  split
  · exact writable
  · intro node member
    rcases List.mem_append.mp member with linked | new
    · obtain ⟨id, found⟩ := List.mem_iff_getElem?.mp linked
      rw [List.getElem?_modify] at found
      obtain ⟨before, there, same⟩ := Option.map_eq_some_iff.mp found
      have flags := writable before (List.mem_of_getElem? there)
      rw [← same]
      split
      · exact flags
      · exact flags
    · rw [List.mem_singleton.mp new]
      obtain ⟨readOnly, disabled⟩ := writable.node parent
      simp [readOnly, disabled]

/-- Look-ups keep it so, if the configuration names no root. -/
theorem made (writable : tree.Writable) (none : config.readOnlyRoots = [])
    (made : Made config tree grown) : grown.Writable := by
  induction made with
  | nothing => exact writable
  | root _ segment inductionHypothesis =>
      have allowed : config.disablesChildrenOf segment = false := by
        rw [Config.disablesChildrenOf, none]
        rfl
      rw [allowed]
      exact inductionHypothesis.root segment
  | child _ inside segment inductionHypothesis => exact inductionHypothesis.child _ segment

theorem placesAbove (writable : tree.Writable) (most : Nat) :
    ∀ id, ∀ place ∈ tree.placesAbove most id, place.readOnly = false := by
  induction most with
  | zero =>
      intro id place member
      cases member
  | succ most inductionHypothesis =>
      intro id place member
      rw [ContextTree.placesAbove] at member
      split at member
      · cases member
      · next parent above =>
          rcases List.mem_cons.mp member with rfl | member
          · exact (writable.node parent).1
          · exact inductionHypothesis parent place member

/-- Nothing in a context of the tree is read-only. -/
theorem places (writable : tree.Writable) {context : Context} (known : tree.Knows context) :
    ∀ place ∈ context.place :: context.above, place.readOnly = false := by
  rw [← known.2]
  intro place member
  rcases List.mem_cons.mp member with rfl | member
  · exact (writable.node _).1
  · exact writable.placesAbove _ _ place member

end Writable

end ContextTree

/-- A look-up makes roots and children and nothing else. -/
theorem LookUp.made {wanted : LookUp} {tree : ContextTree} {config : Config}
    {found : Context × ContextTree} (sound : tree.Sound)
    (known : ∀ context ∈ wanted.start?, tree.Knows context)
    (ok : wanted.resolve tree config = .ok found) : ContextTree.Made config tree found.2 := by
  cases resolved ok with
  | @root segment _ _ making => exact making ▸ ContextTree.Made.nothing.root segment
  | found => exact .nothing
  | @made _ name _ _ _ _ _ rooting making =>
      have top := rooting ▸ sound.makes_root name.root (config.disablesChildrenOf name.root)
      have rooted : ContextTree.Made config tree _ :=
        rooting ▸ ContextTree.Made.nothing.root name.root
      exact making ▸ rooted.descend name.below top.sound top.inside
  | @child parent segment _ _ making =>
      exact making ▸ ContextTree.Made.nothing.child (known parent rfl).1 segment

end Granularity
