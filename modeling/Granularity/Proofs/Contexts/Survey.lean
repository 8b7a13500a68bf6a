import Granularity.Proofs.Contexts.Index

/-!
The tree of contexts is a faithful picture of the names.

A survey is a sequence of look-ups, in every way there is, and of stops of the locks on children;
it keeps every context that it has been handed.  In the tree that it makes, nodes and well-formed
names correspond one to one, a look-up of a name that is there leads to its node and makes nothing,
and a node once made keeps what contexts show of it.
-/

namespace Granularity

namespace ContextTree

variable {tree grown : ContextTree} {config : Config}

/-! ### Labels -/

/-- Every name is well-formed, and whatever is listed is listed under the last segment of its
name. -/
structure Named (tree : ContextTree) : Prop where
  wellFormed : ∀ id < tree.nodes.length, (tree.node id).name.WellFormed
  roots : ∀ (segment : String) id, tree.roots[segment]? = some id →
    (tree.node id).name = ⟨segment, []⟩
  children : ∀ id < tree.nodes.length, ∀ (segment : String) child,
    (tree.node id).children[segment]? = some child →
      (tree.node child).name = (tree.node id).name.child segment

namespace Named

theorem empty : Named ContextTree.empty := by
  constructor <;> simp [ContextTree.empty]

/-- The tree stays so when one node is added under a well-formed name, and nothing else is newly
listed. -/
theorem extend (named : tree.Named) (sound : tree.Sound) (grows : tree.Grows grown)
    (count : grown.nodes.length = tree.nodes.length + 1)
    (wellFormed : (grown.node tree.nodes.length).name.WellFormed)
    (childless : (grown.node tree.nodes.length).children = ∅)
    (roots : ∀ (segment : String) id, grown.roots[segment]? = some id →
      tree.roots[segment]? = some id ∨
        id = tree.nodes.length ∧ (grown.node id).name = ⟨segment, []⟩)
    (children : ∀ id < tree.nodes.length, ∀ (segment : String) child,
      (grown.node id).children[segment]? = some child →
        (tree.node id).children[segment]? = some child ∨
          child = tree.nodes.length ∧
            (grown.node child).name = (tree.node id).name.child segment) : grown.Named := by
  constructor
  case wellFormed =>
    intro id inside
    rw [count] at inside
    rcases Nat.lt_succ_iff_lt_or_eq.mp inside with inside | rfl
    · rw [grows.name_eq inside]
      exact named.wellFormed id inside
    · exact wellFormed
  case roots =>
    intro segment id listed
    rcases roots segment id listed with listed | ⟨_, name⟩
    · rw [grows.name_eq (sound.roots segment id listed)]
      exact named.roots segment id listed
    · exact name
  case children =>
    intro id inside segment child listed
    rw [count] at inside
    rcases Nat.lt_succ_iff_lt_or_eq.mp inside with inside | rfl
    · rw [grows.name_eq inside]
      rcases children id inside segment child listed with listed | ⟨_, name⟩
      · rw [grows.name_eq (sound.children id inside segment child listed).1]
        exact named.children id inside segment child listed
      · exact name
    · rw [childless] at listed
      simp at listed

variable (named : tree.Named) (sound : tree.Sound) {segment : String}
include named sound

theorem root (checked : ResourceName.IsSegment segment) (disabled : Bool) :
    (tree.root segment disabled).2.Named := by
  cases found : tree.roots[segment]? with
  | some id =>
      simp only [ContextTree.root, found]
      exact named
  | none =>
      simp only [ContextTree.root, found]
      refine named.extend sound (grows_append tree _ _) (by simp) ?_ ?_ ?_ ?_
      · rw [node_append_self]
        exact ResourceName.wellFormed_root.mpr checked
      · rw [node_append_self]
      · intro other id listed
        rw [Std.ExtTreeMap.getElem?_insert] at listed
        split at listed
        · next same =>
            obtain rfl := Std.LawfulEqCmp.eq_of_compare same
            obtain rfl := Option.some.inj listed
            exact Or.inr ⟨rfl, congrArg ContextNode.name (node_append_self _ _ _)⟩
        · exact Or.inl listed
      · intro id inside other child listed
        rw [node_append_of_lt inside] at listed
        exact Or.inl listed

theorem child {parent : ContextId} (inside : parent < tree.nodes.length)
    (checked : ResourceName.IsSegment segment) : (tree.child parent segment).2.Named := by
  cases found : (tree.node parent).children[segment]? with
  | some id =>
      simp only [ContextTree.child, found]
      exact named
  | none =>
      have last := node_child_new found
      refine named.extend sound (grows_child found) (length_child_of_missing found) ?_ ?_ ?_ ?_
      · rw [last]
        exact ResourceName.wellFormed_child.mpr ⟨named.wellFormed parent inside, checked⟩
      · rw [last]
      · intro other id listed
        simp only [ContextTree.child, found] at listed
        exact Or.inl listed
      · intro id idInside other child listed
        rw [node_child_old found idInside] at listed
        split at listed
        · next parentOf =>
            rw [Std.ExtTreeMap.getElem?_insert] at listed
            split at listed
            · next same =>
                obtain rfl := Std.LawfulEqCmp.eq_of_compare same
                obtain rfl := Option.some.inj listed
                refine Or.inr ⟨rfl, ?_⟩
                rw [← parentOf]
                exact congrArg ContextNode.name last
            · exact Or.inl listed
        · exact Or.inl listed

omit named sound in
theorem descend (segments : List String) : ∀ {tree : ContextTree} {id : ContextId}, tree.Named →
    tree.Sound → id < tree.nodes.length →
      (∀ segment ∈ segments, ResourceName.IsSegment segment) →
        (tree.descend id segments).2.Named := by
  induction segments with
  | nil => exact fun named _ _ _ => named
  | cons segment rest inductionHypothesis =>
      intro tree id named sound inside checked
      obtain ⟨segmentChecked, restChecked⟩ := List.forall_mem_cons.mp checked
      obtain ⟨next, _⟩ := sound.makes_child inside segment
      exact inductionHypothesis (named.child sound inside segmentChecked) next.sound next.inside
        restChecked

theorem disableChildLocks (changed : ContextId) : (tree.disableChildLocks changed).Named := by
  have grows := grows_disableChildLocks tree changed
  have count := length_disableChildLocks tree changed
  constructor
  case wellFormed =>
    intro id inside
    rw [count] at inside
    rw [grows.name_eq inside]
    exact named.wellFormed id inside
  case roots =>
    intro segment id listed
    rw [grows.name_eq (sound.roots segment id listed)]
    exact named.roots segment id listed
  case children =>
    intro id inside segment child listed
    rw [count] at inside
    rw [children_disableChildLocks changed inside] at listed
    rw [grows.name_eq inside, grows.name_eq (sound.children id inside segment child listed).1]
    exact named.children id inside segment child listed

/-- A look-up makes nodes under checked segments alone. -/
theorem resolve {wanted : LookUp} {found : Context × ContextTree}
    (known : ∀ context ∈ wanted.start?, tree.Knows context)
    (ok : wanted.resolve tree config = .ok found) : found.2.Named := by
  cases LookUp.resolved ok with
  | root checked making => exact making ▸ named.root sound checked _
  | found => exact named
  | @made _ name _ _ _ _ checked rooting making =>
      obtain ⟨rootChecked, belowChecked⟩ := List.forall_mem_cons.mp checked
      have top := rooting ▸ sound.makes_root name.root (config.disablesChildrenOf name.root)
      have rooted := rooting ▸ named.root sound rootChecked (config.disablesChildrenOf name.root)
      exact making ▸ Named.descend name.below rooted top.sound top.inside belowChecked
  | child checked making => exact making ▸ named.child sound (known _ rfl).1 checked

omit sound in
theorem name_root (segment : String) (disabled : Bool) :
    ((tree.root segment disabled).2.node (tree.root segment disabled).1).name = ⟨segment, []⟩ := by
  cases found : tree.roots[segment]? with
  | some id =>
      simp only [ContextTree.root, found]
      exact named.roots segment id found
  | none =>
      simp only [ContextTree.root, found]
      exact congrArg ContextNode.name (node_append_self _ _ _)

omit sound in
theorem name_child {parent : ContextId} (inside : parent < tree.nodes.length) (segment : String) :
    ((tree.child parent segment).2.node (tree.child parent segment).1).name =
      (tree.node parent).name.child segment := by
  cases found : (tree.node parent).children[segment]? with
  | some id =>
      simp only [ContextTree.child, found]
      exact named.children parent inside segment id found
  | none =>
      have number : (tree.child parent segment).1 = tree.nodes.length := by
        simp only [ContextTree.child, found]
        rfl
      rw [number]
      exact congrArg ContextNode.name (node_child_new found)

omit named sound in
/-- The node reached by following segments has them at the end of its name. -/
theorem name_descend (segments : List String) : ∀ {tree : ContextTree} {id : ContextId},
    tree.Named → tree.Sound → id < tree.nodes.length →
      (∀ segment ∈ segments, ResourceName.IsSegment segment) →
        ((tree.descend id segments).2.node (tree.descend id segments).1).name =
          ⟨(tree.node id).name.root, (tree.node id).name.below ++ segments⟩ := by
  induction segments with
  | nil =>
      intro tree id _ _ _ _
      rw [List.append_nil]
      rfl
  | cons segment rest inductionHypothesis =>
      intro tree id named sound inside checked
      obtain ⟨segmentChecked, restChecked⟩ := List.forall_mem_cons.mp checked
      obtain ⟨next, _⟩ := sound.makes_child inside segment
      have later := inductionHypothesis (named.child sound inside segmentChecked) next.sound
        next.inside restChecked
      rw [named.name_child inside, ResourceName.child, List.append_assoc] at later
      exact later

end Named

/-! ### Finding names -/

theorem follow?_concat (segment : String) (segments : List String) (id : ContextId) :
    tree.follow? id (segments ++ [segment]) =
      (tree.follow? id segments).bind fun next => (tree.node next).children[segment]? := by
  induction segments generalizing id with
  | nil =>
      rw [List.nil_append, follow?, follow?, Option.bind_some]
      cases (tree.node id).children[segment]? with
      | none => rfl
      | some next => rfl
  | cons first rest inductionHypothesis =>
      rw [List.cons_append, follow?, follow?]
      cases (tree.node id).children[first]? with
      | none => rfl
      | some next => exact inductionHypothesis next

theorem find?_root (segment : String) : tree.find? ⟨segment, []⟩ = tree.roots[segment]? := by
  rw [find?]
  cases tree.roots[segment]? with
  | none => rfl
  | some id => rfl

/-- A child is found among the children of its parent. -/
theorem find?_child (name : ResourceName) (segment : String) :
    tree.find? (name.child segment) =
      (tree.find? name).bind fun parent => (tree.node parent).children[segment]? := by
  rw [find?, find?]
  cases listed : tree.roots[name.root]? with
  | none => simp [ResourceName.child, listed]
  | some id =>
      simp only [ResourceName.child, listed]
      exact follow?_concat segment name.below id

section

variable (sound : tree.Sound) (indexed : tree.Indexed config) (named : tree.Named)
include sound indexed named

/-- A name is found exactly when a node has it, and then this node is found. -/
theorem find?_eq_some_iff {name : ResourceName} : ∀ {id : ContextId},
    tree.find? name = some id ↔ id < tree.nodes.length ∧ (tree.node id).name = name := by
  induction name using ResourceName.induction_child with
  | root segment =>
      intro id
      rw [find?_root]
      constructor
      · exact fun listed => ⟨sound.roots segment id listed, named.roots segment id listed⟩
      · exact fun ⟨inside, name⟩ => indexed.listed_root sound inside name
  | child upper segment inductionHypothesis =>
      intro id
      rw [find?_child, Option.bind_eq_some_iff]
      constructor
      · rintro ⟨parent, found, listed⟩
        obtain ⟨parentInside, name⟩ := inductionHypothesis.mp found
        rw [named.children parent parentInside segment id listed, name]
        exact ⟨(sound.children parent parentInside segment id listed).1, rfl⟩
      · rintro ⟨inside, name⟩
        obtain ⟨parent, parentInside, parentName, listed⟩ :=
          indexed.listed_child sound inside name
        exact ⟨parent, inductionHypothesis.mpr ⟨parentInside, parentName⟩, listed⟩

/-- A look-up that succeeds finds the context of the name that it looks for. -/
theorem name_of_resolve {wanted : LookUp} (known : ∀ context ∈ wanted.start?, tree.Knows context)
    {found : Context × ContextTree} (ok : wanted.resolve tree config = .ok found) :
    wanted.name? = some found.1.name := by
  cases LookUp.resolved ok with
  | @root segment _ _ making => exact congrArg some (making ▸ named.name_root segment _).symm
  | found sought there =>
      have name := ((find?_eq_some_iff sound indexed named).mp there).2
      exact sought.trans (congrArg some name.symm)
  | @made _ name _ _ sought _ checked rooting making =>
      obtain ⟨rootChecked, belowChecked⟩ := List.forall_mem_cons.mp checked
      have top := rooting ▸ sound.makes_root name.root (config.disablesChildrenOf name.root)
      have rooted := rooting ▸ named.root sound rootChecked (config.disablesChildrenOf name.root)
      have topName := rooting ▸ named.name_root name.root (config.disablesChildrenOf name.root)
      have bottom := making ▸ Named.name_descend name.below rooted top.sound top.inside belowChecked
      rw [topName] at bottom
      exact sought.trans (congrArg some bottom.symm)
  | @child parent segment _ _ making =>
      have parentKnown := known parent rfl
      have name := making ▸ named.name_child parentKnown.1 segment
      rw [parentKnown.name_eq] at name
      exact congrArg some name.symm

/-- A look-up succeeds exactly when it looks for a well-formed name. -/
theorem exists_resolve_iff {wanted : LookUp}
    (known : ∀ context ∈ wanted.start?, tree.Knows context) :
    (∃ found, wanted.resolve tree config = .ok found) ↔
      ∃ name, wanted.name? = some name ∧ name.WellFormed := by
  constructor
  · rintro ⟨found, ok⟩
    have finds := LookUp.finds sound known ok
    have wellFormed := (named.resolve sound known ok).wellFormed _ finds.knows.1
    rw [finds.knows.name_eq] at wellFormed
    exact ⟨_, name_of_resolve sound indexed named known ok, wellFormed⟩
  · rintro ⟨name, sought, wellFormed⟩
    exact LookUp.exists_resolve sought wellFormed

/-- Whichever way a name is looked for that is there, its node is found and the tree stays. -/
theorem resolve_of_name {wanted : LookUp} (known : ∀ context ∈ wanted.start?, tree.Knows context)
    {id : ContextId} (inside : id < tree.nodes.length)
    (sought : wanted.name? = some (tree.node id).name) :
    wanted.resolve tree config = .ok (tree.attach id, tree) := by
  have wellFormed := named.wellFormed id inside
  have byName : tree.contextOfName config (tree.node id).name = .ok (tree.attach id, tree) := by
    rw [contextOfName, (find?_eq_some_iff sound indexed named).mpr ⟨inside, rfl⟩]
  cases wanted with
  | root segment =>
      obtain name := (Option.some.inj sought).symm
      rw [name, ResourceName.wellFormed_root] at wellFormed
      have listed := indexed.listed_root sound inside name
      rw [LookUp.resolve, rootContext, LookUp.checkSegment_eq_ok.mpr wellFormed, root, listed]
      rfl
  | named name =>
      obtain rfl := Option.some.inj sought
      exact byName
  | spelled path =>
      rw [LookUp.name?] at sought
      cases read : ResourceName.ofPath path with
      | error flaw => simp [read, Except.toOption] at sought
      | ok name =>
          rw [read] at sought
          obtain rfl := Option.some.inj sought
          rw [LookUp.resolve, contextOfPath, read]
          exact byName
  | child parent segment =>
      have parentKnown := known parent rfl
      obtain name := (Option.some.inj sought).symm
      obtain ⟨upper, upperInside, upperName, listed⟩ := indexed.listed_child sound inside name
      obtain rfl : upper = parent.place.id := indexed.eq_of_name_eq sound upperInside parentKnown.1
        (upperName.trans parentKnown.name_eq.symm)
      have above := (sound.children _ upperInside segment id listed).2
      rw [name, ResourceName.wellFormed_child] at wellFormed
      rw [LookUp.resolve, childContext, LookUp.checkSegment_eq_ok.mpr wellFormed.2, child]
      simp only [listed]
      rw [sound.attach_eq inside above, parentKnown.2, parentKnown.place_eq]
      rfl

end

/-! ### Nodes and names -/

/-- Nodes and well-formed names correspond one to one, and the hierarchy of the nodes is that of
their names. -/
structure Faithful (tree : ContextTree) : Prop where
  one_node : ∀ first < tree.nodes.length, ∀ second < tree.nodes.length,
    (tree.node first).name = (tree.node second).name → first = second
  sound_segments : ∀ id < tree.nodes.length, ∀ segment ∈ (tree.node id).name.segments,
    segment ≠ "" ∧ '/' ∉ segment.toList
  parent_name : ∀ id < tree.nodes.length,
    (tree.node id).name.parent? = (tree.node id).parent.map fun parent => (tree.node parent).name
  parent_earlier : ∀ id < tree.nodes.length, ∀ parent ∈ (tree.node id).parent, parent < id
  find : ∀ name id, tree.find? name = some id ↔ id < tree.nodes.length ∧ (tree.node id).name = name
  ancestors : ∀ id < tree.nodes.length,
    (tree.attach id).above.map Place.name = (tree.node id).name.ancestors
  /-- However far one goes up, no more places stand above a node than those of its context. -/
  above_ends : ∀ id < tree.nodes.length, ∀ most, id ≤ most →
    tree.placesAbove most id = (tree.attach id).above

theorem Sound.faithful (sound : tree.Sound) (indexed : tree.Indexed config) (named : tree.Named) :
    tree.Faithful where
  one_node first firstInside second secondInside same :=
    indexed.eq_of_name_eq sound firstInside secondInside same
  sound_segments := named.wellFormed
  parent_name id inside := by
    cases above : (tree.node id).parent with
    | none => exact sound.top id inside above
    | some parent => exact (sound.below id inside parent above).2
  parent_earlier id inside parent above := (sound.below id inside parent above).1
  find _ _ := find?_eq_some_iff sound indexed named
  ancestors _ inside := sound.attach_aligned inside
  above_ends id inside _ enough := sound.placesAbove_eq _ _ inside enough (Nat.le_refl id)

end ContextTree

/-! ### Surveys -/

/-- What can be asked of the contexts. -/
inductive Visit where
  /-- Look up a context. -/
  | lookUp (wanted : LookUp)
  /-- Go to the context above a context. -/
  | goUp (context : Context)
  /-- Stop the locks on the children of a context. -/
  | disableChildLocks (context : Context)

/-- A tree of contexts, and the contexts that have been handed out, oldest first. -/
structure Survey where
  tree : ContextTree
  handed : List Context

namespace Survey

/-- Nothing has been looked up yet. -/
def opened : Survey :=
  ⟨.empty, []⟩

/-- The survey after a visit.  A visit sets out from a context that has been handed out, and one
that fails changes nothing. -/
def visit (config : Config) (survey : Survey) : Visit → Survey
  | .lookUp wanted =>
      if wanted.start?.all fun context => context ∈ survey.handed then
        match wanted.resolve survey.tree config with
        | .error _ => survey
        | .ok (context, grown) => ⟨grown, survey.handed ++ [context]⟩
      else survey
  | .goUp context =>
      if context ∈ survey.handed then
        { survey with handed := survey.handed ++ context.parent?.toList }
      else survey
  | .disableChildLocks context =>
      if context ∈ survey.handed then
        { survey with tree := survey.tree.disableChildLocks context.place.id }
      else survey

/-- The survey after some visits in order. -/
def after (config : Config) (survey : Survey) (visits : List Visit) : Survey :=
  visits.foldl (visit config) survey

/-- What holds after any visits. -/
structure Sound (config : Config) (survey : Survey) : Prop where
  tree : survey.tree.Sound
  indexed : survey.tree.Indexed config
  named : survey.tree.Named
  known : ∀ context ∈ survey.handed, survey.tree.Knows context

namespace Sound

variable {config : Config} {survey : Survey}

theorem opened : Sound config Survey.opened :=
  ⟨.empty, .empty config, .empty, nofun⟩

variable (sound : survey.Sound config)
include sound

theorem visit (visit : Visit) :
    (survey.visit config visit).Sound config ∧
      survey.tree.Grows (survey.visit config visit).tree := by
  have stays : survey.Sound config ∧ survey.tree.Grows survey.tree := ⟨sound, .refl _⟩
  cases visit with
  | lookUp wanted =>
      rw [Survey.visit]
      split
      · next started =>
          split
          · exact stays
          · next context grown found =>
              have known : ∀ start ∈ wanted.start?, survey.tree.Knows start := by
                intro start member
                rw [Option.mem_def.mp member] at started
                exact sound.known start (of_decide_eq_true started)
              have finds := LookUp.finds sound.tree known found
              have made := (LookUp.made sound.tree known found).indexed sound.tree sound.indexed
              have named := sound.named.resolve sound.tree known found
              refine ⟨⟨finds.sound, made.2, named, ?_⟩, finds.grows⟩
              intro handed member
              rcases List.mem_append.mp member with member | new
              · exact sound.tree.knows_grown finds.grows (sound.known handed member)
              · exact List.mem_singleton.mp new ▸ finds.knows
      · exact stays
  | goUp context =>
      rw [Survey.visit]
      split
      · next member =>
          refine ⟨⟨sound.tree, sound.indexed, sound.named, ?_⟩, .refl _⟩
          intro handed among
          rcases List.mem_append.mp among with among | new
          · exact sound.known handed among
          · obtain ⟨place, above⟩ := context
            cases above with
            | nil => cases new
            | cons upper above =>
                obtain rfl := List.mem_singleton.mp new
                exact sound.tree.knows_above (sound.known _ member)
      · exact stays
  | disableChildLocks context =>
      rw [Survey.visit]
      split
      · have grows := ContextTree.grows_disableChildLocks survey.tree context.place.id
        exact ⟨⟨sound.tree.disableChildLocks _, sound.indexed.disableChildLocks sound.tree _,
          sound.named.disableChildLocks sound.tree _,
          fun handed member => sound.tree.knows_grown grows (sound.known handed member)⟩, grows⟩
      · exact stays

theorem after (visits : List Visit) :
    (survey.after config visits).Sound config ∧
      survey.tree.Grows (survey.after config visits).tree := by
  induction visits generalizing survey with
  | nil => exact ⟨sound, .refl _⟩
  | cons visit visits inductionHypothesis =>
      obtain ⟨next, grows⟩ := sound.visit visit
      obtain ⟨last, grown⟩ := inductionHypothesis next
      exact ⟨last, grows.trans grown⟩

end Sound

/-- The tree of contexts is a faithful picture of the names, whatever has been visited and whichever
visits have failed.  Nodes and well-formed names correspond one to one: no two nodes have one name,
a name is found exactly when a node has it, the parent of a node is an earlier node that has the
parent's name, and the places above a node carry the ancestors of its name, nearest first.  A
look-up succeeds exactly when it looks for a well-formed name, and then it finds the context of this
name; if the name is there, its node is found and the tree stays as it is.  A node keeps its number,
name, parent and flag whatever is visited later.  And a context that has been handed out is the
context of its node, with all that stands above. -/
theorem faithful_after (config : Config) (visits later : List Visit) :
    let survey := opened.after config visits
    let further := survey.after config later
    survey.tree.Faithful ∧
    (∀ wanted : LookUp, (∀ context ∈ wanted.start?, context ∈ survey.handed) →
      ((∃ found, wanted.resolve survey.tree config = .ok found) ↔
        ∃ name, wanted.name? = some name ∧ name.WellFormed) ∧
      (∀ found, wanted.resolve survey.tree config = .ok found →
        wanted.name? = some found.1.name) ∧
      ∀ id < survey.tree.nodes.length, wanted.name? = some (survey.tree.node id).name →
        wanted.resolve survey.tree config = .ok (survey.tree.attach id, survey.tree)) ∧
    (∀ id < survey.tree.nodes.length, id < further.tree.nodes.length ∧
      (further.tree.node id).name = (survey.tree.node id).name ∧
      (further.tree.node id).parent = (survey.tree.node id).parent ∧
      (further.tree.node id).readOnly = (survey.tree.node id).readOnly) ∧
    ∀ context ∈ survey.handed, context.place.id < survey.tree.nodes.length ∧
      further.tree.attach context.place.id = context ∧
      context.above.map Place.name = context.name.ancestors := by
  intro survey further
  have sound : survey.Sound config := (Sound.opened.after visits).1
  obtain ⟨last, grows⟩ := sound.after later
  refine ⟨sound.tree.faithful sound.indexed sound.named, ?_, ?_, ?_⟩
  · intro wanted started
    have known : ∀ context ∈ wanted.start?, survey.tree.Knows context :=
      fun context member => sound.known context (started context member)
    exact ⟨ContextTree.exists_resolve_iff sound.tree sound.indexed sound.named known,
      fun found ok => ContextTree.name_of_resolve sound.tree sound.indexed sound.named known ok,
      fun id inside sought =>
        ContextTree.resolve_of_name sound.tree sound.indexed sound.named known inside sought⟩
  · intro id inside
    exact ⟨Nat.lt_of_lt_of_le inside grows.length_le, grows.name_eq inside,
      grows.parent_eq id inside, congrArg Place.readOnly (grows.place_eq id inside)⟩
  · intro context member
    have known := sound.known context member
    exact ⟨known.1, (sound.tree.knows_grown grows known).2, sound.tree.aligned known⟩

end Survey

end Granularity
