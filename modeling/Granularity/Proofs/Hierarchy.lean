import Granularity.ResourceName
import Mathlib.Data.List.Induction

/-!
The order of names in a hierarchy.

A name is a root or the child of another name, so facts about names go by cases on this or by
induction on the path.  `ResourceName.isBeneath` compares paths and `ResourceName.ancestors` lists
them; both agree, and the names above one name form a chain.
-/

namespace Granularity

namespace ResourceName

/-- A name is a root or the child of another name. -/
theorem root_or_child (name : ResourceName) :
    (∃ segment, name = ⟨segment, []⟩) ∨
      ∃ (parent : ResourceName) (segment : String), name = parent.child segment := by
  obtain ⟨top, below⟩ := name
  rcases List.eq_nil_or_concat below with rfl | ⟨earlier, segment, rfl⟩
  · exact Or.inl ⟨top, rfl⟩
  · exact Or.inr ⟨⟨top, earlier⟩, segment, by simp [child]⟩

/-- Whatever holds of every root, and of a child with its parent, holds of every name. -/
theorem induction_child {motive : ResourceName → Prop} (name : ResourceName)
    (root : ∀ segment, motive ⟨segment, []⟩)
    (child : ∀ (parent : ResourceName) segment, motive parent → motive (parent.child segment)) :
    motive name := by
  obtain ⟨top, below⟩ := name
  induction below using List.reverseRecOn with
  | nil => exact root top
  | append_singleton below segment inductionHypothesis =>
      exact child ⟨top, below⟩ segment inductionHypothesis

@[simp] theorem segments_child (name : ResourceName) (segment : String) :
    (name.child segment).segments = name.segments ++ [segment] := rfl

@[simp] theorem parent?_root (segment : String) : parent? ⟨segment, []⟩ = none := rfl

@[simp] theorem parent?_child (name : ResourceName) (segment : String) :
    (name.child segment).parent? = some name := by
  obtain ⟨top, below⟩ := name
  cases below with
  | nil => rfl
  | cons first rest =>
      show some (ResourceName.mk top ((first :: rest ++ [segment]).dropLast)) = _
      rw [List.dropLast_concat]

theorem parent?_eq_some {name parent : ResourceName} :
    name.parent? = some parent ↔ ∃ segment, name = parent.child segment := by
  constructor
  · intro above
    rcases root_or_child name with ⟨segment, rfl⟩ | ⟨other, segment, rfl⟩
    · simp at above
    · rw [parent?_child, Option.some.injEq] at above
      exact ⟨segment, by rw [above]⟩
  · rintro ⟨segment, rfl⟩
    exact parent?_child parent segment

/-! ### Being beneath -/

@[simp] theorem isBeneath_root (segment : String) (upper : ResourceName) :
    isBeneath ⟨segment, []⟩ upper = false := by
  simp [isBeneath, segments]

/-- Beneath a name lie its children and whatever lies beneath them. -/
theorem isBeneath_child {name upper : ResourceName} {segment : String} :
    (name.child segment).isBeneath upper = true ↔ upper = name ∨ name.isBeneath upper = true := by
  have upperLength : 0 < upper.segments.length := by simp [segments]
  simp only [isBeneath, segments_child, Bool.and_eq_true, decide_eq_true_eq,
    List.isPrefixOf_iff_prefix, List.length_append, List.length_singleton]
  constructor
  · rintro ⟨shorter, beginning⟩
    rcases List.prefix_concat_iff.mp beginning with whole | beginning
    · rw [whole] at shorter
      simp at shorter
    · by_cases same : upper.segments = name.segments
      · exact Or.inl (eq_of_segments_eq same)
      · refine Or.inr ⟨?_, beginning⟩
        have bound := beginning.length_le
        have apart : upper.segments.length ≠ name.segments.length :=
          fun equal => same (beginning.eq_of_length equal)
        omega
  · rintro (rfl | ⟨shorter, beginning⟩)
    · exact ⟨by omega, List.prefix_append _ _⟩
    · exact ⟨by omega, beginning.trans (List.prefix_append _ _)⟩

theorem isBeneath_parent {name parent : ResourceName} (above : name.parent? = some parent) :
    name.isBeneath parent = true := by
  obtain ⟨segment, rfl⟩ := parent?_eq_some.mp above
  exact isBeneath_child.mpr (Or.inl rfl)

theorem depth_lt_of_isBeneath {name upper : ResourceName} (beneath : name.isBeneath upper = true) :
    upper.depth < name.depth := by
  simp only [isBeneath, Bool.and_eq_true, decide_eq_true_eq] at beneath
  simpa [segments, depth] using beneath.1

theorem ne_of_isBeneath {name upper : ResourceName} (beneath : name.isBeneath upper = true) :
    name ≠ upper := by
  rintro rfl
  exact absurd (depth_lt_of_isBeneath beneath) (Nat.lt_irrefl _)

theorem isBeneath_self (name : ResourceName) : name.isBeneath name = false :=
  Bool.eq_false_iff.mpr fun beneath => ne_of_isBeneath beneath rfl

/-- A parent is neither its child nor beneath it. -/
theorem not_within_of_parent {name parent : ResourceName} (above : name.parent? = some parent) :
    ¬(parent = name ∨ parent.isBeneath name = true) := by
  have lower := depth_lt_of_isBeneath (isBeneath_parent above)
  rintro (rfl | beneath)
  · exact Nat.lt_irrefl _ lower
  · exact Nat.lt_asymm lower (depth_lt_of_isBeneath beneath)

theorem isBeneath_trans {low middle high : ResourceName} (lower : low.isBeneath middle = true)
    (upper : middle.isBeneath high = true) : low.isBeneath high = true := by
  induction low using induction_child with
  | root segment => simp at lower
  | child parent segment inductionHypothesis =>
      rcases isBeneath_child.mp lower with rfl | lower
      · exact isBeneath_child.mpr (Or.inr upper)
      · exact isBeneath_child.mpr (Or.inr (inductionHypothesis lower))

theorem isBeneath_asymm {low high : ResourceName} (beneath : low.isBeneath high = true) :
    high.isBeneath low = false :=
  Bool.eq_false_iff.mpr fun circle => ne_of_isBeneath (isBeneath_trans beneath circle) rfl

/-- A proper beginning of a path reaches at least its parent. -/
theorem isBeneath_iff_parent {name upper : ResourceName} :
    name.isBeneath upper = true ↔
      ∃ parent, name.parent? = some parent ∧ (upper = parent ∨ parent.isBeneath upper = true) := by
  rcases root_or_child name with ⟨segment, rfl⟩ | ⟨parent, segment, rfl⟩
  · simp
  · simp [isBeneath_child]

/-- What is not above a name is neither its parent nor above its parent. -/
theorem outside_of_parent {name parent other : ResourceName} (above : name.parent? = some parent)
    (outside : name.isBeneath other = false) :
    other ≠ parent ∧ parent.isBeneath other = false := by
  rw [← Bool.not_eq_true, ← not_or]
  intro within
  exact Bool.false_ne_true
    (outside.symm.trans (isBeneath_iff_parent.mpr ⟨parent, above, within⟩))

/-! ### The names above -/

@[simp] theorem ancestors_root (segment : String) : ancestors ⟨segment, []⟩ = [] := rfl

@[simp] theorem ancestors_child (name : ResourceName) (segment : String) :
    (name.child segment).ancestors = name :: name.ancestors := by
  obtain ⟨top, below⟩ := name
  have shorter : ∀ depthBelowRoot ∈ (List.range below.length).reverse,
      ancestorAt ⟨top, below ++ [segment]⟩ depthBelowRoot =
        ancestorAt ⟨top, below⟩ depthBelowRoot := by
    intro depthBelowRoot member
    rw [List.mem_reverse, List.mem_range] at member
    simp only [ancestorAt, List.take_append_of_le_length (Nat.le_of_lt member)]
  simp only [ancestors, child, List.length_append, List.length_singleton, List.range_succ,
    List.reverse_append, List.reverse_singleton, List.singleton_append, List.map_cons,
    List.map_congr_left shorter]
  simp [ancestorAt]

theorem ancestors_of_parent {name parent : ResourceName} (above : name.parent? = some parent) :
    name.ancestors = parent :: parent.ancestors := by
  obtain ⟨segment, rfl⟩ := parent?_eq_some.mp above
  exact ancestors_child parent segment

/-- Nothing is above a name without a parent. -/
theorem ancestors_of_top {name : ResourceName} (top : name.parent? = none) :
    name.ancestors = [] := by
  rcases root_or_child name with ⟨segment, rfl⟩ | ⟨parent, segment, rfl⟩
  · exact ancestors_root segment
  · simp at top

/-- The list of the names above holds just the names beneath which a name lies. -/
theorem mem_ancestors {name upper : ResourceName} :
    upper ∈ name.ancestors ↔ name.isBeneath upper = true := by
  induction name using induction_child with
  | root segment => simp
  | child parent segment inductionHypothesis =>
      rw [ancestors_child, List.mem_cons, inductionHypothesis, isBeneath_child]

theorem ancestors_nodup (name : ResourceName) : name.ancestors.Nodup := by
  induction name using induction_child with
  | root segment => simp
  | child parent segment inductionHypothesis =>
      rw [ancestors_child, List.nodup_cons]
      exact ⟨fun member => ne_of_isBeneath (mem_ancestors.mp member) rfl, inductionHypothesis⟩

/-- Of two names that are both at or above a third, one is at or above the other. -/
theorem comparable_of_above {name first second : ResourceName}
    (firstAbove : first ∈ name :: name.ancestors) (secondAbove : second ∈ name :: name.ancestors) :
    first = second ∨ first.isBeneath second = true ∨ second.isBeneath first = true := by
  induction name using induction_child with
  | root segment =>
      simp only [ancestors_root, List.mem_singleton] at firstAbove secondAbove
      exact Or.inl (firstAbove.trans secondAbove.symm)
  | child parent segment inductionHypothesis =>
      rw [ancestors_child, List.mem_cons] at firstAbove secondAbove
      rcases firstAbove with rfl | firstAbove
      · rcases secondAbove with rfl | secondAbove
        · exact Or.inl rfl
        · rw [← ancestors_child parent segment, mem_ancestors] at secondAbove
          exact Or.inr (Or.inl secondAbove)
      · rcases secondAbove with rfl | secondAbove
        · rw [← ancestors_child parent segment, mem_ancestors] at firstAbove
          exact Or.inr (Or.inr firstAbove)
        · exact inductionHypothesis firstAbove secondAbove

end ResourceName

end Granularity
