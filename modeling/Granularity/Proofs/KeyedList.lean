import Granularity.Table.Basic

/-!
Lists in which every key stands at most once.

The granted locks of a resource are keyed by their owners, and the locks of a transaction by their
names.  A lock is found by its key, put in the place of the lock with the same key or at the end,
and taken out again; the lemmas here say what each of these does to the members of the list, to its
keys, and to what is found.
-/

namespace Granularity

section

variable {α κ : Type} [DecidableEq κ] (key : α → κ)

/-- The list with an element put in the place of the first one with the same key, or at the end. -/
def place (new : α) (list : List α) : List α :=
  if list.any fun element => key element == key new then
    replaceFirst (fun element => key element == key new) new list
  else list ++ [new]

theorem any_key {list : List α} {wanted : κ} :
    (list.any fun element => key element == wanted) = true ↔ wanted ∈ list.map key := by
  simp only [List.any_eq_true, List.mem_map, beq_iff_eq]

/-- Putting an element where its key stands leaves the keys as they are. -/
theorem map_replaceFirst (new : α) (list : List α) :
    (replaceFirst (fun element => key element == key new) new list).map key = list.map key := by
  induction list with
  | nil => rfl
  | cons head rest inductionHypothesis =>
      by_cases same : key head = key new
      · simp [replaceFirst, same]
      · simp [replaceFirst, same, inductionHypothesis]

theorem map_place (new : α) (list : List α) :
    (place key new list).map key =
      if key new ∈ list.map key then list.map key else list.map key ++ [key new] := by
  by_cases present : key new ∈ list.map key
  · rw [place, if_pos ((any_key key).mpr present), if_pos present, map_replaceFirst]
  · rw [place, if_neg (fun any => present ((any_key key).mp any)), if_neg present]
    simp

theorem nodup_place {list : List α} (nodup : (list.map key).Nodup) (new : α) :
    ((place key new list).map key).Nodup := by
  rw [map_place]
  split
  · exact nodup
  · next absent =>
      rw [List.nodup_append]
      refine ⟨nodup, by simp, ?_⟩
      intro held member other otherMember same
      rw [List.mem_singleton] at otherMember
      subst otherMember
      exact absent (same ▸ member)

theorem find?_replaceFirst (new : α) (list : List α) (wanted : κ) :
    (replaceFirst (fun element => key element == key new) new list).find?
        (fun element => key element == wanted) =
      if key new = wanted then
        (list.find? fun element => key element == wanted).map fun _ => new
      else list.find? fun element => key element == wanted := by
  induction list with
  | nil => simp [replaceFirst]
  | cons head rest inductionHypothesis =>
      by_cases same : key head = key new
      · by_cases hit : key new = wanted
        · simp [replaceFirst, same, hit]
        · simp [replaceFirst, same, hit]
      · by_cases hit : key new = wanted
        · have apart : key head ≠ wanted := fun equal => same (equal.trans hit.symm)
          simp only [hit, if_true] at inductionHypothesis
          simp [replaceFirst, hit, apart, inductionHypothesis]
        · simp only [hit, if_false] at inductionHypothesis
          simp [replaceFirst, same, hit, List.find?_cons, inductionHypothesis]

/-- What is found after an element has been put in its place. -/
theorem find?_place (new : α) (list : List α) (wanted : κ) :
    (place key new list).find? (fun element => key element == wanted) =
      if key new = wanted then some new
      else list.find? fun element => key element == wanted := by
  by_cases present : key new ∈ list.map key
  · rw [place, if_pos ((any_key key).mpr present), find?_replaceFirst]
    by_cases hit : key new = wanted
    · obtain ⟨held, member, same⟩ := List.mem_map.mp present
      have found : (list.find? fun element => key element == wanted).isSome := by
        rw [List.find?_isSome]
        exact ⟨held, member, by simp [same, hit]⟩
      obtain ⟨first, firstFound⟩ := Option.isSome_iff_exists.mp found
      simp [hit, firstFound]
    · simp [hit]
  · rw [place, if_neg (fun any => present ((any_key key).mp any)), List.find?_append]
    by_cases hit : key new = wanted
    · have missing : (list.find? fun element => key element == wanted) = none := by
        rw [List.find?_eq_none]
        intro element member equal
        exact present (List.mem_map.mpr ⟨element, member, by simpa [hit] using equal⟩)
      simp [hit, missing]
    · simp [hit]

/-- Where every key stands once, an element is found by its key and nothing else is. -/
theorem find?_eq_some_of_nodup {list : List α} (nodup : (list.map key).Nodup) {wanted : κ}
    {element : α} :
    (list.find? fun element => key element == wanted) = some element ↔
      element ∈ list ∧ key element = wanted := by
  induction list with
  | nil => simp
  | cons head rest inductionHypothesis =>
      rw [List.map_cons, List.nodup_cons] at nodup
      by_cases hit : key head = wanted
      · have foundHead : ((head :: rest).find? fun element => key element == wanted) =
            some head := by simp [hit]
        rw [foundHead]
        constructor
        · intro same
          cases same
          exact ⟨List.mem_cons_self, hit⟩
        · rintro ⟨member, same⟩
          rcases List.mem_cons.mp member with rfl | member
          · rfl
          · exact absurd (List.mem_map.mpr ⟨element, member, same.trans hit.symm⟩) nodup.1
      · have skipped : ((head :: rest).find? fun element => key element == wanted) =
            rest.find? fun element => key element == wanted := by simp [hit]
        rw [skipped, inductionHypothesis nodup.2, List.mem_cons]
        constructor
        · rintro ⟨member, same⟩
          exact ⟨Or.inr member, same⟩
        · rintro ⟨rfl | member, same⟩
          · exact absurd same hit
          · exact ⟨member, same⟩

theorem find?_key_eq_none {list : List α} {wanted : κ} :
    (list.find? fun element => key element == wanted) = none ↔ wanted ∉ list.map key := by
  rw [List.find?_eq_none]
  simp [List.mem_map]

/-- The members after an element has been put in its place. -/
theorem mem_place {list : List α} (nodup : (list.map key).Nodup) {new element : α} :
    element ∈ place key new list ↔
      element = new ∨ element ∈ list ∧ key element ≠ key new := by
  have found : ((place key new list).find? fun other => key other == key element) = some element ↔
      element ∈ place key new list := by
    rw [find?_eq_some_of_nodup key (nodup_place key nodup new), and_iff_left rfl]
  rw [← found, find?_place]
  by_cases same : key new = key element
  · rw [if_pos same, Option.some.injEq]
    constructor
    · rintro rfl
      exact Or.inl rfl
    · rintro (rfl | ⟨_, apart⟩)
      · rfl
      · exact absurd same.symm apart
  · rw [if_neg same, find?_eq_some_of_nodup key nodup]
    constructor
    · rintro ⟨member, _⟩
      exact Or.inr ⟨member, fun equal => same equal.symm⟩
    · rintro (rfl | ⟨member, _⟩)
      · exact absurd rfl same
      · exact ⟨member, rfl⟩

/-- Taking out the first element with a key takes out all of them. -/
theorem eraseP_eq_filter {list : List α} (nodup : (list.map key).Nodup) (unwanted : κ) :
    (list.eraseP fun element => key element == unwanted) =
      list.filter fun element => key element != unwanted := by
  induction list with
  | nil => rfl
  | cons head rest inductionHypothesis =>
      rw [List.map_cons, List.nodup_cons] at nodup
      by_cases hit : key head = unwanted
      · have others : (rest.filter fun element => key element != unwanted) = rest := by
          rw [List.filter_eq_self]
          intro element member
          have apart : key element ≠ unwanted := fun same =>
            nodup.1 (List.mem_map.mpr ⟨element, member, same.trans hit.symm⟩)
          simpa using apart
        simp [hit, others]
      · simp [hit, inductionHypothesis nodup.2]

/-- What is found after the elements with a key have been taken out. -/
theorem find?_filter_key (list : List α) (unwanted wanted : κ) :
    (list.filter fun element => key element != unwanted).find?
        (fun element => key element == wanted) =
      if unwanted = wanted then none
      else list.find? fun element => key element == wanted := by
  rw [List.find?_filter]
  split
  · next same =>
      subst same
      rw [List.find?_eq_none]
      simp
  · next apart =>
      congr 1
      funext element
      by_cases hit : key element = wanted
      · simp [hit, Ne.symm apart]
      · simp [hit]

/-- Replacing an element and taking another key out can be done in either order. -/
theorem filter_replaceFirst {new : α} {unwanted : κ} (apart : key new ≠ unwanted) (list : List α) :
    (replaceFirst (fun element => key element == key new) new list).filter
        (fun element => key element != unwanted) =
      replaceFirst (fun element => key element == key new) new
        (list.filter fun element => key element != unwanted) := by
  induction list with
  | nil => rfl
  | cons head rest inductionHypothesis =>
      by_cases same : key head = key new
      · simp [replaceFirst, same, apart]
      · by_cases hit : key head = unwanted
        · simp [replaceFirst, hit, inductionHypothesis, Ne.symm apart]
        · simp [replaceFirst, same, hit, inductionHypothesis]

/-- Putting an element in its place and taking another key out can be done in either order. -/
theorem filter_place {new : α} {unwanted : κ} (apart : key new ≠ unwanted) (list : List α) :
    (place key new list).filter (fun element => key element != unwanted) =
      place key new (list.filter fun element => key element != unwanted) := by
  have kept : key new ∈ (list.filter fun element => key element != unwanted).map key ↔
      key new ∈ list.map key := by
    simp only [List.mem_map, List.mem_filter]
    constructor
    · rintro ⟨element, ⟨member, _⟩, same⟩
      exact ⟨element, member, same⟩
    · rintro ⟨element, member, same⟩
      exact ⟨element, ⟨member, by simpa [same] using apart⟩, same⟩
  by_cases present : key new ∈ list.map key
  · rw [place, if_pos ((any_key key).mpr present), place,
      if_pos ((any_key key).mpr (kept.mpr present)), filter_replaceFirst key apart]
  · rw [place, if_neg (fun any => present ((any_key key).mp any)), place,
      if_neg (fun any => present (kept.mp ((any_key key).mp any))), List.filter_append]
    simp [apart]

theorem replaceFirst_eq_map {list : List α} (nodup : (list.map key).Nodup) (new : α) :
    replaceFirst (fun element => key element == key new) new list =
      list.map fun element => if key element = key new then new else element := by
  induction list with
  | nil => rfl
  | cons head rest inductionHypothesis =>
      rw [List.map_cons, List.nodup_cons] at nodup
      by_cases same : key head = key new
      · have others : (rest.map fun element => if key element = key new then new else element) =
            rest := by
          refine (List.map_congr_left fun element member => if_neg fun again => ?_).trans
            (List.map_id rest)
          exact nodup.1 (List.mem_map.mpr ⟨element, member, again.trans same.symm⟩)
        simp [replaceFirst, same, others]
      · simp [replaceFirst, same, inductionHypothesis nodup.2]

/-- Where its key stands, an element is put in the place of that one and nothing else moves. -/
theorem place_of_mem {list : List α} (nodup : (list.map key).Nodup) {new : α}
    (present : key new ∈ list.map key) :
    place key new list = list.map fun element => if key element = key new then new else element := by
  rw [place, if_pos ((any_key key).mpr present), replaceFirst_eq_map key nodup]

end

/-- Where there are no duplicates, none are erased. -/
theorem eraseDups_of_nodup {α : Type} [DecidableEq α] {list : List α} (nodup : list.Nodup) :
    list.eraseDups = list := by
  induction list with
  | nil => rfl
  | cons head rest inductionHypothesis =>
      rw [List.nodup_cons] at nodup
      have kept : (rest.filter fun other => !other == head) = rest := by
        rw [List.filter_eq_self]
        intro other member
        have apart : other ≠ head := fun same => nodup.1 (same ▸ member)
        simpa using apart
      rw [List.eraseDups_cons, kept, inductionHypothesis nodup.2]

/-- Erasing duplicates leaves none. -/
theorem nodup_eraseDups {α : Type} [DecidableEq α] : ∀ list : List α, list.eraseDups.Nodup
  | [] => .nil
  | head :: rest => by
      have shorter : (rest.filter fun other => !other == head).length < rest.length + 1 :=
        Nat.lt_succ_of_le (List.length_filter_le _ rest)
      rw [List.eraseDups_cons, List.nodup_cons, List.mem_eraseDups, List.mem_filter]
      refine ⟨?_, nodup_eraseDups _⟩
      simp
termination_by list => list.length

end Granularity
