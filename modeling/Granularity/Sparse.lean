import Std.Data.ExtTreeMap

/-!
Total functions with few values apart from the default.

A `Sparse` map gives every key a value and stores only the keys whose value is not the default.
Because nothing else is stored, a map is determined by its values: two maps that agree on every key
are equal.  The stored pairs are listed in ascending order of their keys.
-/

namespace Granularity

/-- A total map that stores the values other than the default. -/
structure Sparse (κ ν : Type) [Ord κ] [Std.TransOrd κ] [Inhabited ν] where
  stored : Std.ExtTreeMap κ ν
  /-- A default value is never stored. -/
  nowhere_default : ∀ key : κ, stored[key]? ≠ some default

namespace Sparse

variable {κ ν : Type} [Ord κ] [Std.TransOrd κ] [Inhabited ν]

/-- The map with the default everywhere. -/
def empty : Sparse κ ν :=
  ⟨∅, fun _ => by simp⟩

instance : Inhabited (Sparse κ ν) := ⟨empty⟩

instance [DecidableEq κ] [DecidableEq ν] [Std.LawfulEqOrd κ] : DecidableEq (Sparse κ ν) :=
  fun first second =>
    if same : first.stored = second.stored then
      isTrue (by cases first; cases second; simpa using same)
    else
      isFalse fun equal => same (congrArg stored equal)

/-- The value of a key. -/
def get (map : Sparse κ ν) (key : κ) : ν :=
  map.stored[key]?.getD default

/-- The map with a new value for one key. -/
def set [DecidableEq ν] (map : Sparse κ ν) (key : κ) (value : ν) : Sparse κ ν :=
  if fresh : value = default then
    ⟨map.stored.erase key, fun other => by
      rw [Std.ExtTreeMap.getElem?_erase]
      split
      · simp
      · exact map.nowhere_default other⟩
  else
    ⟨map.stored.insert key value, fun other => by
      rw [Std.ExtTreeMap.getElem?_insert]
      split
      · simpa using fresh
      · exact map.nowhere_default other⟩

/-- The map with the value of one key changed by a function. -/
def update [DecidableEq ν] (map : Sparse κ ν) (key : κ) (change : ν → ν) : Sparse κ ν :=
  map.set key (change (map.get key))

/-- The pairs with a value other than the default, in ascending order of keys. -/
def toList (map : Sparse κ ν) : List (κ × ν) :=
  map.stored.toList

@[simp] theorem get_empty (key : κ) : (empty : Sparse κ ν).get key = default := by
  simp [get, empty]

/-- Maps that agree on every key are equal. -/
theorem ext_get [Std.LawfulEqOrd κ] {first second : Sparse κ ν}
    (agree : ∀ key, first.get key = second.get key) : first = second := by
  have same : first.stored = second.stored := by
    apply Std.ExtTreeMap.ext_getElem?
    intro key
    have values := agree key
    simp only [get] at values
    cases one : first.stored[key]? with
    | none =>
        cases two : second.stored[key]? with
        | none => rfl
        | some value =>
            rw [one, two] at values
            simp only [Option.getD_none, Option.getD_some] at values
            exact absurd (values ▸ two) (second.nowhere_default key)
    | some value =>
        cases two : second.stored[key]? with
        | none =>
            rw [one, two] at values
            simp only [Option.getD_none, Option.getD_some] at values
            exact absurd (values ▸ one) (first.nowhere_default key)
        | some other =>
            rw [one, two] at values
            simpa using values
  cases first
  cases second
  simpa using same

variable [Std.LawfulEqOrd κ] [DecidableEq κ] [DecidableEq ν]

/-- Setting a key changes its value and no other. -/
theorem get_set (map : Sparse κ ν) (key other : κ) (value : ν) :
    (map.set key value).get other = if key = other then value else map.get other := by
  by_cases same : key = other
  · subst same
    by_cases fresh : value = default
    · simp [set, get, fresh]
    · simp [set, get, fresh]
  · have apart : ¬ compare key other = .eq := fun equal =>
      same (Std.LawfulEqCmp.eq_of_compare equal)
    by_cases fresh : value = default
    · simp [set, get, fresh, Std.ExtTreeMap.getElem?_erase, apart, same]
    · simp [set, get, fresh, Std.ExtTreeMap.getElem?_insert, apart, same]

/-- Updating a key applies the change to its value and to no other. -/
theorem get_update (map : Sparse κ ν) (key other : κ) (change : ν → ν) :
    (map.update key change).get other =
      if key = other then change (map.get other) else map.get other := by
  rw [update, get_set]
  by_cases same : key = other
  · simp [same]
  · simp [same]

omit [DecidableEq κ] [DecidableEq ν] in
/-- The listed pairs are the keys whose value is not the default, with that value. -/
theorem mem_toList {map : Sparse κ ν} {key : κ} {value : ν} :
    (key, value) ∈ map.toList ↔ map.get key = value ∧ value ≠ default := by
  rw [toList, Std.ExtTreeMap.mem_toList_iff_getElem?_eq_some, get]
  constructor
  · intro found
    refine ⟨by simp [found], ?_⟩
    intro fresh
    exact map.nowhere_default key (fresh ▸ found)
  · rintro ⟨held, stored⟩
    cases present : map.stored[key]? with
    | none =>
        rw [present] at held
        exact absurd held.symm stored
    | some other =>
        rw [present] at held
        simpa using held

end Sparse

end Granularity
