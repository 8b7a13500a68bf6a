import Granularity.Json.Record
import Granularity.Proofs.Documents.Layout
import Mathlib.Data.List.Forall2

/-!
Records and lists that are written from texts and words.

An object with distinct keys gives back every field that it has been written with.  Whatever is
written from texts and words alone is well spelled, and a reader that takes documents in as a whole
can make sense of it.
-/

namespace Granularity.Json

/-! ### Fields -/

theorem readKeys?_spelled (members : List (String × Json)) :
    readKeys? (members.map fun (key, value) => (spell key.toList, value)) = some members := by
  rw [readKeys?, List.mapM_map]
  induction members with
  | nil => rfl
  | cons member members inductionHypothesis =>
      rw [List.mapM_cons, inductionHypothesis]
      simp [unspell?_spell]

/-- A member whose key stands once is found. -/
theorem member?_of_mem {members : List (String × Json)} {key : String} {value : Json}
    (apart : (members.map Prod.fst).Nodup) (member : (key, value) ∈ members) :
    member? members key = some (some value) := by
  have only : members.filter (fun (other, _) => other == key) = [(key, value)] := by
    induction members with
    | nil => cases member
    | cons first members inductionHypothesis =>
        obtain ⟨fresh, apart⟩ := List.nodup_cons.mp apart
        rcases List.mem_cons.mp member with rfl | member
        · have others : members.filter (fun (other, _) => other == key) = [] := by
            refine List.filter_eq_nil_iff.mpr fun other among same => fresh ?_
            exact List.mem_map.mpr ⟨other, among, beq_iff_eq.mp same⟩
          simp [others]
        · have different : first.1 ≠ key :=
            fun same => fresh (same ▸ List.mem_map_of_mem member)
          simp [different, inductionHypothesis apart member]
  rw [member?, only]

section

variable {members : List (String × Json)} {keys : List String} {values : List Json}

/-- The fields of an object are those that it has been written with. -/
theorem fields?_ofMembers (apart : (members.map Prod.fst).Nodup)
    (known : List.Forall₂ (fun key value => (key, value) ∈ members) keys values) :
    fields? keys (ofMembers members) = some (values.map some) := by
  rw [ofMembers, fields?, readKeys?_spelled]
  induction known with
  | nil => rfl
  | cons member _ inductionHypothesis =>
      simp only at inductionHypothesis ⊢
      rw [List.mapM_cons, inductionHypothesis, member?_of_mem apart member]
      rfl

theorem record?_ofMembers (apart : (members.map Prod.fst).Nodup)
    (known : List.Forall₂ (fun key value => (key, value) ∈ members) keys values) :
    record? keys (ofMembers members) = some values := by
  have present (values : List Json) : (values.map some).mapM id = some values := by
    induction values with
    | nil => rfl
    | cons value values inductionHypothesis =>
        rw [List.map_cons, List.mapM_cons, inductionHypothesis]
        rfl
  rw [record?, fields?_ofMembers apart known, Option.bind_some, present]

end

/-! ### Well-spelled values -/

theorem Spelled.ofText (text : String) : Spelled (ofText text) :=
  .string text.toList

theorem Spelled.ofList {α : Type} {write : α → Json} (spelled : ∀ value, (write value).Spelled)
    (values : List α) : Spelled (.array (values.map write)) := by
  refine .array fun item member => ?_
  obtain ⟨value, _, rfl⟩ := List.mem_map.mp member
  exact spelled value

theorem Spelled.ofMembers {members : List (String × Json)}
    (spelled : ∀ member ∈ members, Spelled member.2) : Spelled (ofMembers members) := by
  refine .object (fun member among => ?_) fun member among => ?_ <;>
    obtain ⟨⟨key, value⟩, listed, rfl⟩ := List.mem_map.mp among
  · exact ⟨key.toList, rfl⟩
  · exact spelled _ listed

theorem areMeaningful_iff {items : List Json} :
    areMeaningful items = true ↔ ∀ item ∈ items, item.isMeaningful = true := by
  induction items with
  | nil => simp [areMeaningful]
  | cons item items inductionHypothesis => simp [areMeaningful, inductionHypothesis]

theorem membersMeaningful_iff {members : List (List Char × Json)} :
    membersMeaningful members = true ↔
      ∀ member ∈ members, (unspell? member.1).isSome ∧ member.2.isMeaningful = true := by
  induction members with
  | nil => simp [membersMeaningful]
  | cons member members inductionHypothesis => simp [membersMeaningful, inductionHypothesis]

/-- A well-spelled value makes sense to a reader that takes it in as a whole. -/
theorem Spelled.isMeaningful {value : Json} (spelled : Spelled value) :
    value.isMeaningful = true := by
  induction spelled with
  | null | bool => rfl
  | word word => exact inRange_toDigits word
  | string text =>
      rw [Json.isMeaningful, unspell?_spell]
      rfl
  | array _ inductionHypothesis => exact areMeaningful_iff.mpr inductionHypothesis
  | object keys _ inductionHypothesis =>
      refine membersMeaningful_iff.mpr fun member among => ⟨?_, inductionHypothesis member among⟩
      obtain ⟨key, spells⟩ := keys member among
      rw [spells, unspell?_spell]
      rfl

theorem nestingOfItems_le {items : List Json} {bound : Nat}
    (flat : ∀ item ∈ items, item.nesting ≤ bound) : nestingOfItems items ≤ bound := by
  induction items with
  | nil => exact Nat.zero_le bound
  | cons item items inductionHypothesis =>
      obtain ⟨first, others⟩ := List.forall_mem_cons.mp flat
      exact Nat.max_le.mpr ⟨first, inductionHypothesis others⟩

theorem nestingOfMembers_le {members : List (List Char × Json)} {bound : Nat}
    (flat : ∀ member ∈ members, member.2.nesting ≤ bound) : nestingOfMembers members ≤ bound := by
  induction members with
  | nil => exact Nat.zero_le bound
  | cons member members inductionHypothesis =>
      obtain ⟨first, others⟩ := List.forall_mem_cons.mp flat
      exact Nat.max_le.mpr ⟨first, inductionHypothesis others⟩

end Granularity.Json
