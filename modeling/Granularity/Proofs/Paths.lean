import Granularity.Path

/-!
Names and their written paths.

A path is split at every separator, and its pieces are the segments of the name that it spells.  The
pieces with the separator between them are the path again, so a path is always written as it was
read; and a name is read as it was written exactly when its segments are sound, which means that
none is empty and none holds the separator.
-/

namespace Granularity

namespace ResourceName

/-- A sound segment: it is not empty and does not hold the separator. -/
def IsSegment (segment : String) : Prop :=
  segment ≠ "" ∧ '/' ∉ segment.toList

/-- Every segment of the name is sound. -/
def WellFormed (name : ResourceName) : Prop :=
  ∀ segment ∈ name.segments, IsSegment segment

theorem wellFormed_root {segment : String} : WellFormed ⟨segment, []⟩ ↔ IsSegment segment := by
  simp [WellFormed, segments]

theorem wellFormed_child {name : ResourceName} {segment : String} :
    (name.child segment).WellFormed ↔ name.WellFormed ∧ IsSegment segment := by
  simp [WellFormed, segments, child, and_assoc, or_imp, forall_and]

/-! ### Checked segments -/

theorem segmentFlaw?_eq_none {segment : String} :
    segmentFlaw? segment = none ↔ IsSegment segment := by
  rw [segmentFlaw?, IsSegment]
  by_cases empty : segment = ""
  · simp [empty]
  · simp [empty]

/-- Segments pass their check exactly when they are the segments of a well-formed name. -/
theorem ofSegments_eq_ok {segments : List String} {name : ResourceName} :
    ofSegments segments = .ok name ↔ name.segments = segments ∧ name.WellFormed := by
  have sound : segments.findSome? segmentFlaw? = none ↔
      ∀ segment ∈ segments, IsSegment segment := by
    simp only [List.findSome?_eq_none_iff, segmentFlaw?_eq_none]
  rw [ofSegments, WellFormed]
  cases segments with
  | nil => simp [ofSegments?, segments]
  | cons root below =>
      cases flaw : (root :: below).findSome? segmentFlaw? with
      | some flaw =>
          rw [flaw] at sound
          simp only [ofSegments?, reduceCtorEq, false_iff, not_and]
          rintro same wellFormed
          exact Option.some_ne_none _ (sound.mpr (same ▸ wellFormed))
      | none =>
          simp only [ofSegments?, Except.ok.injEq]
          constructor
          · rintro rfl
            exact ⟨rfl, sound.mp flaw⟩
          · rintro ⟨same, _⟩
            exact (eq_of_segments_eq same).symm

/-! ### Pieces -/

/-- The pieces are those that lie between the separators. -/
theorem pieces_eq_splitOn (path : List Char) :
    (pieces path).1 :: (pieces path).2 = path.splitOn '/' := by
  obtain ⟨first, others⟩ := separator_not_mem_pieces path
  have free : ∀ piece ∈ (pieces path).1 :: (pieces path).2, '/' ∉ piece :=
    List.forall_mem_cons.mpr ⟨first, others⟩
  calc (pieces path).1 :: (pieces path).2
      = (['/'].intercalate ((pieces path).1 :: (pieces path).2)).splitOn '/' :=
        (List.splitOn_intercalate '/' free (List.cons_ne_nil _ _)).symm
    _ = path.splitOn '/' := by rw [intercalate_pieces]

theorem segments_ofPieces (path : String) :
    (ofPieces path).segments = (path.toList.splitOn '/').map String.ofList := by
  rw [← pieces_eq_splitOn]
  rfl

theorem toList_text (name : ResourceName) :
    name.text.toList = ['/'].intercalate (name.segments.map String.toList) :=
  String.toList_intercalate

/-- A path is written as it was read. -/
theorem text_ofPieces (path : String) : (ofPieces path).text = path := by
  apply String.toList_inj.mp
  have back : ((path.toList.splitOn '/').map String.ofList).map String.toList =
      path.toList.splitOn '/' := by
    simp [Function.comp_def]
  rw [toList_text, segments_ofPieces, back, List.intercalate_splitOn]

/-- No segment of a name that a path spells holds the separator. -/
theorem separator_not_mem_ofPieces {path segment : String}
    (member : segment ∈ (ofPieces path).segments) : '/' ∉ segment.toList := by
  obtain ⟨first, others⟩ := separator_not_mem_pieces path.toList
  rcases List.mem_cons.mp member with rfl | member
  · simpa [ofPieces] using first
  · obtain ⟨piece, among, rfl⟩ := List.mem_map.mp member
    simpa using others piece among

/-- A name without separators in its segments is read as it was written. -/
theorem ofPieces_text {name : ResourceName}
    (free : ∀ segment ∈ name.segments, '/' ∉ segment.toList) : ofPieces name.text = name := by
  apply eq_of_segments_eq
  have apart : ∀ piece ∈ name.segments.map String.toList, '/' ∉ piece := by
    simpa using free
  rw [segments_ofPieces, toList_text, List.splitOn_intercalate '/' apart (by simp [segments])]
  simp [Function.comp_def]

/-! ### Paths that are names -/

/-- All that can be wrong with the pieces of a path is that one is empty. -/
theorem wellFormed_ofPieces {path : String} :
    (ofPieces path).WellFormed ↔ ¬(ofPieces path).segments.any String.isEmpty = true := by
  simp only [WellFormed, List.any_eq_true, not_exists, not_and]
  refine forall₂_congr fun segment member => ?_
  simp [IsSegment, separator_not_mem_ofPieces member]

/-- A path is a name exactly when the name is well-formed and this is how it is written. -/
theorem ofPath_eq_ok {path : String} {name : ResourceName} :
    ofPath path = .ok name ↔ name.WellFormed ∧ name.text = path := by
  rw [ofPath]
  constructor
  · split
    · nofun
    · next passed =>
        rintro ⟨⟩
        exact ⟨wellFormed_ofPieces.mpr passed, text_ofPieces path⟩
  · rintro ⟨wellFormed, rfl⟩
    have back : ofPieces name.text = name :=
      ofPieces_text fun segment member => (wellFormed segment member).2
    have passed := wellFormed_ofPieces.mp (back.symm ▸ wellFormed)
    rw [if_neg passed, back]

/-- A path without an empty piece is read as its pieces are: their check finds nothing more, because
the separators are gone. -/
theorem ofPath_eq_ofSegments (path : String) :
    ofPath path =
      if (ofPieces path).segments.any String.isEmpty then .error (.emptyPieceIn path)
      else ofSegments (ofPieces path).segments := by
  rw [ofPath]
  split
  · rfl
  · next passed => exact (ofSegments_eq_ok.mpr ⟨rfl, wellFormed_ofPieces.mpr passed⟩).symm

/-- A path spells a name exactly when no piece between its separators is empty. -/
theorem exists_ofPath_iff {path : String} :
    (∃ name, ofPath path = .ok name) ↔ [] ∉ path.toList.splitOn '/' := by
  have pieces : (ofPieces path).segments.any String.isEmpty = true ↔
      [] ∈ path.toList.splitOn '/' := by
    simp [segments_ofPieces]
  rw [← pieces, ofPath]
  split
  · next flawed => simp [flawed]
  · next passed => simp [passed]

/-- Paths and names correspond one to one.  A text is read as a name exactly when no piece of it
between separators is empty, and then the name is written as this very text.  Any name, also one
whose segments have never been checked, is read back from its written path exactly when its segments
are sound.  So names that pass the check of their segments are written alike only if they are
equal. -/
theorem paths_correspond :
    (∀ path : String, ((∃ name, ofPath path = .ok name) ↔ [] ∉ path.toList.splitOn '/') ∧
      ∀ name, ofPath path = .ok name → name.text = path) ∧
    (∀ name : ResourceName, ofPath name.text = .ok name ↔
      ∀ segment ∈ name.segments, segment ≠ "" ∧ '/' ∉ segment.toList) ∧
    ∀ (first second : List String) (one other : ResourceName), ofSegments first = .ok one →
      ofSegments second = .ok other → one.text = other.text → one = other := by
  have back : ∀ name : ResourceName, ofPath name.text = .ok name ↔ name.WellFormed := by
    intro name
    rw [ofPath_eq_ok]
    exact and_iff_left rfl
  refine ⟨fun path => ⟨exists_ofPath_iff, fun name read => (ofPath_eq_ok.mp read).2⟩, back, ?_⟩
  intro first second one other passes otherPasses same
  have read : ofPath one.text = .ok one := (back one).mpr (ofSegments_eq_ok.mp passes).2
  have otherRead : ofPath other.text = .ok other :=
    (back other).mpr (ofSegments_eq_ok.mp otherPasses).2
  rw [same, otherRead, Except.ok.injEq] at read
  exact read.symm

end ResourceName

end Granularity
