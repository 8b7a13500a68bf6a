import Granularity.ResourceName
import Granularity.Text.Detailed

/-!
Reading names from paths and from lists of segments.

A segment is sound when it is not empty and holds no `/`.  A path is split at every `/`, so all its
pieces are free of the separator, and it is a name exactly when no piece is empty.  The reader
states which flaw refuses a text.
-/

namespace Granularity

/-- What keeps a text from being a name, or a part of one. -/
inductive NameFlaw where
  /-- There is no segment at all. -/
  | noSegments
  /-- A segment is empty. -/
  | emptySegment
  /-- A segment holds the separator. -/
  | separatorIn (segment : String)
  /-- A path has an empty piece. -/
  | emptyPieceIn (path : String)
deriving DecidableEq, Repr

/-- The wording of a flaw. -/
def NameFlaw.text : NameFlaw → String
  | .noSegments => "a resource name needs at least one segment"
  | .emptySegment => "empty segment"
  | .separatorIn segment => "segment " ++ Text.quoted segment ++ " contains '/'"
  | .emptyPieceIn path => "empty segment in " ++ Text.quoted path

namespace ResourceName

/-- What is wrong with a single segment, if anything is. -/
def segmentFlaw? (segment : String) : Option NameFlaw :=
  if segment.isEmpty then some .emptySegment
  else if segment.toList.contains '/' then some (.separatorIn segment)
  else none

/-- The name with these segments, if there are any and all are sound; otherwise the first flaw. -/
def ofSegments (segments : List String) : Except NameFlaw ResourceName :=
  match ofSegments? segments, segments.findSome? segmentFlaw? with
  | none, _ => .error .noSegments
  | some _, some flaw => .error flaw
  | some name, none => .ok name

/-- The pieces of a path between its separators: the first piece, and the ones after it. -/
def pieces : List Char → List Char × List (List Char)
  | [] => ([], [])
  | character :: rest =>
      let (first, others) := pieces rest
      if character = '/' then ([], first :: others) else (character :: first, others)

/-- No piece holds the separator. -/
theorem separator_not_mem_pieces (path : List Char) :
    '/' ∉ (pieces path).1 ∧ ∀ piece ∈ (pieces path).2, '/' ∉ piece := by
  induction path with
  | nil => simp [pieces]
  | cons character rest inductionHypothesis =>
      obtain ⟨first, others⟩ := inductionHypothesis
      by_cases separator : character = '/'
      · simp only [pieces, separator, if_true, List.mem_cons]
        exact ⟨List.not_mem_nil, fun piece member => member.elim (· ▸ first) (others piece)⟩
      · simp only [pieces, separator, if_false, List.mem_cons, not_or]
        exact ⟨⟨Ne.symm separator, first⟩, others⟩

/-- The pieces with the separator between them are the path again. -/
theorem intercalate_pieces (path : List Char) :
    ['/'].intercalate ((pieces path).1 :: (pieces path).2) = path := by
  induction path with
  | nil => rfl
  | cons character rest inductionHypothesis =>
      by_cases separator : character = '/'
      · simp only [pieces, separator, if_true, List.intercalate_cons_cons, inductionHypothesis]
        rfl
      · simp only [pieces, separator, if_false]
        cases others : (pieces rest).2 with
        | nil => simp_all [List.intercalate]
        | cons piece others' => simp_all

/-- The segments of a path, with nothing said about empty ones. -/
def ofPieces (path : String) : ResourceName :=
  let (first, others) := pieces path.toList
  ⟨String.ofList first, others.map String.ofList⟩

/-- The name that a path spells; a path with an empty piece spells none.  Nothing else can be wrong
with the pieces, as they are free of the separator. -/
def ofPath (path : String) : Except NameFlaw ResourceName :=
  let name := ofPieces path
  if name.segments.any String.isEmpty then .error (.emptyPieceIn path) else .ok name

end ResourceName

end Granularity
