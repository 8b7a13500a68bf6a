import Std.Data.ExtTreeMap

/-!
Names of the resources of a hierarchy, such as `database/T1/12`.

A name is its path of segments from the root down, and the type holds no empty path.  One name lies
beneath another when the other's path is a proper beginning of its own.  Names are ordered segment
by segment, segments by code point, and a shorter path comes before its extensions; the order is
lawful, so names can be keys of ordered maps.

Segments are any text here.  `ResourceName.segmentFlaw?` and the reader in `Granularity.Path` say
which segments a name needs for its written path to be read back.
-/

namespace Granularity

/-- A path of segments that is never empty. -/
structure ResourceName where
  /-- The first segment. -/
  root : String
  /-- The segments after the first. -/
  below : List String
deriving DecidableEq, Repr, Inhabited

namespace ResourceName

/-- The whole path, from the root down. -/
def segments (name : ResourceName) : List String :=
  name.root :: name.below

/-- The name with this path, unless the path is empty. -/
def ofSegments? : List String → Option ResourceName
  | [] => none
  | root :: below => some ⟨root, below⟩

theorem eq_of_segments_eq {first second : ResourceName}
    (same : first.segments = second.segments) : first = second := by
  cases first
  cases second
  simpa [segments] using same

@[simp] theorem ofSegments?_segments (name : ResourceName) :
    ofSegments? name.segments = some name := rfl

/-! ### Order -/

instance : Ord ResourceName := ⟨fun first second => compare first.segments second.segments⟩

instance : Std.TransOrd ResourceName where
  eq_swap {first second} :=
    @Std.OrientedCmp.eq_swap (List String) compare _ first.segments second.segments
  isLE_trans {first second third} below above :=
    @Std.TransCmp.isLE_trans (List String) compare _
      first.segments second.segments third.segments below above

instance : Std.LawfulEqOrd ResourceName where
  compare_self {name} := @Std.ReflCmp.compare_self (List String) compare _ name.segments
  eq_of_compare {first second} same := eq_of_segments_eq
    (@Std.LawfulEqCmp.eq_of_compare (List String) compare _ first.segments second.segments same)

/-- The names of a list in ascending order. -/
def sort (names : List ResourceName) : List ResourceName :=
  names.mergeSort fun first second => (compare first second).isLE

/-! ### Hierarchy -/

/-- The number of segments; a root has depth one. -/
def depth (name : ResourceName) : Nat :=
  name.below.length + 1

/-- The last segment. -/
def leaf (name : ResourceName) : String :=
  name.below.getLastD name.root

/-- The name of a child; the segment is taken as it is. -/
def child (name : ResourceName) (segment : String) : ResourceName :=
  ⟨name.root, name.below ++ [segment]⟩

/-- The name one level up; a root has none. -/
def parent? (name : ResourceName) : Option ResourceName :=
  match name.below with
  | [] => none
  | _ :: _ => some ⟨name.root, name.below.dropLast⟩

/-- The first segments of a name, at least one. -/
def ancestorAt (name : ResourceName) (depthBelowRoot : Nat) : ResourceName :=
  ⟨name.root, name.below.take depthBelowRoot⟩

/-- Every name strictly above, nearest first. -/
def ancestors (name : ResourceName) : List ResourceName :=
  (List.range name.below.length).reverse.map name.ancestorAt

/-- The first name lies strictly beneath the second. -/
def isBeneath (name upper : ResourceName) : Bool :=
  decide (upper.segments.length < name.segments.length) && upper.segments.isPrefixOf name.segments

/-- The path with `/` between the segments. -/
def text (name : ResourceName) : String :=
  "/".intercalate name.segments

instance : ToString ResourceName := ⟨ResourceName.text⟩

end ResourceName

end Granularity
