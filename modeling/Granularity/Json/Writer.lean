import Granularity.Json.Spelling

/-!
Writing JSON.

The compact form has no blanks at all.  The laid-out form puts every item and every member on a
line of its own, two blanks deeper than what encloses it, and leaves empty arrays and objects in
one piece.
-/

namespace Granularity.Json

/-- A spelling in its quotes. -/
def inQuotes (spelling : List Char) : List Char :=
  '"' :: spelling ++ ['"']

mutual

/-- The compact form of a value. -/
def compact : Json → List Char
  | null => "null".toList
  | bool value => (if value then "true" else "false").toList
  | number literal => literal
  | string spelling => inQuotes spelling
  | array items => '[' :: compactItems items ++ [']']
  | object members => '\x7b' :: compactMembers members ++ ['\x7d']

/-- Items with commas between them. -/
def compactItems : List Json → List Char
  | [] => []
  | [item] => item.compact
  | item :: items => item.compact ++ ',' :: compactItems items

/-- Members with commas between them. -/
def compactMembers : List (List Char × Json) → List Char
  | [] => []
  | [(key, value)] => inQuotes key ++ ':' :: value.compact
  | (key, value) :: members =>
      inQuotes key ++ ':' :: value.compact ++ ',' :: compactMembers members

end

/-- A new line at some depth. -/
def newLine (depth : Nat) : List Char :=
  '\n' :: List.replicate (2 * depth) ' '

mutual

/-- The laid-out form of a value at some depth. -/
def laidOut (depth : Nat) : Json → List Char
  | null => "null".toList
  | bool value => (if value then "true" else "false").toList
  | number literal => literal
  | string spelling => inQuotes spelling
  | array items =>
      if items.isEmpty then "[]".toList
      else '[' :: laidOutItems (depth + 1) items ++ newLine depth ++ [']']
  | object members =>
      if members.isEmpty then "\x7b\x7d".toList
      else '\x7b' :: laidOutMembers (depth + 1) members ++ newLine depth ++ ['\x7d']

/-- Items on lines of their own. -/
def laidOutItems (depth : Nat) : List Json → List Char
  | [] => []
  | [item] => newLine depth ++ item.laidOut depth
  | item :: items => newLine depth ++ item.laidOut depth ++ ',' :: laidOutItems depth items

/-- Members on lines of their own, a blank after each colon. -/
def laidOutMembers (depth : Nat) : List (List Char × Json) → List Char
  | [] => []
  | [(key, value)] => newLine depth ++ inQuotes key ++ ": ".toList ++ value.laidOut depth
  | (key, value) :: members =>
      newLine depth ++ inQuotes key ++ ": ".toList ++ value.laidOut depth ++
        ',' :: laidOutMembers depth members

end

/-- The text of a value without blanks. -/
def text (value : Json) : String :=
  String.ofList value.compact

/-- The text of a value on many lines. -/
def prettyText (value : Json) : String :=
  String.ofList (value.laidOut 0)

end Granularity.Json
