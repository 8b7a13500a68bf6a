import Granularity.Context.Basic
import Granularity.Json.Reader
import Granularity.Json.Record
import Granularity.Json.Writer
import Granularity.Refusal

/-!
Configurations as JSON.  A document may leave fields out; they keep their usual values.
-/

namespace Granularity.Config

/-- A configuration as JSON. -/
def toJson (config : Config) : Json :=
  Json.ofMembers
    [("database_name", Json.ofText config.databaseName),
     ("read_only_roots", .array (config.readOnlyRoots.map Json.ofText))]

/-- The value of a field, or its usual value if the field is missing. -/
def fieldOr? {α : Type} (usual : α) (read? : Json → Option α) : Option Json → Option α
  | none => some usual
  | some json => read? json

/-- The configuration that a value stands for. -/
def ofJson? (json : Json) : Option Config :=
  let usual : Config := {}
  match Json.fields? ["database_name", "read_only_roots"] json with
  | some [name, roots] => do
      let name ← fieldOr? usual.databaseName Json.text? name
      let roots ← fieldOr? usual.readOnlyRoots (Json.listOf? Json.text?) roots
      return ⟨name, roots⟩
  | _ => none

/-- A configuration as a JSON text. -/
def document (config : Config) : String :=
  config.toJson.text

/-- The configuration that a document describes. -/
def ofDocument (document : String) : Except Refusal Config :=
  match (Json.ofDocument? document).bind ofJson? with
  | some config => .ok config
  | none => .error .malformedConfig

end Granularity.Config
