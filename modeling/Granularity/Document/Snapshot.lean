import Granularity.Document.Lock
import Granularity.Table.Snapshot

/-!
Snapshots as JSON.

The locks by transaction are an object whose keys are the numbers of the transactions, in ascending
order.  A document may repeat a number; the last list counts.
-/

namespace Granularity

namespace ResourceSnapshot

/-- A resource's part of a snapshot as JSON. -/
def toJson (resource : ResourceSnapshot) : Json :=
  Json.ofMembers
    [("name", resource.name.toJson),
     ("granted", .array (resource.granted.map Lock.toJson)),
     ("waiting", .array (resource.waiting.map Lock.toJson))]

/-- The resource's part of a snapshot that a value stands for. -/
def ofJson? (json : Json) : Option ResourceSnapshot :=
  match Json.record? ["name", "granted", "waiting"] json with
  | some [name, granted, waiting] => do
      let name ← ResourceName.ofJson? name
      let granted ← Json.listOf? Lock.ofJson? granted
      let waiting ← Json.listOf? Lock.ofJson? waiting
      return ⟨name, granted, waiting⟩
  | _ => none

end ResourceSnapshot

namespace Snapshot

/-- The locks by transaction as JSON. -/
def transactionsToJson (transactions : Std.ExtTreeMap TransactionId (List Lock)) : Json :=
  .object (transactions.toList.map fun (owner, locks) =>
    (Nat.toDigits 10 owner.toNat, .array (locks.map Lock.toJson)))

/-- A snapshot as JSON. -/
def toJson (snapshot : Snapshot) : Json :=
  Json.ofMembers
    [("resources", .array (snapshot.resources.map ResourceSnapshot.toJson)),
     ("transactions", transactionsToJson snapshot.transactions)]

/-- The locks by transaction that a value stands for. -/
def transactionsOfJson? : Json → Option (Std.ExtTreeMap TransactionId (List Lock))
  | .object members => do
      let pairs ← members.mapM fun (key, value) => do
        let owner ← Json.wordOfLiteral? key
        let locks ← Json.listOf? Lock.ofJson? value
        return (owner, locks)
      return pairs.foldl (fun map (owner, locks) => map.insert owner locks) ∅
  | _ => none

/-- The snapshot that a value stands for. -/
def ofJson? (json : Json) : Option Snapshot :=
  match Json.record? ["resources", "transactions"] json with
  | some [resources, transactions] => do
      let resources ← Json.listOf? ResourceSnapshot.ofJson? resources
      let transactions ← transactionsOfJson? transactions
      return ⟨resources, transactions⟩
  | _ => none

/-- A snapshot as a JSON text on many lines. -/
def document (snapshot : Snapshot) : String :=
  snapshot.toJson.prettyText

end Snapshot

end Granularity
