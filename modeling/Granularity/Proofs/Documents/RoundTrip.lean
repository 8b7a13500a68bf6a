import Granularity.Document.Config
import Granularity.Document.Event
import Granularity.Document.Snapshot
import Granularity.Proofs.Documents.Records
import Granularity.Proofs.Paths

/-!
Documents are read back.

What is written of a value is read as the value if every name in the value is well-formed, and it is
refused if some name is not.  This is first shown of JSON values, one kind of values after another,
and then of their texts.
-/

namespace Granularity

/-- The reader undoes the writer: what is written of a value is read as the value if all the names
in the value are well-formed, and refused otherwise. -/
def Undoes {α β : Type} (read? : β → Option α) (write : α → β) (names : α → List ResourceName) :
    Prop :=
  ∀ value, ((∀ name ∈ names value, name.WellFormed) → read? (write value) = some value) ∧
    ((∃ name ∈ names value, ¬name.WellFormed) → read? (write value) = none)

namespace Undoes

variable {α β : Type} {read? : β → Option α} {write : α → β} {names : α → List ResourceName}

/-- Lists are read item by item. -/
theorem mapM (undoes : Undoes read? write names) :
    Undoes (List.mapM read?) (List.map write) (List.flatMap names) := by
  intro values
  induction values with
  | nil => exact ⟨fun _ => rfl, nofun⟩
  | cons value values inductionHypothesis =>
      obtain ⟨first, refusesFirst⟩ := undoes value
      obtain ⟨others, refusesOthers⟩ := inductionHypothesis
      simp only [List.flatMap_cons, List.mem_append, List.map_cons, List.mapM_cons]
      constructor
      · intro sound
        rw [first fun name member => sound name (.inl member),
          others fun name member => sound name (.inr member)]
        rfl
      · rintro ⟨name, member | member, flawed⟩
        · rw [refusesFirst ⟨name, member, flawed⟩]
          rfl
        · rw [refusesOthers ⟨name, member, flawed⟩]
          cases read? (write value) <;> rfl

theorem listOf? {read? : Json → Option α} {write : α → Json} (undoes : Undoes read? write names) :
    Undoes (Json.listOf? read?) (fun values => .array (values.map write))
      (List.flatMap names) :=
  undoes.mapM

/-- What undoes a writer of well-spelled values undoes it through both of their texts. -/
theorem ofDocument? {read? : Json → Option α} {write : α → Json} (undoes : Undoes read? write names)
    (spelled : ∀ value, (write value).Spelled) :
    Undoes (fun document => (Json.ofDocument? document).bind read?)
      (fun value => (write value).text) names ∧
    Undoes (fun document => (Json.ofDocument? document).bind read?)
      (fun value => (write value).prettyText) names := by
  constructor <;> intro value
  · simpa only [(Json.ofDocument?_text (spelled value)).1, Option.bind_some] using undoes value
  · simpa only [(Json.ofDocument?_text (spelled value)).2, Option.bind_some] using undoes value

end Undoes

theorem Json.undoes_ofText : Undoes text? ofText fun _ => [] :=
  fun text => ⟨fun _ => text?_ofText text, nofun⟩

/-! ### Names, modes and locks -/

namespace ResourceName

theorem undoes_toJson : Undoes ofJson? toJson fun name => [name] := by
  intro name
  have segments : Json.listOf? Json.text? name.toJson = some name.segments :=
    (Json.undoes_ofText.listOf? name.segments).1 (by simp)
  rw [ofJson?, segments]
  simp only [List.mem_singleton, forall_eq, exists_eq_left]
  constructor
  · intro wellFormed
    rw [ofSegments_eq_ok.mpr ⟨rfl, wellFormed⟩]
    rfl
  · intro flawed
    cases read : ofSegments name.segments with
    | error flaw => rfl
    | ok other =>
        obtain ⟨same, wellFormed⟩ := ofSegments_eq_ok.mp read
        exact absurd (eq_of_segments_eq same ▸ wellFormed) flawed

theorem undoes_list :
    Undoes (Json.listOf? ofJson?) (fun names => .array (names.map toJson)) fun names => names := by
  intro names
  simpa only [List.flatMap_singleton'] using undoes_toJson.listOf? names

theorem spelled_toJson (name : ResourceName) : name.toJson.Spelled :=
  .ofList .ofText name.segments

theorem nesting_toJson (name : ResourceName) : name.toJson.nesting ≤ 1 := by
  have flat : Json.nestingOfItems (name.segments.map Json.ofText) ≤ 0 := by
    refine Json.nestingOfItems_le fun item member => ?_
    obtain ⟨segment, _, rfl⟩ := List.mem_map.mp member
    exact Nat.le_refl 0
  exact Nat.succ_le_succ flat

end ResourceName

theorem Mode.ofJson?_toJson (isVoid : Json → Bool) (mode : Mode) :
    ofJson? isVoid mode.toJson = some mode := by
  have named : named? mode.text = some mode := by
    cases mode <;> decide
  calc ofJson? isVoid mode.toJson = (Json.text? (Json.ofText mode.text)).bind named? := rfl
    _ = some mode := by rw [Json.text?_ofText, Option.bind_some, named]

namespace Lock

theorem undoes_toJson : Undoes ofJson? toJson fun lock => [lock.name] := by
  intro lock
  obtain ⟨readName, refuseName⟩ := ResourceName.undoes_toJson lock.name
  have fields : Json.record? ["name", "lock_type", "transaction"] lock.toJson =
      some [lock.name.toJson, lock.mode.toJson, Json.ofWord lock.owner] :=
    Json.record?_ofMembers (by simp) (by simp)
  rw [ofJson?, fields]
  exact ⟨fun sound => by simp [readName sound, Mode.ofJson?_toJson],
    fun flawed => by simp [refuseName flawed]⟩

theorem undoes_list :
    Undoes (Json.listOf? ofJson?) (fun locks => .array (locks.map toJson)) (List.map name) := by
  have flat : List.flatMap (fun lock : Lock => [lock.name]) = List.map name :=
    funext fun locks => List.map_eq_flatMap.symm
  exact flat ▸ undoes_toJson.listOf?

theorem spelled_toJson (lock : Lock) : lock.toJson.Spelled := by
  apply Json.Spelled.ofMembers
  simp [lock.name.spelled_toJson, Json.Spelled.word, Json.Spelled.ofText, Mode.toJson]

end Lock

/-! ### Events -/

theorem EventKind.ofText?_text (kind : EventKind) : ofText? kind.text = some kind := by
  cases kind <;> decide

namespace Event

/-- The names in an event. -/
def names : Event → List ResourceName
  | acquire _ name _ | release _ name | promote _ name _ | blocked _ name _ | granted _ name _ =>
      [name]
  | exchange _ name _ released => name :: released

theorem spelled_toJson (event : Event) : event.toJson.Spelled := by
  cases event <;> apply Json.Spelled.ofMembers <;>
    simp [ResourceName.spelled_toJson, Json.Spelled.word, Json.Spelled.ofText, Mode.toJson,
      Json.Spelled.ofList]

theorem isTakeable_toJson (event : Event) : event.toJson.isTakeable = true := by
  have flat : event.toJson.nesting ≤ 2 + 1 := by
    have name (name : ResourceName) : name.toJson.nesting ≤ 2 :=
      Nat.le_succ_of_le name.nesting_toJson
    have names (names : List ResourceName) :
        Json.nestingOfItems (names.map ResourceName.toJson) ≤ 1 := by
      refine Json.nestingOfItems_le fun item member => ?_
      obtain ⟨name, _, rfl⟩ := List.mem_map.mp member
      exact name.nesting_toJson
    cases event <;> refine Nat.succ_le_succ (Json.nestingOfMembers_le ?_) <;>
      simp [name, names, Json.nesting, Json.ofText, Json.ofWord, Json.ofNat, Mode.toJson]
  have inside : event.toJson.nesting ≤ Json.nestingLimit := Nat.le_trans flat (by decide)
  rw [Json.isTakeable, event.spelled_toJson.isMeaningful]
  simpa using inside

/-- An event is read from its kind and its fields. -/
theorem ofJson?_ofMembers {members : List (String × Json)} {kind : EventKind} {fields : List Json}
    (takeable : (Json.ofMembers members).isTakeable = true)
    (apart : (members.map Prod.fst).Nodup) (kindKnown : ("kind", Json.ofText kind.text) ∈ members)
    (fieldsKnown : List.Forall₂ (fun key value => (key, value) ∈ members) kind.fieldNames fields) :
    ofJson? (Json.ofMembers members) = ofFields? kind fields := by
  have tagged : kindOf? (Json.ofMembers members) = some (kind, Json.ofMembers members) := by
    have record : Json.record? ["kind"] (Json.ofMembers members) = some [Json.ofText kind.text] :=
      Json.record?_ofMembers apart (.cons kindKnown .nil)
    rw [Json.ofMembers] at record ⊢
    simp [kindOf?, record, EventKind.ofText?_text]
  rw [ofJson?, if_pos takeable, tagged]
  simp only [Json.record?_ofMembers apart fieldsKnown, Option.bind_some]

/-- What is written of an event after its kind. -/
def fieldValues : Event → List Json
  | acquire owner name mode | promote owner name mode | blocked owner name mode
  | granted owner name mode => [Json.ofWord owner, name.toJson, mode.toJson]
  | release owner name => [Json.ofWord owner, name.toJson]
  | exchange owner name mode released =>
      [Json.ofWord owner, name.toJson, mode.toJson, .array (released.map ResourceName.toJson)]

theorem ofJson?_toJson (event : Event) :
    ofJson? event.toJson = ofFields? event.kind event.fieldValues := by
  have takeable := event.isTakeable_toJson
  cases event <;>
    exact ofJson?_ofMembers takeable (by simp) (by simp)
      (by simp [kind, fieldValues, EventKind.fieldNames])

theorem undoes_toJson : Undoes ofJson? toJson names := by
  intro event
  rw [ofJson?_toJson]
  cases event with
  | acquire owner name mode | promote owner name mode | blocked owner name mode
  | granted owner name mode =>
      obtain ⟨readName, refuseName⟩ := ResourceName.undoes_toJson name
      constructor
      · intro sound
        simp [kind, fieldValues, ofFields?, readName sound, Mode.ofJson?_toJson]
      · intro flawed
        simp [kind, fieldValues, ofFields?, refuseName flawed]
  | release owner name =>
      obtain ⟨readName, refuseName⟩ := ResourceName.undoes_toJson name
      constructor
      · intro sound
        simp [kind, fieldValues, ofFields?, readName sound]
      · intro flawed
        simp [kind, fieldValues, ofFields?, refuseName flawed]
  | exchange owner name mode released =>
      obtain ⟨readName, refuseName⟩ := ResourceName.undoes_toJson name
      obtain ⟨readReleased, refuseReleased⟩ := ResourceName.undoes_list released
      simp only [names, List.mem_cons]
      constructor
      · intro sound
        simp [kind, fieldValues, ofFields?, readName (by simpa using sound _ (.inl rfl)),
          readReleased fun name member => sound name (.inr member), Mode.ofJson?_toJson]
      · rintro ⟨_, rfl | member, flawed⟩
        · simp [kind, fieldValues, ofFields?, refuseName (by simpa using flawed)]
        · simp [kind, fieldValues, ofFields?, refuseReleased ⟨_, member, flawed⟩]

end Event

/-! ### Snapshots -/

namespace ResourceSnapshot

/-- The names in a resource's part of a snapshot. -/
def names (resource : ResourceSnapshot) : List ResourceName :=
  resource.name :: (resource.granted.map Lock.name ++ resource.waiting.map Lock.name)

theorem undoes_toJson : Undoes ofJson? toJson names := by
  intro resource
  obtain ⟨readName, refuseName⟩ := ResourceName.undoes_toJson resource.name
  obtain ⟨readGranted, refuseGranted⟩ := Lock.undoes_list resource.granted
  obtain ⟨readWaiting, refuseWaiting⟩ := Lock.undoes_list resource.waiting
  have fields : Json.record? ["name", "granted", "waiting"] resource.toJson =
      some [resource.name.toJson, .array (resource.granted.map Lock.toJson),
        .array (resource.waiting.map Lock.toJson)] :=
    Json.record?_ofMembers (by simp) (by simp)
  rw [ofJson?, fields]
  simp only [names, List.mem_cons, List.mem_append]
  constructor
  · intro sound
    simp [readName (by simpa using sound _ (.inl rfl)),
      readGranted fun name member => sound name (.inr (.inl member)),
      readWaiting fun name member => sound name (.inr (.inr member))]
  · rintro ⟨name, rfl | member | member, flawed⟩
    · simp [refuseName (by simpa using flawed)]
    · simp [refuseGranted ⟨name, member, flawed⟩]
    · simp [refuseWaiting ⟨name, member, flawed⟩]

theorem spelled_toJson (resource : ResourceSnapshot) : resource.toJson.Spelled := by
  apply Json.Spelled.ofMembers
  simp [ResourceName.spelled_toJson, Json.Spelled.ofList, Lock.spelled_toJson]

end ResourceSnapshot

namespace Snapshot

/-- The names in a snapshot. -/
def names (snapshot : Snapshot) : List ResourceName :=
  snapshot.resources.flatMap ResourceSnapshot.names ++
    snapshot.transactions.toList.flatMap fun entry => entry.2.map Lock.name

/-- A map is what its entries, put in one after another, make up. -/
theorem foldl_insert_toList (transactions : Std.ExtTreeMap TransactionId (List Lock)) :
    transactions.toList.foldl (fun map (owner, locks) => map.insert owner locks) ∅ =
      transactions := by
  rw [← Std.ExtTreeMap.ofList_eq_foldl]
  refine Std.ExtTreeMap.ext_getElem? fun owner => ?_
  cases held : transactions[owner]? with
  | some locks =>
      exact Std.ExtTreeMap.getElem?_ofList_of_mem Std.ReflCmp.compare_self
        Std.ExtTreeMap.distinct_keys_toList
        (Std.ExtTreeMap.mem_toList_iff_getElem?_eq_some.mpr held)
  | none =>
      refine Std.ExtTreeMap.getElem?_ofList_of_contains_eq_false ?_
      rw [Std.ExtTreeMap.map_fst_toList_eq_keys, Std.ExtTreeMap.contains_keys,
        Std.ExtTreeMap.contains_eq_isSome_getElem?, held, Option.isSome_none]

/-- What is written of one transaction. -/
def entryToJson (entry : TransactionId × List Lock) : List Char × Json :=
  (Nat.toDigits 10 entry.1.toNat, .array (entry.2.map Lock.toJson))

/-- The transaction, and its locks, that a member stands for. -/
def entryOfJson? (member : List Char × Json) : Option (TransactionId × List Lock) := do
  let owner ← Json.wordOfLiteral? member.1
  let locks ← Json.listOf? Lock.ofJson? member.2
  return (owner, locks)

theorem transactionsOfJson?_toJson (transactions : Std.ExtTreeMap TransactionId (List Lock)) :
    transactionsOfJson? (transactionsToJson transactions) =
      ((transactions.toList.map entryToJson).mapM entryOfJson?).bind fun entries =>
        some (entries.foldl (fun map (owner, locks) => map.insert owner locks) ∅) := rfl

theorem undoes_transactionsToJson :
    Undoes transactionsOfJson? transactionsToJson fun transactions =>
      transactions.toList.flatMap fun entry => entry.2.map Lock.name := by
  have entries : Undoes entryOfJson? entryToJson fun entry => entry.2.map Lock.name := by
    rintro ⟨owner, locks⟩
    obtain ⟨read, refuse⟩ := Lock.undoes_list locks
    constructor
    · intro sound
      simp [entryOfJson?, entryToJson, Json.wordOfLiteral?_toDigits, read sound]
    · intro flawed
      simp [entryOfJson?, entryToJson, refuse flawed]
  intro transactions
  obtain ⟨read, refuse⟩ := entries.mapM transactions.toList
  rw [transactionsOfJson?_toJson]
  exact ⟨fun sound => by rw [read sound, Option.bind_some, foldl_insert_toList],
    fun flawed => by rw [refuse flawed, Option.bind_none]⟩

theorem undoes_toJson : Undoes ofJson? toJson names := by
  intro snapshot
  obtain ⟨readResources, refuseResources⟩ :=
    ResourceSnapshot.undoes_toJson.listOf? snapshot.resources
  obtain ⟨readTransactions, refuseTransactions⟩ := undoes_transactionsToJson snapshot.transactions
  have fields : Json.record? ["resources", "transactions"] snapshot.toJson =
      some [.array (snapshot.resources.map ResourceSnapshot.toJson),
        transactionsToJson snapshot.transactions] :=
    Json.record?_ofMembers (by simp) (by simp)
  rw [ofJson?, fields]
  simp only [names, List.mem_append]
  constructor
  · intro sound
    simp [readResources fun name member => sound name (.inl member),
      readTransactions fun name member => sound name (.inr member)]
  · rintro ⟨name, member | member, flawed⟩
    · simp [refuseResources ⟨name, member, flawed⟩]
    · simp [refuseTransactions ⟨name, member, flawed⟩]

theorem spelled_transactionsToJson (transactions : Std.ExtTreeMap TransactionId (List Lock)) :
    (transactionsToJson transactions).Spelled := by
  refine .object (fun member among => ?_) fun member among => ?_ <;>
    obtain ⟨⟨owner, locks⟩, _, rfl⟩ := List.mem_map.mp among
  · exact ⟨_, (Json.spell_toDigits owner.toNat).symm⟩
  · exact .ofList Lock.spelled_toJson locks

theorem spelled_toJson (snapshot : Snapshot) : snapshot.toJson.Spelled := by
  apply Json.Spelled.ofMembers
  simp [spelled_transactionsToJson, Json.Spelled.ofList, ResourceSnapshot.spelled_toJson]

end Snapshot

/-! ### Configurations -/

namespace Config

theorem ofJson?_toJson (config : Config) : ofJson? config.toJson = some config := by
  have fields : Json.fields? ["database_name", "read_only_roots"] config.toJson =
      some ([Json.ofText config.databaseName,
        .array (config.readOnlyRoots.map Json.ofText)].map some) :=
    Json.fields?_ofMembers (by simp) (by simp)
  have roots : Json.listOf? Json.text? (.array (config.readOnlyRoots.map Json.ofText)) =
      some config.readOnlyRoots :=
    (Json.undoes_ofText.listOf? config.readOnlyRoots).1 (by simp)
  rw [ofJson?, fields]
  simp [fieldOr?, roots]

theorem spelled_toJson (config : Config) : config.toJson.Spelled := by
  apply Json.Spelled.ofMembers
  simp [Json.Spelled.ofText, Json.Spelled.ofList]

end Config

/-! ### Texts -/

/-- Decoding undoes encoding.  The JSON text of a name, a lock, an event, a resource's part of a
snapshot or a whole snapshot, this one in its compact form and on many lines, is decoded to the same
value if every name in the value is well-formed, and decoding fails if some name is not.  The text
of a configuration, in which there are no names, is always decoded to the same configuration. -/
theorem documents_read_back :
    Undoes (fun document => (Json.ofDocument? document).bind ResourceName.ofJson?)
      (fun name => name.toJson.text) (fun name => [name]) ∧
    Undoes (fun document => (Json.ofDocument? document).bind Lock.ofJson?)
      (fun lock => lock.toJson.text) (fun lock => [lock.name]) ∧
    Undoes (fun document => (Json.ofDocument? document).bind Event.ofJson?) Event.document
      Event.names ∧
    Undoes (fun document => (Json.ofDocument? document).bind ResourceSnapshot.ofJson?)
      (fun resource => resource.toJson.text) ResourceSnapshot.names ∧
    Undoes (fun document => (Json.ofDocument? document).bind Snapshot.ofJson?)
      (fun snapshot => snapshot.toJson.text) Snapshot.names ∧
    Undoes (fun document => (Json.ofDocument? document).bind Snapshot.ofJson?) Snapshot.document
      Snapshot.names ∧
    ∀ config : Config, Config.ofDocument config.document = .ok config := by
  have names := ResourceName.undoes_toJson.ofDocument? ResourceName.spelled_toJson
  have locks := Lock.undoes_toJson.ofDocument? Lock.spelled_toJson
  have events := Event.undoes_toJson.ofDocument? Event.spelled_toJson
  have resources :=
    ResourceSnapshot.undoes_toJson.ofDocument? ResourceSnapshot.spelled_toJson
  have snapshots := Snapshot.undoes_toJson.ofDocument? Snapshot.spelled_toJson
  refine ⟨names.1, locks.1, events.1, resources.1, snapshots.1, snapshots.2, fun config => ?_⟩
  have written : Json.ofDocument? config.document = some config.toJson :=
    (Json.ofDocument?_text config.spelled_toJson).1
  rw [Config.ofDocument, written, Option.bind_some, Config.ofJson?_toJson]

end Granularity
