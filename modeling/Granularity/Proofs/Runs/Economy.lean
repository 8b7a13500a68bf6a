import Granularity.Proofs.Contexts.Rights
import Granularity.Proofs.Runs.Accounts
import Granularity.Proofs.Runs.Sufficiency

/-!
Planning takes no more than it needs.

The calls by which a plan ensures a mode go down one path, from a root to the context, and each is
about another name; only the context itself may be escalated first and promoted then.  What is held
elsewhere stays, and nothing is taken for writing that is only to be read.
-/

namespace Granularity

/-- Every event is about a name beneath those of the events before it. -/
def Event.Descending (calls : List Event) : Prop :=
  calls.Pairwise fun earlier later => later.name.isBeneath earlier.name = true

/-- The events of a plan that takes an intention on the names above a name, and the modes that it
leaves.  A mode that it changes becomes an intention, or a `SIX` in place of an `S`. -/
structure Announced (owner : TransactionId) (name : ResourceName) (intention : Mode)
    (before : Modes) (calls : List Event) (after : Modes) : Prop where
  along : ∀ event ∈ calls, name.isBeneath event.name = true
  descending : Event.Descending calls
  kept : ∀ other, name.isBeneath other = false → after other = before other
  raised : ∀ other, after other = before other ∨ after other ∈ [.IS, .IX, .SIX]
  fresh : (∀ upper, name.isBeneath upper = true → before upper = .NL) →
    calls = name.ancestors.reverse.map (.acquire owner · intention)

/-- The events of a plan that ensures a mode on a name, and the modes that it leaves, are
economical: the events go down the path to the name, and only there a second call may follow, on an
escalation; nothing else is given up than what stands beneath an intention held on the name; nothing
is taken for writing that is wanted for reading; and whoever holds nothing acquires the path. -/
structure Economical (owner : TransactionId) (name : ResourceName) (wanted : Mode)
    (before : Modes) (calls : List Event) (after : Modes) : Prop where
  along : ∀ event ∈ calls, event.name = name ∨ name.isBeneath event.name = true
  once : Event.Descending calls ∨ (before name).isIntent = true ∧ ∃ earlier released,
    calls = earlier ++ [.exchange owner name .S released, .promote owner name .X] ∧
      Event.Descending (earlier ++ [.exchange owner name .S released]) ∧
      ∀ other, other ∈ released ↔
        other = name ∨ other.isBeneath name = true ∧ before other ≠ .NL
  kept : ∀ other, other ≠ name → name.isBeneath other = false →
    (other.isBeneath name = true → (before name).isIntent = false) → after other = before other
  reads : wanted = .S → ∀ other, after other = .X → before other = .X
  fresh : (∀ other, before other = .NL) → wanted ≠ .NL →
    calls = name.ancestors.reverse.map (.acquire owner · wanted.intention) ++
      [.acquire owner name wanted]

namespace Event

theorem Descending.concat {calls : List Event} {event : Event} (descending : Descending calls)
    (above : ∀ earlier ∈ calls, event.name.isBeneath earlier.name = true) :
    Descending (calls ++ [event]) := by
  rw [Descending, List.pairwise_append]
  refine ⟨descending, List.pairwise_singleton _ _, fun earlier member later last => ?_⟩
  rw [List.mem_singleton.mp last]
  exact above earlier member

end Event

namespace Announced

variable {owner : TransactionId} {name parent : ResourceName} {intention : Mode}
  {before between after : Modes} {calls : List Event} {event : Event}

/-- Nothing is announced where something is held above a name already, or no name is above it. -/
theorem nothing (free : (∀ upper, name.isBeneath upper = true → before upper = .NL) →
    name.ancestors = []) : Announced owner name intention before [] before where
  along := nofun
  descending := List.Pairwise.nil
  kept _ _ := rfl
  raised _ := Or.inl rfl
  fresh nothing := by
    rw [free nothing]
    rfl

/-- What is announced above the parent, and then on the parent, is announced above a name. -/
theorem concat (above : name.parent? = some parent)
    (announced : Announced owner parent intention before calls between)
    (there : event.name = parent) (raised : after parent ∈ [.IS, .IX, .SIX])
    (elsewhere : ∀ other, other ≠ parent → after other = between other)
    (acquired : between parent = .NL → event = .acquire owner parent intention) :
    Announced owner name intention before (calls ++ [event]) after where
  along := by
    rw [List.forall_mem_append, List.forall_mem_singleton, there]
    exact ⟨fun earlier member => ResourceName.isBeneath_trans
      (ResourceName.isBeneath_parent above) (announced.along earlier member),
      ResourceName.isBeneath_parent above⟩
  descending := announced.descending.concat (there ▸ announced.along)
  kept other outside := by
    obtain ⟨apart, notAbove⟩ := ResourceName.outside_of_parent above outside
    exact (elsewhere other apart).trans (announced.kept other notAbove)
  raised other := by
    by_cases own : other = parent
    · exact Or.inr (own ▸ raised)
    · rw [elsewhere other own]
      exact announced.raised other
  fresh free := by
    have freeAbove : ∀ upper, parent.isBeneath upper = true → before upper = .NL :=
      fun upper beneath => free upper
        (ResourceName.isBeneath_trans (ResourceName.isBeneath_parent above) beneath)
    have own : between parent = .NL :=
      (announced.kept parent parent.isBeneath_self).trans
        (free parent (ResourceName.isBeneath_parent above))
    rw [announced.fresh freeAbove, acquired own, ResourceName.ancestors_of_parent above,
      List.reverse_cons, List.map_append]
    rfl

variable (announced : Announced owner name intention before calls between)
include announced

/-- On the name and beneath it nothing has changed. -/
theorem within {other : ResourceName} (within : other = name ∨ other.isBeneath name = true) :
    between other = before other := by
  apply announced.kept
  rcases within with rfl | beneath
  · exact other.isBeneath_self
  · exact ResourceName.isBeneath_asymm beneath

/-- Nothing is announced for writing. -/
theorem writes {other : ResourceName} (writes : between other = .X) : before other = .X := by
  rcases announced.raised other with same | intends
  · exact same.symm.trans writes
  · rw [writes] at intends
    simp at intends

/-- After an announcement, one call about the name itself is economical, if nothing is given up
beneath anything but an intention. -/
theorem finish {wanted mode : Mode} {given : Mode → Bool} (there : event.name = name)
    (gives : (before name).isIntent = true ∨ ∀ held, given held = false)
    (writes : wanted = .S → mode ≠ .X)
    (acquires : before name = .NL → wanted ≠ .NL →
      intention = wanted.intention ∧ event = .acquire owner name wanted) :
    Economical owner name wanted before (calls ++ [event]) (between.take name mode given) where
  along := by
    rw [List.forall_mem_append, List.forall_mem_singleton]
    exact ⟨fun earlier member => Or.inr (announced.along earlier member), Or.inl there⟩
  once := Or.inl (announced.descending.concat (there ▸ announced.along))
  kept other apart outside beneath := by
    refine (Modes.take_kept apart ?_).trans (announced.kept other outside)
    intro ⟨below, given⟩
    rcases gives with intent | keeps
    · exact Bool.false_ne_true ((beneath below).symm.trans intent)
    · exact Bool.false_ne_true ((keeps _).symm.trans given)
  reads wants _ held := announced.writes (Modes.writes_of_take (writes wants) held)
  fresh free locked := by
    obtain ⟨rfl, rfl⟩ := acquires (free name) locked
    rw [announced.fresh fun upper _ => free upper]

/-- An escalation to `S`, and then a promotion to `X`, are economical. -/
theorem escalated {released : List ResourceName} (intent : (before name).isIntent = true)
    (listed : ∀ other, other ∈ released ↔
      other = name ∨ other.isBeneath name = true ∧ between other ≠ .NL) :
    Economical owner name .X before
      (calls ++ [.exchange owner name .S released, .promote owner name .X])
      (Modes.take (between.take name .S fun _ => true) name .X fun _ => false) where
  along := by
    rw [List.forall_mem_append]
    refine ⟨fun earlier member => Or.inr (announced.along earlier member), ?_⟩
    simp [Event.name]
  once := by
    refine Or.inr ⟨intent, calls, released, rfl, announced.descending.concat announced.along, ?_⟩
    intro other
    rw [listed]
    refine or_congr_right (and_congr_right fun beneath => ?_)
    rw [announced.within (Or.inr beneath)]
  kept other apart outside beneath := by
    have notBelow : other.isBeneath name ≠ true := fun below =>
      Bool.false_ne_true ((beneath below).symm.trans intent)
    rw [Modes.take_kept apart fun both => notBelow both.1,
      Modes.take_kept apart fun both => notBelow both.1]
    exact announced.kept other outside
  reads wants := absurd wants nofun
  fresh free _ := by
    rw [free name] at intent
    cases intent

end Announced

/-- Where the wanted mode is in force, nothing has to be done. -/
theorem Economical.nothing {owner : TransactionId} {name : ResourceName} {wanted : Mode}
    {before : Modes} (enough : (∀ other, before other = .NL) → wanted = .NL) :
    Economical owner name wanted before [] before where
  along := nofun
  once := Or.inl List.Pairwise.nil
  kept _ _ _ _ := rfl
  reads _ _ writes := writes
  fresh free locked := absurd (enough free) locked

/-- Where nothing has to be given up at the parent, and something is held above a name, what is
economical at the parent is economical at the name. -/
theorem Economical.beneath {owner : TransactionId} {name parent : ResourceName} {wanted : Mode}
    {before after : Modes} {calls : List Event}
    (economical : Economical owner parent wanted before calls after)
    (upper : name.parent? = some parent) (plain : (before parent).isIntent = false)
    (locked : ¬∀ other, name.isBeneath other = true → before other = .NL) :
    Economical owner name wanted before calls after where
  along event member := Or.inr <| ResourceName.isBeneath_iff_parent.mpr
    ⟨parent, upper, economical.along event member⟩
  once := Or.inl <| economical.once.resolve_right fun both =>
    Bool.false_ne_true (plain.symm.trans both.1)
  kept other _ outside _ := by
    obtain ⟨apart, notAbove⟩ := ResourceName.outside_of_parent upper outside
    exact economical.kept other apart notAbove fun _ => plain
  reads := economical.reads
  fresh free := absurd (fun other _ => free other) locked

namespace Table

variable {table : Table} {owner : TransactionId} {name : ResourceName}

/-- Where no lock is held, nothing is in force. -/
theorem effectiveOn_of_bare (free : ∀ other, table.modeOf owner other = .NL)
    (names : List ResourceName) : table.effectiveOn owner names = .NL := by
  induction names with
  | nil => rfl
  | cons name above inductionHypothesis =>
      rw [effectiveOn_of_free (free name), inductionHypothesis]
      rfl

/-- An `S` that is handed down by a mode that does not admit `X` is handed down by `S`. -/
theorem eq_S_of_handedDown {upper : Mode} (reads : table.handedDown owner name upper = .S)
    (below : ¬Mode.admits upper .X = true) : upper = .S := by
  cases upper with
  | S => rfl
  | IX | SIX => exact absurd rfl below
  | NL | IS | X => cases reads

end Table

namespace Planner

variable {owner : TransactionId} {modes before between after : Modes} {place : Place}
  {above : List Place} {wanted mode intention : Mode} {calls : List Event} {event : Event}

open Plan (accounts_ask)

/-! ### Intentions above a name -/

/-- What is asked for at a name to make an intention of what is held there, where nothing is held
beneath an `S`. -/
theorem yields_intention (context : Context) (intends : intention ∈ [.IS, .IX])
    (bare : before context.name = .S → before.Bare context.name)
    (below : ¬Mode.covers (before context.name) intention = true)
    (yields : Operation.Yields
      (match before context.name with
      | .NL => .acquire context intention
      | .S => .promote context (if intention = .IX then .SIX else intention)
      | _ => .promote context intention) owner before event after) :
    event.name = context.name ∧ after context.name ∈ [.IS, .IX, .SIX] ∧
      (∀ other, other ≠ context.name → after other = before other) ∧
      (before context.name = .NL → event = .acquire owner context.name intention) := by
  have elsewhere : ∀ other, other ≠ context.name →
      before.take context.name intention (fun _ => false) other = before other :=
    fun other apart => Modes.take_kept apart fun both => Bool.false_ne_true both.2
  have plain : intention ≠ .SIX := by
    rintro rfl
    simp at intends
  have kind : intention ∈ [Mode.IS, .IX, .SIX] := by
    rcases List.mem_pair.mp intends with rfl | rfl <;> simp
  split at yields
  next held =>
      obtain ⟨rfl, rfl⟩ := Operation.yields_acquire yields
      refine ⟨rfl, ?_, elsewhere, fun _ => rfl⟩
      rw [Modes.take_own]
      exact kind
  next held =>
      rw [held] at below
      obtain rfl : intention = .IX := by
        rcases List.mem_pair.mp intends with rfl | rfl
        · exact absurd rfl below
        · rfl
      rw [if_pos rfl] at yields
      obtain ⟨⟨released, rfl⟩, rfl⟩ := Operation.yields_promoteToSIX yields
      refine ⟨rfl, ?_, fun other apart => Modes.take_kept apart ?_, fun free => ?_⟩
      · rw [Modes.take_own]
        simp
      · intro ⟨beneath, given⟩
        rw [bare held other beneath] at given
        cases given
      · rw [held] at free
        cases free
  next free _ =>
      obtain ⟨rfl, rfl⟩ := Operation.yields_promote yields plain
      refine ⟨rfl, ?_, elsewhere, fun nothing => absurd nothing free⟩
      rw [Modes.take_own]
      exact kind

/-- Intentions are announced from the root down. -/
theorem accounts_ensureIntentions (aligned : Context.Aligned ⟨place, above⟩)
    (intends : intention ∈ [.IS, .IX]) (tidy : modes.Tidy) :
    (ensureIntentions owner intention above).Accounts owner
      (Announced owner place.name intention modes) modes := by
  induction above generalizing place with
  | nil =>
      exact Announced.nothing fun _ => ResourceName.ancestors_of_top aligned.top
  | cons upper above inductionHypothesis =>
      obtain ⟨parent, upperAligned⟩ := aligned.above
      have locked : intention ≠ .NL := by
        rintro rfl
        simp at intends
      rw [ensureIntentions, if_neg locked]
      intro store ready
      have explicit : (Context.mk upper above).explicitMode store.table owner = modes upper.name :=
        congrFun ready.held upper.name
      dsimp only
      rw [explicit]
      by_cases covered : Mode.covers (modes upper.name) intention = true
      · rw [if_pos covered]
        apply Announced.nothing
        intro free
        rw [free upper.name (ResourceName.isBeneath_parent parent)] at covered
        exact absurd (Mode.eq_NL_of_covers_NL covered) locked
      · rw [if_neg covered]
        apply (inductionHypothesis upperAligned).andThen
        intro calls between announced
        have own : between upper.name = modes upper.name := announced.within (Or.inl rfl)
        have bare : between upper.name = .S → between.Bare upper.name := by
          intro held other beneath
          have whole : modes upper.name ∈ [Mode.NL, .S, .X] := by simp [← own, held]
          exact (announced.within (Or.inr beneath)).trans (tidy.bare whole other beneath)
        rw [← own] at covered ⊢
        apply accounts_ask
        intro event after yields
        obtain ⟨there, raised, elsewhere, acquired⟩ :=
          yields_intention ⟨upper, above⟩ intends bare covered yields
        exact announced.concat parent there raised elsewhere acquired

/-! ### The cases of the planner -/

section

variable (aligned : Context.Aligned ⟨place, above⟩) (tidy : modes.Tidy)
include aligned tidy

/-- An `IX` is made `SIX`, to read beneath it. -/
theorem accounts_makeSIX (held : modes place.name = .IX) :
    ((ensureIntentions owner .IX above).andThen (.ask (.promote ⟨place, above⟩ .SIX))).Accounts
      owner (Economical owner place.name .S modes) modes := by
  apply (accounts_ensureIntentions aligned (by simp) tidy).andThen
  intro calls between announced
  apply accounts_ask
  intro event after yields
  obtain ⟨⟨released, rfl⟩, rfl⟩ := Operation.yields_promoteToSIX yields
  have intent : (modes place.name).isIntent = true := by
    rw [held]
    rfl
  exact announced.finish rfl (Or.inl intent) (fun _ => nofun) fun free => by simp [held] at free

/-- What is not held at all is acquired. -/
theorem accounts_acquisition (locked : wanted ≠ .NL) :
    ((ensureIntentions owner wanted.intention above).andThen
      (.ask (.acquire ⟨place, above⟩ wanted))).Accounts owner
        (Economical owner place.name wanted modes) modes := by
  apply (accounts_ensureIntentions aligned (Mode.intention_mem locked) tidy).andThen
  intro calls between announced
  apply accounts_ask
  intro event after yields
  obtain ⟨rfl, rfl⟩ := Operation.yields_acquire yields
  exact announced.finish rfl (Or.inr fun _ => rfl) (fun reads => by simp [reads])
    fun _ _ => ⟨rfl, rfl⟩

/-- An `S` is promoted to `X`. -/
theorem accounts_promotion (held : modes place.name = .S) :
    ((ensureIntentions owner .IX above).andThen (.ask (.promote ⟨place, above⟩ .X))).Accounts
      owner (Economical owner place.name .X modes) modes := by
  apply (accounts_ensureIntentions aligned (by simp) tidy).andThen
  intro calls between announced
  apply accounts_ask
  intro event after yields
  obtain ⟨rfl, rfl⟩ := Operation.yields_promote yields nofun
  exact announced.finish rfl (Or.inr fun _ => rfl) nofun fun free => by simp [held] at free

/-- An intention is escalated, and promoted if that has left an `S` and writing is wanted. -/
theorem accounts_escalation (intent : (modes place.name).isIntent = true)
    (wants : wanted = .X ∨ wanted = .S ∧ modes place.name = .IS) :
    ((ensureIntentions owner wanted.intention above).andThen <|
      .perform (.escalate ⟨place, above⟩) <| .look fun later =>
        if Mode.covers ((Context.mk place above).explicitMode later.table owner) wanted then .done
        else .ask (.promote ⟨place, above⟩ wanted)).Accounts owner
      (Economical owner place.name wanted modes) modes := by
  have locked : wanted ≠ .NL := by
    rcases wants with rfl | ⟨rfl, _⟩
    · exact Mode.noConfusion
    · exact Mode.noConfusion
  have notFree : modes place.name ≠ .NL := Mode.ne_NL_of_isIntent intent
  apply (accounts_ensureIntentions aligned (Mode.intention_mem locked) tidy).andThen
  intro calls between announced event after yields
  obtain ⟨target, released, rfl, rfl, chosen, listed⟩ := Operation.yields_escalate yields
  intro later ready
  have explicit : (Context.mk place above).explicitMode later.table owner = target :=
    (congrFun ready.held place.name).trans Modes.take_own
  dsimp only
  rw [explicit]
  by_cases covered : Mode.covers target wanted = true
  · rw [if_pos covered]
    refine announced.finish rfl (Or.inl intent) ?_ fun free => absurd free notFree
    rintro rfl rfl
    -- Where reading is wanted an `IS` was held, beneath which nothing is written.
    have reads : modes place.name = .IS := (wants.resolve_left nofun).2
    have writes : between.WritesWithin place.name :=
      (chosen.resolve_right fun both => Mode.noConfusion both.1).2
    obtain ⟨other, within, writes⟩ := writes
    rw [announced.within within] at writes
    exact tidy.not_writesWithin reads ⟨other, within, writes⟩
  · rw [if_neg covered]
    obtain rfl : target = .S := by
      rcases chosen with ⟨rfl, _⟩ | ⟨same, _⟩
      · cases wanted <;> exact absurd rfl covered
      · exact same
    obtain rfl : wanted = .X := by
      rcases wants with same | ⟨rfl, _⟩
      · exact same
      · exact absurd rfl covered
    apply accounts_ask
    intro event after yields
    obtain ⟨rfl, rfl⟩ := Operation.yields_promote yields nofun
    exact announced.escalated intent listed

omit aligned tidy in
/-- Where `S` is inherited, either `X` is acquired, or it is ensured at the parent; and then the `S`
is held there or above, so that nothing has to be given up. -/
theorem accounts_beneathParent {parent : Place}
    (aligned : Context.Aligned ⟨place, parent :: above⟩) {store : Store}
    (ready : store.Ready owner modes) (free : modes place.name = .NL)
    (inherits : (Context.mk place (parent :: above)).effectiveMode store.table owner = .S)
    (parentAccounts : (ensureAt owner .X (parent :: above)).Accounts owner
      (Economical owner parent.name .X modes) modes) :
    (if Mode.admits ((Context.mk parent above).effectiveMode store.table owner) .X then
        .ask (.acquire ⟨place, parent :: above⟩ .X)
      else ensureAt owner .X (parent :: above)).Accounts owner
      (Economical owner place.name .X modes) modes := by
  obtain rfl := ready.held
  have upper : place.name.parent? = some parent.name := aligned.above.1
  have own : store.table.modeOf owner (Context.mk place (parent :: above)).name = .NL := free
  have locked : ¬∀ other, place.name.isBeneath other = true →
      store.table.modeOf owner other = .NL := by
    intro freeAbove
    have reads : Mode.covers ((Context.mk place (parent :: above)).effectiveMode store.table owner)
        .S = true := by
      rw [inherits]
      rfl
    rw [aligned.effectiveMode_eq] at reads
    obtain ⟨other, within, kind⟩ := ready.sound.heldOver_of_reads reads
    rcases List.mem_cons.mp within with rfl | member
    · simp [own] at kind
    · simp [freeAbove other (ResourceName.mem_ancestors.mp member)] at kind
  by_cases admitted : Mode.admits
      ((Context.mk parent above).effectiveMode store.table owner) .X = true
  · rw [if_pos admitted]
    apply accounts_ask
    intro event after yields
    obtain ⟨rfl, rfl⟩ := Operation.yields_acquire yields
    have announced : Announced owner place.name .IX (store.table.modeOf owner) []
        (store.table.modeOf owner) := Announced.nothing fun free => absurd free locked
    exact announced.finish rfl (Or.inr fun _ => rfl) nofun fun _ _ => ⟨rfl, rfl⟩
  · rw [if_neg admitted]
    rw [Context.effectiveMode, Context.names, Table.effectiveOn_of_free own] at inherits
    have reads : (Context.mk parent above).effectiveMode store.table owner = .S :=
      Table.eq_S_of_handedDown inherits admitted
    have plain : ((Context.mk parent above).explicitMode store.table owner).isIntent = false := by
      by_cases parentFree : (Context.mk parent above).explicitMode store.table owner = .NL
      · rw [parentFree]
        rfl
      · rw [Context.effectiveMode_of_held parentFree] at reads
        rw [reads]
        rfl
    exact parentAccounts.mono fun calls after economical => economical.beneath upper plain locked

/-- The cases together; what is planned at the parent is left to the induction. -/
theorem accounts_ensureAt_of_parent (plannable : wanted ∈ [.NL, .S, .X])
    (parentAccounts : ∀ parent upper, above = parent :: upper →
      (ensureAt owner wanted above).Accounts owner (Economical owner parent.name wanted modes)
        modes) :
    (ensureAt owner wanted (place :: above)).Accounts owner
      (Economical owner place.name wanted modes) modes := by
  rw [ensureAt]
  intro store ready
  have sound := ready.sound
  obtain rfl := ready.held
  dsimp only
  by_cases covered : Mode.covers
      ((Context.mk place above).effectiveMode store.table owner) wanted = true
  · rw [if_pos covered]
    apply Economical.nothing
    intro free
    rw [Context.effectiveMode, Table.effectiveOn_of_bare free] at covered
    exact Mode.eq_NL_of_covers_NL covered
  rw [if_neg covered]
  by_cases reads : wanted = .S ∧ (Context.mk place above).hasSIXAbove store.table owner = true
  · rw [if_pos reads]
    apply Economical.nothing
    intro free
    obtain ⟨upper, _, six⟩ := sound.hasSIXAbove_iff.mp reads.2
    rw [free upper] at six
    cases six
  rw [if_neg reads]
  show Plan.Accounts owner _ (ite _ _ _) _
  have found := situation_of_store owner store plannable covered
  generalize explicit : (Context.mk place above).explicitMode store.table owner = held at found ⊢
  generalize inForce : (Context.mk place above).effectiveMode store.table owner = effective
    at found ⊢
  cases found with
  | readsBeneath => exact accounts_makeSIX aligned tidy explicit
  | intends intent wants =>
      have heldThere : store.table.modeOf owner place.name = held := explicit
      have isIntent : (store.table.modeOf owner place.name).isIntent = true := heldThere ▸ intent
      rcases wants with rfl | ⟨rfl, rfl⟩
      · have writes : ¬(held = .IX ∧ Mode.X = .S) := fun both => Mode.noConfusion both.2
        rw [if_neg writes, if_pos intent]
        exact accounts_escalation aligned tidy isIntent (Or.inl rfl)
      · exact accounts_escalation aligned tidy isIntent (Or.inr ⟨rfl, heldThere⟩)
  | nothing locked => exact accounts_acquisition aligned tidy locked
  | holds => exact accounts_promotion aligned tidy explicit
  | inherits =>
      cases above with
      | nil =>
          -- What is inherited comes from somewhere, so this is not a root.
          rw [Context.effectiveMode, Context.names, Table.effectiveOn_of_free explicit] at inForce
          cases inForce
      | cons parent upper =>
          exact accounts_beneathParent aligned ready explicit inForce
            (parentAccounts parent upper rfl)

end

/-- Ensuring a mode at a context is economical, whatever tidy modes it begins with. -/
theorem accounts_ensureAt (plannable : wanted ∈ [.NL, .S, .X])
    (aligned : Context.Aligned ⟨place, above⟩) (tidy : modes.Tidy) :
    (ensureAt owner wanted (place :: above)).Accounts owner
      (Economical owner place.name wanted modes) modes := by
  induction above generalizing place with
  | nil => exact accounts_ensureAt_of_parent aligned tidy plannable nofun
  | cons parent upper inductionHypothesis =>
      apply accounts_ensureAt_of_parent aligned tidy plannable
      intro _ _ same
      cases same
      exact inductionHypothesis aligned.above.2

end Planner

end Granularity
