import Granularity.Proofs.Histories.Footprint
import Granularity.Proofs.Runs.Assurance
import Granularity.Proofs.Runs.ReadOnly
import Mathlib.Algebra.Order.BigOperators.Group.List
import Mathlib.Algebra.Order.Group.Nat

/-!
How far locks on children are stopped.

When the locks on the children of a context are stopped, its children take no locks any more, and
children that are made later are read-only, with everything beneath them.  A context that was there
before and lies deeper asks its own parent only.  So whoever holds an intention in the subtree may
go on from there: lock the children of the context where it is held, or escalate it.  The subtree is
closed exactly when, at every context in it where an intention is held, the locks on children have
been stopped too, there and one level up.
-/

namespace Granularity

/-- The locks on the children of a context have been stopped, and those on its siblings and itself
as well. -/
def ContextTree.Seals (tree : ContextTree) (context : Context) : Prop :=
  tree.childLocksDisabled context.place.id = true ∧
    ∀ parent ∈ context.parent?, tree.childLocksDisabled parent.place.id = true

namespace ContextTree

instance (tree : ContextTree) (context : Context) : Decidable (tree.Seals context) :=
  inferInstanceAs (Decidable (_ ∧ _))

variable {tree grown : ContextTree} {context : Context}

theorem Seals.retained (seals : tree.Seals context) (sound : tree.Sound)
    (known : tree.Knows context) (retains : tree.Retains grown) : grown.Seals context :=
  ⟨retains.stopped _ known.1 seals.1, fun parent above =>
    retains.stopped _ (sound.knows_parent known above).1.1 (seals.2 parent above)⟩

end ContextTree

/-- What an escalation leaves announces nothing beneath. -/
theorem Context.isIntent_escalationTarget (held : Mode) (beneath : List Lock) :
    (escalationTarget held beneath).isIntent = false := by
  rw [escalationTarget]
  split
  · rfl
  · rfl

/-- What asks for a lock at a context needs an intention that is held there or on the parent. -/
theorem Operation.intention_of_poses {operation : Operation} {context : Context} {store : Store}
    {owner : TransactionId} {remark : Option Remark} {call : Call} {request : Request}
    {side : QueueEnd} (about : operation.context? = some context) (aligned : context.Aligned)
    (decided : operation.decide store owner = .ok (.make remark call))
    (poses : store.table.Poses owner call request side) :
    (context.explicitMode store.table owner).isIntent = true ∨
      ∀ parent, context.name.parent? = some parent →
        (store.table.modeOf owner parent).isIntent = true := by
  cases operation with
  | direct => cases about
  | acquire other mode =>
      cases about
      obtain ⟨_, _, locked, admitted, _⟩ := Context.acquire_eq_ok.mp decided
      exact Or.inr fun parent upper =>
        Mode.isIntent_of_admits locked (aligned.admitted locked admitted parent upper)
  | release other =>
      cases about
      obtain ⟨_, _, _, move⟩ := Context.release_eq_ok.mp decided
      cases move
      cases poses
  | promote other mode =>
      cases about
      obtain ⟨_, held, _, covered, admitted, _, _⟩ := Context.promote_eq_ok.mp decided
      have locked : mode ≠ .NL := by
        rintro rfl
        exact held (Mode.eq_NL_of_covers_NL covered)
      exact Or.inr fun parent upper =>
        Mode.isIntent_of_admits locked (aligned.admitted locked admitted parent upper)
  | escalate other =>
      cases about
      obtain ⟨_, _, move⟩ := Context.escalate_eq_ok.mp decided
      split at move
      · next intent => exact Or.inl intent
      · cases move

namespace Pool

/-- Beneath a name, whoever holds an intention holds it at a context that is sealed. -/
def Sealed (pool : Pool) (upper : ResourceName) : Prop :=
  ∀ below owner, pool.contexts.Knows below → below.name.isBeneath upper = true →
    (below.explicitMode pool.table owner).isIntent = true → pool.contexts.Seals below

/-- What happens next adds nothing to any resource beneath a name: no lock is granted there, none is
exchanged for another mode, and nobody waits. -/
def Spares (pool : Pool) (upper : ResourceName) (next : Happening) : Prop :=
  ∀ name, name.isBeneath upper = true → Table.AddsNothing pool.table (pool.step next).table name

variable {config : Config} {pool : Pool} {upper : Context}

theorem Watched.occupied_of_held (watched : pool.Watched config) {owner : TransactionId}
    {name : ResourceName} (held : pool.table.modeOf owner name ≠ .NL) :
    pool.table.Occupied name :=
  Or.inl (List.ne_nil_of_mem ((watched.sound.grants_iff held).mpr rfl))

/-- Whatever is held is held at a context that has been looked up and is not read-only. -/
theorem Watched.exists_context (watched : pool.Watched config) {owner : TransactionId}
    {name : ResourceName} (held : pool.table.modeOf owner name ≠ .NL) :
    ∃ context, pool.contexts.Knows context ∧ context.name = name ∧
      context.place.readOnly = false := by
  obtain ⟨id, inside, named, writable⟩ := watched.writable name (watched.occupied_of_held held)
  exact ⟨pool.contexts.attach id, ⟨inside, rfl⟩, named, writable⟩

/-- What happens leaves the table as it is, or an operation on a context of the tree comes down to a
call that is carried out. -/
theorem Watched.table_step (watched : pool.Watched config) (next : Happening) :
    (pool.step next).table = pool.table ∨
      ∃ owner, ∃ operation : Operation, ∃ remark call done, operation.KnownTo pool.contexts ∧
        operation.decide pool.system.store owner = .ok (.make remark call) ∧
        pool.table.call owner call = .ok done ∧ (pool.step next).table = done.table := by
  cases next with
  | lookUp wanted =>
      left
      rw [Pool.step]
      split
      · split
        · rfl
        · rfl
      · rfl
  | disableChildLocks => exact Or.inl rfl
  | demand owner demand =>
      left
      rw [Pool.step]
      split
      · rfl
      · rfl
  | advance number =>
      cases found : pool.plans[number]? with
      | none =>
          left
          rw [Pool.step, found]
      | some made =>
          obtain ⟨owner, plan⟩ := made
          rw [step_advance found]
          cases plan with
          | done | fail | look | say => exact Or.inl rfl
          | perform operation rest =>
              have known := (watched.plans _ (List.mem_of_getElem? found)).1
              cases pool.system.performed owner operation with
              | refused _ same => exact Or.inl (congrArg Store.table same)
              | stayed _ _ same => exact Or.inl (congrArg Store.table same)
              | passed _ decided passed left =>
                  exact Or.inr ⟨owner, operation, _, _, _, known, decided, passed,
                    congrArg Store.table left⟩

/-! ### A subtree that is closed stays closed -/

/-- Locks on the children of the context have been stopped, and nobody in the subtree can go on. -/
structure Closed (config : Config) (upper : Context) (pool : Pool) : Prop where
  watched : pool.Watched config
  known : pool.contexts.Knows upper
  stopped : pool.contexts.childLocksDisabled upper.place.id = true
  nobody : ∀ name, name.isBeneath upper.name = true → pool.table.queueOf name = []
  isSealed : pool.Sealed upper.name

namespace Closed

variable (closed : pool.Closed config upper)
include closed

/-- No operation asks for a lock in the subtree. -/
theorem not_beneath {operation : Operation} (known : operation.KnownTo pool.contexts)
    {owner : TransactionId} {remark : Option Remark} {call : Call} {request : Request}
    {side : QueueEnd} (decided : operation.decide pool.system.store owner = .ok (.make remark call))
    (poses : pool.table.Poses owner call request side) :
    ¬request.lock.name.isBeneath upper.name = true := by
  intro beneath
  rcases known with ⟨context, about, known⟩ | ⟨other, rfl⟩
  · obtain ⟨writable, named⟩ := Operation.writable_of_decide about decided
    rw [poses.lock_eq, named] at beneath
    obtain ⟨parent, above, parentKnown, within⟩ :=
      closed.watched.contexts.exists_parent known beneath
    have isOpen := (Context.checkWritable_iff.mp writable).2 parent above
    -- Whichever the reason, the locks on the children of the parent have been stopped.
    apply Bool.eq_false_iff.mp isOpen
    rcases within with top | within
    · obtain rfl := closed.watched.indexed.context_eq closed.watched.contexts closed.known
        parentKnown top
      exact closed.stopped
    · have aligned := closed.watched.contexts.aligned known
      have upperName := (closed.watched.contexts.knows_parent known above).2
      rcases Operation.intention_of_poses about aligned decided poses with here | intents
      · exact (closed.isSealed context owner known beneath here).2 parent above
      · exact (closed.isSealed parent owner parentKnown within (intents _ upperName)).1
  · cases decided
    cases poses

/-- What happens next adds nothing in the subtree. -/
theorem spares (next : Happening) : pool.Spares upper.name next := by
  intro name beneath
  have nobody := closed.nobody name beneath
  rcases closed.watched.table_step next with same | ⟨_, _, _, _, _, known, decided, passed, left⟩
  · rw [same]
    exact .refl nobody
  · rw [left]
    apply closed.watched.sound.addsNothing_call passed nobody
    rintro request side poses rfl
    exact closed.not_beneath known decided poses beneath

/-- And the subtree stays closed. -/
theorem step (next : Happening) : (pool.step next).Closed config upper := by
  obtain ⟨watched, grows, retains⟩ := closed.watched.step next
  refine ⟨watched, closed.watched.contexts.knows_grown grows closed.known,
    retains.stopped _ closed.known.1 closed.stopped,
    fun name beneath => (closed.spares next name beneath).2, ?_⟩
  intro below owner known beneath intent
  have held : pool.table.modeOf owner below.name =
      below.explicitMode (pool.step next).table owner :=
    (closed.spares next below.name beneath).modeOf_eq closed.watched.sound watched.sound
      (Mode.ne_NL_of_isIntent intent)
  -- The context was there before, since the intention was.
  have locked : pool.table.modeOf owner below.name ≠ .NL := held ▸ Mode.ne_NL_of_isIntent intent
  obtain ⟨before, knownBefore, named, _⟩ := closed.watched.exists_context locked
  obtain rfl := watched.indexed.context_eq watched.contexts
    (closed.watched.contexts.knows_grown grows knownBefore) known named
  rw [← held] at intent
  exact (closed.isSealed before owner knownBefore beneath intent).retained closed.watched.contexts
    knownBefore retains

theorem after (later : List Happening) : (pool.after later).Closed config upper := by
  induction later generalizing pool with
  | nil => exact closed
  | cons next later inductionHypothesis => exact inductionHypothesis (closed.step next)

end Closed

/-! ### What can be added where it is not closed -/

/-- There is always a sound segment that is not listed yet. -/
theorem exists_missing (listing : Std.ExtTreeMap String ContextId) :
    ∃ segment, ResourceName.IsSegment segment ∧ listing[segment]? = none := by
  -- One letter more than in all listed segments together.
  let letters := (listing.keys.map String.length).sum + 1
  have long : (String.ofList (List.replicate letters 'a')).length = letters := by simp
  refine ⟨String.ofList (List.replicate letters 'a'), ⟨?_, ?_⟩, ?_⟩
  · intro empty
    rw [empty] at long
    exact Nat.succ_ne_zero _ long.symm
  · simp
  · apply Std.ExtTreeMap.getElem?_eq_none
    intro listed
    have shorter := List.le_sum_of_mem
      (List.mem_map_of_mem (f := String.length) (Std.ExtTreeMap.mem_keys.mpr listed))
    rw [long] at shorter
    exact Nat.not_succ_le_self _ shorter

/-- An operation asked for next adds beneath a name if its call does. -/
theorem not_spares_ask (demand : Demand) {owner : TransactionId} {operation : Operation}
    {context : Context} (asks : demand.plan owner = .ask operation)
    (about : demand.context? = some context) (known : pool.contexts.Knows context)
    {remark : Option Remark} {call : Call} {done : Section}
    (decided : operation.decide pool.system.store owner = .ok (.make remark call))
    (passed : pool.table.call owner call = .ok done) {upper name : ResourceName}
    (beneath : name.isBeneath upper = true) (adds : ¬Table.AddsNothing pool.table done.table name) :
    ∃ later next, ¬(pool.after later).Spares upper next := by
  have allowed : (demand.context?.all fun context => pool.contexts.Knows context) = true := by
    rw [about]
    exact decide_eq_true known
  have asked : pool.step (.demand owner demand) =
      { pool with plans := pool.plans ++ [(owner, .ask operation)] } := by
    rw [Pool.step, if_pos allowed, asks]
  refine ⟨[.demand owner demand], .advance pool.plans.length, fun spares => adds ?_⟩
  have spared := spares name beneath
  rw [after, List.foldl_cons, List.foldl_nil, asked] at spared
  have found : (pool.plans ++ [(owner, Plan.ask operation)])[pool.plans.length]? =
      some (owner, .ask operation) := by simp
  rw [step_advance found] at spared
  have left : (pool.system.perform owner operation).2.store.table = done.table := by
    have passed : (pool.system.note (remark.toList.map Notice.remark)).store.table.call owner call =
        .ok done := passed
    rw [System.perform_of_make decided, System.store_carryOut passed]
  rw [← left]
  exact spared

section

variable {below : Context} {owner : TransactionId} {upper : ResourceName}
  (watched : pool.Watched config) (known : pool.contexts.Knows below)
include watched known

/-- Nothing is locked on the name of a child that has not been looked up. -/
theorem Watched.not_occupied_child {segment : String}
    (missing : (pool.contexts.node below.place.id).children[segment]? = none) :
    ¬pool.table.Occupied (below.name.child segment) := by
  intro occupied
  obtain ⟨id, inside, named, _⟩ := watched.writable _ occupied
  obtain ⟨parent, parentInside, parentName, listed⟩ :=
    watched.indexed.listed_child watched.contexts inside named
  have same := watched.indexed.eq_of_name_eq watched.contexts parentInside known.1
    (parentName.trans known.name_eq.symm)
  rw [same, missing] at listed
  cases listed

/-- A context that lets locks through has a child that takes locks and on whose name nothing is
locked: it has to be looked up. -/
theorem Watched.exists_new_child (writable : below.place.readOnly = false)
    (isOpen : pool.contexts.childLocksDisabled below.place.id = false) :
    ∃ wanted child, (pool.step (.lookUp wanted)).table = pool.table ∧
      (pool.step (.lookUp wanted)).contexts.Knows child ∧
      child.name.parent? = some below.name ∧
      child.checkWritable (pool.step (.lookUp wanted)).contexts = .ok () ∧
      ¬pool.table.Occupied child.name := by
  obtain ⟨segment, checked, missing⟩ :=
    exists_missing (pool.contexts.node below.place.id).children
  let made := pool.contexts.child below.place.id segment
  let child : Context := ⟨made.2.place made.1, below.place :: below.above⟩
  have looked : pool.step (.lookUp (.child below segment)) = pool.withContexts made.2 := by
    have allowed : ((LookUp.child below segment).start?.all fun context =>
        pool.contexts.Knows context) = true := decide_eq_true known
    rw [Pool.step, if_pos allowed, LookUp.resolve, ContextTree.childContext,
      LookUp.checkSegment_eq_ok.mpr checked]
    rfl
  have place : child.place = ⟨pool.contexts.nodes.length, below.name.child segment, false⟩ := by
    have isOpen : (pool.contexts.node below.place.id).childLocksDisabled = false := isOpen
    show (pool.contexts.child below.place.id segment).2.place _ = _
    rw [ContextTree.place_child_new missing, known.name_eq, known.readOnly_eq, writable, isOpen,
      Bool.or_false]
  have stillOpen : made.2.childLocksDisabled below.place.id = false := by
    rw [ContextTree.childLocksDisabled, ContextTree.node_child_old missing known.1, if_pos rfl]
    exact isOpen
  have named : child.name = below.name.child segment := congrArg Place.name place
  refine ⟨.child below segment, child, ?_⟩
  rw [looked, named]
  refine ⟨rfl, (watched.contexts.finds_child known rfl).knows, ResourceName.parent?_child _ _, ?_,
    watched.not_occupied_child known missing⟩
  refine Context.checkWritable_iff.mpr ⟨congrArg Place.readOnly place, fun parent above => ?_⟩
  cases above
  exact stillOpen

/-- A context that takes locks can be locked when an intention is held on its parent and nothing is
locked on its own name. -/
theorem Watched.not_spares_acquisition {parent : ResourceName}
    (above : below.name.parent? = some parent) (within : parent.isBeneath upper = true)
    (writable : below.checkWritable pool.contexts = .ok ())
    (free : ¬pool.table.Occupied below.name)
    (intent : (pool.table.modeOf owner parent).isIntent = true) :
    ∃ later next, ¬(pool.after later).Spares upper next := by
  let mode := (pool.table.modeOf owner parent).intention
  have locked : mode ≠ .NL := fun silent =>
    Mode.ne_NL_of_isIntent intent (Mode.eq_NL_of_intention silent)
  have unheld : below.explicitMode pool.table owner = .NL :=
    not_not.mp fun held => free (watched.occupied_of_held held)
  have admitted : below.checkAdmitted pool.table owner mode = .ok () := by
    apply (watched.contexts.aligned known).checkAdmitted_eq_ok locked
    intro upperName same
    rw [above, Option.some.injEq] at same
    rw [← same]
    exact Mode.admits_intention_of_isIntent intent
  have decided := Context.acquire_eq_ok.mpr ⟨writable, unheld, locked, admitted, rfl⟩
  obtain ⟨done, passed⟩ := (Table.Poses.acquire unheld locked).passes
  have beneath : below.name.isBeneath upper = true :=
    ResourceName.isBeneath_trans (ResourceName.isBeneath_parent above) within
  refine not_spares_ask (.acquire below mode) rfl rfl known decided passed beneath ?_
  refine (Table.passes_call passed).adds nofun ?_ ?_
  · intro request side poses
    cases poses
    nofun
  · intro granted
    exact free (Or.inl (List.ne_nil_of_mem granted))

/-- A context at which an intention is held can be escalated, unless locks on the children of its
parent have been stopped. -/
theorem Watched.not_spares_escalation (beneath : below.name.isBeneath upper = true)
    (nobody : ∀ name, name.isBeneath upper = true → pool.table.queueOf name = [])
    (writable : below.checkWritable pool.contexts = .ok ())
    (intent : (below.explicitMode pool.table owner).isIntent = true) :
    ∃ later next, ¬(pool.after later).Spares upper next := by
  have held : below.explicitMode pool.table owner ≠ .NL := Mode.ne_NL_of_isIntent intent
  have inForce : below.effectiveMode pool.table owner ≠ .NL := by
    rw [Context.effectiveMode_of_held held]
    exact held
  have decided := Context.escalate_eq_ok.mpr ⟨writable, inForce, if_pos intent⟩
  obtain ⟨done, passed⟩ := Context.escalate_passes watched.sound decided
  let target := Context.escalationTarget (below.explicitMode pool.table owner)
    (pool.table.locksBeneath owner below.name)
  have plain : target.isIntent = false := Context.isIntent_escalationTarget _ _
  refine not_spares_ask (.escalate below) rfl rfl known decided passed beneath ?_
  refine (Table.passes_call passed).adds nofun ?_ ?_
  · -- What is given up is held at the context and beneath it, where nobody waits.
    intro request side poses lock member
    apply nobody
    rcases List.mem_cons.mp (poses.mem_names (Or.inr (List.mem_map_of_mem member))) with own | given
    · exact own ▸ beneath
    · rcases List.mem_cons.mp given with own | lower
      · exact own ▸ beneath
      · have within := (watched.sound.mem_names_locksBeneath.mp lower).1
        exact ResourceName.isBeneath_trans within beneath
  · intro (granted : pool.table.Grants owner below.name target)
    have same := (watched.sound.grants_iff (Context.escalationTarget_ne_NL _ _)).mp granted
    rw [Context.explicitMode, same, plain] at intent
    cases intent

end

/-- Where nothing can be added, whoever holds an intention holds it at a context that is sealed. -/
theorem Watched.isSealed {upper : ResourceName} (watched : pool.Watched config)
    (nobody : ∀ name, name.isBeneath upper = true → pool.table.queueOf name = [])
    (spared : ∀ later next, (pool.after later).Spares upper next) : pool.Sealed upper := by
  intro below owner known beneath intent
  have writable : below.place.readOnly = false := by
    obtain ⟨context, contextKnown, named, writable⟩ :=
      watched.exists_context (Mode.ne_NL_of_isIntent intent)
    rw [← watched.indexed.context_eq watched.contexts contextKnown known named]
    exact writable
  constructor
  · by_contra notStopped
    obtain ⟨wanted, child, table, childKnown, above, takes, free⟩ :=
      watched.exists_new_child known writable (Bool.eq_false_iff.mpr notStopped)
    rw [← table] at free intent
    obtain ⟨later, next, added⟩ := (watched.step (.lookUp wanted)).1.not_spares_acquisition
      childKnown above beneath takes free intent
    exact added (spared (.lookUp wanted :: later) next)
  · intro parent above
    by_contra notStopped
    have isOpen : ∀ other ∈ below.parent?,
        pool.contexts.childLocksDisabled other.place.id = false := by
      intro other member
      rw [above] at member
      cases member
      exact Bool.eq_false_iff.mpr notStopped
    obtain ⟨later, next, added⟩ := watched.not_spares_escalation known beneath nobody
      (Context.checkWritable_iff.mpr ⟨writable, isOpen⟩) intent
    exact added (spared later next)

/-- How far a subtree is closed.  Let anything happen, and then let the locks on the children of a
context be stopped while nobody waits for a name strictly beneath it.  From then on nothing is added
strictly beneath it, whatever happens in whichever order: no lock is granted there, none is
exchanged for another mode, and nobody waits; and that for names whose contexts were there before
and for names whose contexts are made later.  This is so exactly when, at the stop, every intention
that is held strictly beneath is held at a context that is sealed: the locks on the children have
been stopped there and at the parent as well. -/
theorem spares_iff_sealed (config : Config) (handles : Std.ExtTreeMap TransactionId Handle)
    (happenings : List Happening) (context : Context)
    (known : ((opened config handles).after happenings).contexts.Knows context)
    (nobody : ∀ name, name.isBeneath context.name = true →
      ((opened config handles).after happenings).table.queueOf name = []) :
    let stopped := ((opened config handles).after happenings).step (.disableChildLocks context)
    (∀ later next, (stopped.after later).Spares context.name next) ↔
      stopped.Sealed context.name := by
  intro stopped
  have watched := ((Watched.opened config handles).after happenings).1
  obtain ⟨next, grows, _⟩ := watched.step (.disableChildLocks context)
  constructor
  · exact next.isSealed nobody
  · intro isSealed later
    have closed : stopped.Closed config context := by
      refine ⟨next, watched.contexts.knows_grown grows known, ?_, nobody, isSealed⟩
      show (ContextTree.disableChildLocks _ _).childLocksDisabled _ = true
      rw [ContextTree.childLocksDisabled_disableChildLocks _ known.1, decide_eq_true rfl,
        Bool.true_or]
    exact (closed.after later).spares

/-- Whether a subtree is closed can be read off the granted locks. -/
theorem Watched.sealed_iff (watched : pool.Watched config) {upper : ResourceName} :
    pool.Sealed upper ↔ ∀ id < pool.contexts.nodes.length,
      (pool.contexts.node id).name.isBeneath upper = true →
        ∀ lock ∈ (pool.table.entry (pool.contexts.node id).name).granted,
          lock.mode.isIntent = true → pool.contexts.Seals (pool.contexts.attach id) := by
  constructor
  · intro isSealed id inside beneath lock member intent
    obtain ⟨name, mode, owner⟩ := lock
    obtain rfl := (watched.sound.entries _).granted_named _ member
    have held := (watched.sound.grants_iff (Mode.ne_NL_of_isIntent intent)).mp member
    refine isSealed (pool.contexts.attach id) owner ⟨inside, rfl⟩ beneath ?_
    exact (congrArg Mode.isIntent held).trans intent
  · intro allSealed below owner known beneath intent
    have granted := (watched.sound.grants_iff (Mode.ne_NL_of_isIntent intent)).mpr rfl
    rw [← known.2] at beneath intent granted ⊢
    exact allSealed below.place.id known.1 beneath _ granted intent

/-- The contexts of a root, of its child and of a child of this. -/
def database : Context := ⟨⟨0, ⟨"database", []⟩, false⟩, []⟩

def firstTable : Context := ⟨⟨1, ⟨"database", ["T1"]⟩, false⟩, [database.place]⟩

def thirdRow : Context :=
  ⟨⟨2, ⟨"database", ["T1", "3"]⟩, false⟩, [firstTable.place, database.place]⟩

/-- A transaction takes `IX` on the root and a mode on its child. -/
def locking (mode : Mode) : List Happening :=
  [.lookUp (.named firstTable.name), .demand 1 (.acquire database .IX), .advance 0,
    .demand 1 (.acquire firstTable mode), .advance 1]

/-- Beneath a root whose child has been locked with `X`, nothing is added once the locks on children
have been stopped. -/
theorem spares_beneath_lockedTable :
    let stopped := ((opened {} ∅).after (locking .X)).step (.disableChildLocks database)
    stopped.table.modeOf 1 firstTable.name = .X ∧
      ∀ later next, (stopped.after later).Spares database.name next := by
  intro stopped
  have watched : stopped.Watched {} :=
    (((Watched.opened {} ∅).after (locking .X)).1.step (.disableChildLocks database)).1
  have known : ((opened {} ∅).after (locking .X)).contexts.Knows database := by decide +kernel
  have quiet : ((opened {} ∅).after (locking .X)).table.Quiet := by decide +kernel
  have isSealed : stopped.Sealed database.name := watched.sealed_iff.mpr (by decide +kernel)
  refine ⟨by decide +kernel, ?_⟩
  exact (spares_iff_sealed {} ∅ (locking .X) database known fun name _ => quiet name).mpr isSealed

/-- With `IX` on the child instead, the transaction is still granted a lock one level further
down. -/
theorem not_spares_beneath_intendedTable :
    let pool := (opened {} ∅).after (locking .IX)
    let stopped := pool.step (.disableChildLocks database)
    let before := stopped.after
      [.lookUp (.child firstTable "3"), .demand 1 (.acquire thirdRow .X)]
    let after := before.step (.advance 2)
    pool.contexts.Knows database ∧ pool.table.Quiet ∧
      before.table.modeOf 1 thirdRow.name = .NL ∧ after.table.modeOf 1 thirdRow.name = .X ∧
      ¬before.Spares database.name (.advance 2) := by
  intro pool stopped before after
  have beneath : thirdRow.name.isBeneath database.name = true := by decide +kernel
  -- `Spares` speaks of the step and not of `after`: to match the two would evaluate the run
  have granted :
      ⟨thirdRow.name, .X, 1⟩ ∈ ((before.step (.advance 2)).table.entry thirdRow.name).granted := by
    decide +kernel
  have free : (before.table.entry thirdRow.name).granted = [] := by decide +kernel
  refine ⟨by decide +kernel, by decide +kernel, by decide +kernel, by decide +kernel, ?_⟩
  intro spares
  have held := (spares thirdRow.name beneath).1 ⟨thirdRow.name, .X, 1⟩ granted
  rw [free] at held
  cases held

end Pool

end Granularity
