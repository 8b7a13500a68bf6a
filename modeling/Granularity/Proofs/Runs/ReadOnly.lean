import Granularity.Proofs.Contexts.Index
import Granularity.Proofs.Runs.Operations
import Granularity.Proofs.Table.Additions

/-!
No lock in a read-only subtree.

Here any number of plans are under way at the same time, also several of one transaction, and
whoever waits may go on as it likes.  Contexts are looked up in between, and locks on the children
of contexts are stopped.  Still every operation of a plan is on a context that has been looked up,
and is refused where that context is read-only; so a lock is granted or waits only on the name of a
node that is not read-only.
-/

namespace Granularity

/-! ### Everything at the same time -/

/-- Take the next step of a plan: what is left to do, and the manager after the step. -/
def System.advance (system : System) (owner : TransactionId) : Plan → Plan × System
  | .done | .fail _ => (.done, system)
  | .look next => (next system.store, system)
  | .say remark next => (next, system.note [.remark remark])
  | .perform operation next =>
      let ended := system.perform owner operation
      (next.following ended.1, ended.2)

/-- A manager, and the plans under way with the transactions that they belong to. -/
structure Pool where
  system : System
  plans : List (TransactionId × Plan)

/-- What can happen next. -/
inductive Happening where
  /-- Somebody looks up a context. -/
  | lookUp (wanted : LookUp)
  /-- Somebody stops the locks on the children of a context. -/
  | disableChildLocks (context : Context)
  /-- A transaction makes a demand. -/
  | demand (owner : TransactionId) (demand : Demand)
  /-- The plan of this number takes its next step. -/
  | advance (number : Nat)

namespace Pool

/-- The lock table. -/
abbrev table (pool : Pool) : Table :=
  pool.system.store.table

/-- The tree of contexts. -/
abbrev contexts (pool : Pool) : ContextTree :=
  pool.system.store.contexts

/-- A manager in which nothing has happened. -/
def opened (config : Config) (handles : Std.ExtTreeMap TransactionId Handle) : Pool :=
  ⟨.opened config handles, []⟩

/-- The pool with other contexts. -/
def withContexts (pool : Pool) (contexts : ContextTree) : Pool :=
  { pool with
    system := { pool.system with store := { pool.system.store with contexts := contexts } } }

/-- What comes of something that happens.  Demands and look-ups set out from contexts that have
been found before, and what does not fit changes nothing. -/
def step (pool : Pool) : Happening → Pool
  | .lookUp wanted =>
      if wanted.start?.all fun context => pool.contexts.Knows context then
        match wanted.resolve pool.contexts pool.system.store.config with
        | .error _ => pool
        | .ok (_, grown) => pool.withContexts grown
      else pool
  | .disableChildLocks context =>
      pool.withContexts (pool.contexts.disableChildLocks context.place.id)
  | .demand owner demand =>
      if demand.context?.all fun context => pool.contexts.Knows context then
        { pool with plans := pool.plans ++ [(owner, demand.plan owner)] }
      else pool
  | .advance number =>
      match pool.plans[number]? with
      | none => pool
      | some (owner, plan) =>
          let (rest, system) := pool.system.advance owner plan
          ⟨system, pool.plans.set number (owner, rest)⟩

/-- The pool after some happenings in order. -/
def after (pool : Pool) (happenings : List Happening) : Pool :=
  happenings.foldl step pool

end Pool

/-- A step of a plan leaves the contexts as they are. -/
theorem System.contexts_advance (system : System) (owner : TransactionId) (plan : Plan) :
    (system.advance owner plan).2.store.contexts = system.store.contexts := by
  cases plan with
  | done | fail | look | say => rfl
  | perform operation next =>
      cases system.performed owner operation with
      | refused _ same => exact congrArg Store.contexts same
      | stayed _ _ same => exact congrArg Store.contexts same
      | passed _ _ _ left =>
          show (system.perform owner operation).2.store.contexts = _
          rw [left]

namespace Pool

variable {pool : Pool} {number : Nat} {owner : TransactionId}

theorem step_advance {plan : Plan} (found : pool.plans[number]? = some (owner, plan)) :
    pool.step (.advance number) =
      ⟨(pool.system.advance owner plan).2,
        pool.plans.set number (owner, (pool.system.advance owner plan).1)⟩ := by
  rw [step, found]

/-- What can be reached after the next step can be reached from here. -/
theorem exists_after_of_step {plan : Plan} (found : pool.plans[number]? = some (owner, plan))
    {system : System}
    (reached : ∀ further : Pool, further.system = (pool.system.advance owner plan).2 →
      further.plans[number]? = some (owner, (pool.system.advance owner plan).1) →
      ∃ count, (further.after (List.replicate count (.advance number))).system = system) :
    ∃ count, (pool.after (List.replicate count (.advance number))).system = system := by
  have inside : number < pool.plans.length := (List.getElem?_eq_some_iff.mp found).1
  have stepped := step_advance found
  obtain ⟨count, reached⟩ := reached (pool.step (.advance number)) (congrArg Pool.system stepped)
    (by rw [stepped, List.getElem?_set_self inside])
  exact ⟨count + 1, reached⟩

/-- Running a plan at a stretch is taking its steps one after the other. -/
theorem exists_after_eq_run {plan : Plan} (found : pool.plans[number]? = some (owner, plan)) :
    ∃ count, (pool.after (List.replicate count (.advance number))).system =
      (pool.system.run owner plan).2 := by
  induction plan generalizing pool with
  | done => exact ⟨0, rfl⟩
  | fail => exact ⟨0, rfl⟩
  | look next inductionHypothesis =>
      apply exists_after_of_step found
      intro further same rest
      obtain ⟨count, reached⟩ := inductionHypothesis _ rest
      exact ⟨count, reached.trans (same ▸ rfl)⟩
  | say remark next inductionHypothesis =>
      apply exists_after_of_step found
      intro further same rest
      obtain ⟨count, reached⟩ := inductionHypothesis rest
      exact ⟨count, reached.trans (same ▸ rfl)⟩
  | perform operation next inductionHypothesis =>
      rw [System.run]
      rcases ended : pool.system.perform owner operation with ⟨outcome, after⟩
      apply exists_after_of_step found
      intro further same rest
      have left : further.system = after := same.trans (congrArg Prod.snd ended)
      cases outcome with
      | returned =>
          have rest : further.plans[number]? = some (owner, next) := by
            rw [rest, System.advance, ended]
            rfl
          obtain ⟨count, reached⟩ := inductionHypothesis rest
          exact ⟨count, reached.trans (left ▸ rfl)⟩
      | refused => exact ⟨0, left⟩
      | suspended => exact ⟨0, left⟩

end Pool

/-! ### Names with locks -/

namespace Table

variable {table : Table} {name : ResourceName}

/-- A lock is granted or waits on a name. -/
def Occupied (table : Table) (name : ResourceName) : Prop :=
  (table.entry name).granted ≠ [] ∨ table.queueOf name ≠ []

/-- A call occupies no name but the one for which it poses a request. -/
theorem Sound.occupied_call (sound : table.Sound) {owner : TransactionId} {call : Call}
    {done : Section} (passed : table.call owner call = .ok done)
    (occupied : done.table.Occupied name) :
    table.Occupied name ∨
      name = (call.lock owner).name ∧ ∃ request side, table.Poses owner call request side := by
  by_cases before : table.Occupied name
  · exact Or.inl before
  · rw [Occupied, not_or, not_not, not_not] at before
    right
    by_contra unasked
    have elsewhere : ∀ request side, table.Poses owner call request side →
        request.lock.name ≠ name := by
      rintro request side poses rfl
      exact unasked ⟨congrArg Lock.name poses.lock_eq, request, side, poses⟩
    have addsNothing := sound.addsNothing_call passed before.2 elsewhere
    rcases occupied with granted | waiting
    · obtain ⟨lock, member⟩ := List.exists_mem_of_ne_nil _ granted
      have held := addsNothing.1 lock member
      rw [before.1] at held
      cases held
    · exact waiting addsNothing.2

end Table

/-! ### Operations on contexts that are there -/

/-- The operation is on a context of the tree, or it is a release. -/
def Operation.KnownTo (tree : ContextTree) (operation : Operation) : Prop :=
  (∃ context, operation.context? = some context ∧ tree.Knows context) ∨
    ∃ name, operation = .direct (.release name)

theorem Operation.KnownTo.mono {tree grown : ContextTree} {operation : Operation}
    (known : operation.KnownTo tree) (sound : tree.Sound) (grows : tree.Grows grown) :
    operation.KnownTo grown := by
  rcases known with ⟨context, about, known⟩ | releases
  · exact Or.inl ⟨context, about, sound.knows_grown grows known⟩
  · exact Or.inr releases

/-- At a context and above it all operations are on contexts of the tree. -/
theorem ContextTree.Sound.along {tree : ContextTree} (sound : tree.Sound) {place : Place}
    {above : List Place} (known : tree.Knows ⟨place, above⟩) :
    Planner.Along (Operation.KnownTo tree) (place :: above) := by
  induction above generalizing place with
  | nil => exact ⟨fun _ about => Or.inl ⟨_, about, known⟩, trivial⟩
  | cons upper above inductionHypothesis =>
      exact ⟨fun _ about => Or.inl ⟨_, about, known⟩,
        inductionHypothesis (sound.knows_above known)⟩

/-- An operation that comes down to a call is on a context that takes locks, and the call is about
the name of this context. -/
theorem Operation.writable_of_decide {operation : Operation} {context : Context} {store : Store}
    {owner : TransactionId} {remark : Option Remark} {call : Call}
    (about : operation.context? = some context)
    (decided : operation.decide store owner = .ok (.make remark call)) :
    context.checkWritable store.contexts = .ok () ∧ (call.lock owner).name = context.name := by
  cases operation with
  | direct => cases about
  | acquire other mode =>
      cases about
      obtain ⟨passes, _, _, _, move⟩ := Context.acquire_eq_ok.mp decided
      cases move
      exact ⟨passes, rfl⟩
  | release other =>
      cases about
      obtain ⟨passes, _, _, move⟩ := Context.release_eq_ok.mp decided
      cases move
      exact ⟨passes, rfl⟩
  | promote other mode =>
      cases about
      obtain ⟨passes, _, _, _, _, _, move⟩ := Context.promote_eq_ok.mp decided
      rw [Context.promotion] at move
      split at move
      · cases move
        exact ⟨passes, rfl⟩
      · cases move
        exact ⟨passes, rfl⟩
  | escalate other =>
      cases about
      obtain ⟨passes, _, move⟩ := Context.escalate_eq_ok.mp decided
      split at move
      · cases move
        exact ⟨passes, rfl⟩
      · cases move

/-! ### The invariant -/

namespace Pool

/-- What holds whatever has happened. -/
structure Watched (config : Config) (pool : Pool) : Prop where
  config_eq : pool.system.store.config = config
  sound : pool.table.Sound
  contexts : pool.contexts.Sound
  indexed : pool.contexts.Indexed config
  plans : ∀ made ∈ pool.plans, made.2.Every (Operation.KnownTo pool.contexts)
  /-- Whatever is locked or waited for is the name of a node that is not read-only. -/
  writable : ∀ name, pool.table.Occupied name →
    ∃ id < pool.contexts.nodes.length,
      (pool.contexts.node id).name = name ∧ (pool.contexts.node id).readOnly = false

namespace Watched

variable {config : Config} {pool : Pool}

theorem opened (config : Config) (handles : Std.ExtTreeMap TransactionId Handle) :
    (Pool.opened config handles).Watched config where
  config_eq := rfl
  sound := .empty
  contexts := .empty
  indexed := .empty config
  plans made member := by cases member
  writable name occupied := by
    rcases occupied with granted | waiting
    · exact absurd (congrArg Entry.granted (Table.entry_empty name)) granted
    · exact absurd (congrArg Entry.queue (Table.entry_empty name)) waiting

variable (watched : pool.Watched config)
include watched

/-- Contexts are looked up, or locks on children are stopped. -/
theorem withContexts {contexts : ContextTree} (sound : contexts.Sound)
    (indexed : contexts.Indexed config) (grows : pool.contexts.Grows contexts) :
    (pool.withContexts contexts).Watched config where
  config_eq := watched.config_eq
  sound := watched.sound
  contexts := sound
  indexed := indexed
  plans made member := (watched.plans made member).mono
    fun _ known => known.mono watched.contexts grows
  writable name occupied := by
    obtain ⟨id, inside, named, writable⟩ := watched.writable name occupied
    have place := grows.place_eq id inside
    exact ⟨id, Nat.lt_of_lt_of_le inside grows.length_le,
      (congrArg Place.name place).trans named, (congrArg Place.readOnly place).trans writable⟩

/-- A plan takes a step that leaves the contexts alone. -/
theorem proceed {number : Nat} {owner : TransactionId} {rest : Plan} {system : System}
    {table : Table} (left : system.store = { pool.system.store with table := table })
    (sound : table.Sound) (every : rest.Every (Operation.KnownTo pool.contexts))
    (writable : ∀ name, table.Occupied name → pool.table.Occupied name ∨
      ∃ id < pool.contexts.nodes.length,
        (pool.contexts.node id).name = name ∧ (pool.contexts.node id).readOnly = false) :
    Watched config ⟨system, pool.plans.set number (owner, rest)⟩ where
  config_eq := by
    rw [left]
    exact watched.config_eq
  sound := by
    rw [Pool.table, left]
    exact sound
  contexts := by
    rw [Pool.contexts, left]
    exact watched.contexts
  indexed := by
    rw [Pool.contexts, left]
    exact watched.indexed
  plans made member := by
    rw [Pool.contexts, left]
    rcases List.mem_or_eq_of_mem_set member with member | rfl
    · exact watched.plans made member
    · exact every
  writable name occupied := by
    rw [Pool.table, left] at occupied
    rw [Pool.contexts, left]
    rcases writable name occupied with before | writable
    · exact watched.writable name before
    · exact writable

/-- An operation is performed. -/
theorem perform {number : Nat} {owner : TransactionId} {operation : Operation} {next : Plan}
    (every : (Plan.perform operation next).Every (Operation.KnownTo pool.contexts))
    {outcome : Outcome} {after : System}
    (performed : pool.system.Performed owner operation outcome after.store) :
    Watched config ⟨after, pool.plans.set number (owner, next.following outcome)⟩ := by
  obtain ⟨known, everyNext⟩ := every
  have following : (next.following outcome).Every (Operation.KnownTo pool.contexts) :=
    everyNext.following outcome
  have unchanged (same : after.store = pool.system.store) :
      Watched config ⟨after, pool.plans.set number (owner, next.following outcome)⟩ :=
    watched.proceed same watched.sound following fun _ => Or.inl
  cases performed with
  | refused _ same => exact unchanged same
  | stayed _ _ same => exact unchanged same
  | @passed remark call done _ decided passed left =>
      refine watched.proceed left (watched.sound.call passed) following fun name occupied => ?_
      rcases watched.sound.occupied_call passed occupied with before | ⟨named, request, side, poses⟩
      · exact Or.inl before
      · rcases known with ⟨context, about, known⟩ | ⟨other, rfl⟩
        · obtain ⟨writable, called⟩ := Operation.writable_of_decide about decided
          exact Or.inr ⟨context.place.id, known.1,
            known.name_eq.trans (called.symm.trans named.symm),
            known.readOnly_eq.trans (Context.checkWritable_iff.mp writable).1⟩
        · cases decided
          cases poses

/-- The next step of a plan. -/
theorem advance (number : Nat) :
    (pool.step (.advance number)).Watched config ∧
      (pool.step (.advance number)).contexts = pool.contexts := by
  rw [step]
  cases found : pool.plans[number]? with
  | none => exact ⟨watched, rfl⟩
  | some made =>
      obtain ⟨owner, plan⟩ := made
      have every := watched.plans _ (List.mem_of_getElem? found)
      refine ⟨?_, System.contexts_advance pool.system owner plan⟩
      cases plan with
      | done => exact watched.proceed rfl watched.sound trivial fun _ => Or.inl
      | fail => exact watched.proceed rfl watched.sound trivial fun _ => Or.inl
      | look next => exact watched.proceed rfl watched.sound (every _) fun _ => Or.inl
      | say remark next => exact watched.proceed rfl watched.sound every fun _ => Or.inl
      | perform operation next =>
          exact watched.perform every (pool.system.performed owner operation)

/-- Whatever happens, this stays so, the contexts only grow, and those that were there keep their
children and their flags. -/
theorem step (happening : Happening) :
    (pool.step happening).Watched config ∧ pool.contexts.Grows (pool.step happening).contexts ∧
      pool.contexts.Retains (pool.step happening).contexts := by
  cases happening with
  | lookUp wanted =>
      rw [Pool.step]
      split
      · next known =>
          split
          · exact ⟨watched, .refl _, .refl _⟩
          · next context grown found =>
              have known : ∀ start ∈ wanted.start?, pool.contexts.Knows start := by
                intro start member
                rw [Option.mem_def.mp member] at known
                exact of_decide_eq_true known
              rw [watched.config_eq] at found
              have made := LookUp.made watched.contexts known found
              obtain ⟨sound, grows, retains⟩ := made.retains watched.contexts
              have indexed := (made.indexed watched.contexts watched.indexed).2
              exact ⟨watched.withContexts sound indexed grows, grows, retains⟩
      · exact ⟨watched, .refl _, .refl _⟩
  | disableChildLocks context =>
      have grows := ContextTree.grows_disableChildLocks pool.contexts context.place.id
      exact ⟨watched.withContexts (watched.contexts.disableChildLocks _)
        (watched.indexed.disableChildLocks watched.contexts _) grows, grows,
        ContextTree.retains_disableChildLocks pool.contexts context.place.id⟩
  | demand owner demand =>
      rw [Pool.step]
      split
      · next known =>
          refine ⟨{ watched with plans := ?_ }, .refl _, .refl _⟩
          intro made member
          rcases List.mem_append.mp member with member | new
          · exact watched.plans made member
          · obtain rfl := List.mem_singleton.mp new
            refine demand.every_plan owner (fun context about => ?_) fun _ name =>
              Or.inr ⟨name, rfl⟩
            rw [Option.mem_def.mp about] at known
            exact watched.contexts.along (of_decide_eq_true known)
      · exact ⟨watched, .refl _, .refl _⟩
  | advance number =>
      obtain ⟨next, same⟩ := watched.advance number
      rw [same]
      exact ⟨next, .refl _, .refl _⟩

theorem after (happenings : List Happening) :
    (pool.after happenings).Watched config ∧
      pool.contexts.Grows (pool.after happenings).contexts := by
  induction happenings generalizing pool with
  | nil => exact ⟨watched, .refl _⟩
  | cons happening happenings inductionHypothesis =>
      obtain ⟨next, grows, _⟩ := watched.step happening
      obtain ⟨last, grown⟩ := inductionHypothesis next
      exact ⟨last, grows.trans grown⟩

end Watched

/-- No lock is ever taken in a read-only subtree.  Let contexts be looked up in every way, locks on
children be stopped, and any transactions demand operations on contexts and planning, all of it in
any order and any number of plans at the same time.  Then every context strictly beneath a root that
the configuration names is read-only, and so is every context strictly beneath a read-only one.  A
context is found again as it was, with the same flag, whatever happens later.  And on the name of a
read-only context no lock is granted and no request waits. -/
theorem readOnly_never_locked (config : Config)
    (handles : Std.ExtTreeMap TransactionId Handle) (happenings later : List Happening) :
    let pool := (opened config handles).after happenings
    let further := pool.after later
    (∀ context, pool.contexts.Knows context → ∀ segment ∈ config.readOnlyRoots,
      context.name.isBeneath ⟨segment, []⟩ = true → context.place.readOnly = true) ∧
    (∀ upper lower, pool.contexts.Knows upper → pool.contexts.Knows lower →
      upper.place.readOnly = true → lower.name.isBeneath upper.name = true →
        lower.place.readOnly = true) ∧
    (∀ context, pool.contexts.Knows context → further.contexts.Knows context ∧
      ∀ found, further.contexts.Knows found → found.name = context.name → found = context) ∧
    ∀ context, pool.contexts.Knows context → context.place.readOnly = true →
      (pool.table.entry context.name).granted = [] ∧ pool.table.queueOf context.name = [] := by
  intro pool further
  have watched : pool.Watched config := ((Watched.opened config handles).after happenings).1
  obtain ⟨last, grows⟩ := watched.after later
  have place : ∀ {context : Context}, pool.contexts.Knows context →
      pool.contexts.place context.place.id = context.place :=
    fun known => congrArg Context.place known.2
  refine ⟨?_, ?_, ?_, ?_⟩
  · intro context known segment listed beneath
    exact watched.indexed.readOnly_of_root watched.contexts listed known beneath
  · intro upper lower upperKnown known readOnly beneath
    exact watched.indexed.readOnly_of_upper watched.contexts upperKnown known readOnly beneath
  · intro context known
    have kept := watched.contexts.knows_grown grows known
    exact ⟨kept, fun found foundKnown same =>
      last.indexed.context_eq last.contexts foundKnown kept same⟩
  · intro context known readOnly
    have free : ¬pool.table.Occupied context.name := by
      intro occupied
      obtain ⟨id, inside, named, writable⟩ := watched.writable context.name occupied
      have same := watched.indexed.eq_of_name_eq watched.contexts inside known.1
        (named.trans (congrArg Place.name (place known)).symm)
      rw [same] at writable
      have flag := congrArg Place.readOnly (place known)
      rw [readOnly] at flag
      exact Bool.false_ne_true (writable.symm.trans flag)
    rw [Table.Occupied, not_or, not_not, not_not] at free
    exact free

end Pool

end Granularity
