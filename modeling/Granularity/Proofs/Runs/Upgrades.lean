import Granularity.Proofs.Contexts.Upgrades
import Granularity.Proofs.Runs.Steady

/-!
Rights along a run.

As long as a transaction demands no release, its plans are made of upgrades, and none of its calls
takes a lock off without putting one that covers it at or above the place.  Neither do its requests
when they are granted from queues, in the turns of others.  So no right is lost in any stretch of a
run in which the transaction gives up nothing.
-/

namespace Granularity

/-- The transaction demands that a lock be given up, or all of them. -/
def Turn.givesUp (owner : TransactionId) : Turn → Bool
  | demand other demanded => other == owner && demanded.givesUp
  | lookUp _ | disableChildLocks _ | advance _ => false

/-- An upgrade never comes down to a release. -/
theorem Operation.ne_release_of_isUpgrade {operation : Operation}
    (upgrade : operation.isUpgrade = true) {store : Store} {owner : TransactionId}
    {remark : Option Remark} {call : Call}
    (decided : operation.decide store owner = .ok (.make remark call)) (name : ResourceName) :
    call ≠ .release name := by
  cases operation with
  | direct => cases upgrade
  | acquire context mode =>
      obtain ⟨_, _, _, _, move⟩ := Context.acquire_eq_ok.mp decided
      cases move
      simp
  | release => cases upgrade
  | promote context mode =>
      obtain ⟨_, _, _, _, _, _, move⟩ := Context.promote_eq_ok.mp decided
      rw [Context.promotion] at move
      split at move
      · cases move
        simp
      · cases move
        simp
  | escalate context =>
      obtain ⟨_, _, move⟩ := Context.escalate_eq_ok.mp decided
      split at move
      · cases move
        simp
      · cases move

namespace Interleaving

variable {state : Interleaving} {owner : TransactionId}

/-- What the transaction has under way gives up nothing. -/
structure Upgrades (state : Interleaving) (owner : TransactionId) : Prop where
  every : (state.rest owner).Every fun operation => operation.isUpgrade = true

/-- A transaction with nothing under way gives up nothing. -/
theorem upgrades_of_isDone (idle : (state.rest owner).isDone = true) : state.Upgrades owner := by
  constructor
  cases rest : state.rest owner with
  | done => exact trivial
  | fail | look | say | perform =>
      rw [rest] at idle
      cases idle

/-- From one state to a later one the transaction loses no right, and then it still has nothing
under way that gives up anything. -/
structure RetainedBy (owner : TransactionId) (before after : Interleaving) : Prop where
  rights : Modes.Retains (before.table.modeOf owner) (after.table.modeOf owner)
  upgrades : after.Upgrades owner

/-- A step of some transaction that changes the modes of nobody. -/
theorem Upgrades.goOn (upgrades : state.Upgrades owner) {other : TransactionId} {system : System}
    {plan : Plan}
    (rights : Modes.Retains (state.table.modeOf owner) (system.store.table.modeOf owner))
    (follows : owner = other → plan.Every fun operation => operation.isUpgrade = true) :
    RetainedBy owner state (state.goOn other system plan) := by
  refine ⟨rights, ⟨?_⟩⟩
  rw [Interleaving.goOn]
  dsimp only
  split
  · next same => exact follows same
  · exact upgrades.every

namespace Steady

variable (steady : state.Steady) (upgrades : state.Upgrades owner)
include steady upgrades

/-- An operation of any transaction is performed. -/
theorem retained_perform {other : TransactionId} {operation : Operation} {next : Plan}
    (idle : ¬state.table.Waiting other) (performs : state.rest other = .perform operation next)
    {outcome : Outcome} {after : System}
    (performed : state.system.Performed other operation outcome after.store) :
    RetainedBy owner state (state.goOn other after (next.following outcome)) := by
  have own : owner = other → operation.isUpgrade = true ∧
      next.Every fun operation => operation.isUpgrade = true := by
    rintro rfl
    have every := upgrades.every
    rw [performs] at every
    exact every
  refine upgrades.goOn ?_ fun same => (own same).2.following outcome
  cases performed with
  | refused _ same =>
      rw [same]
      exact .refl _
  | stayed _ _ same =>
      rw [same]
      exact .refl _
  | passed _ decided passed left =>
      rw [left]
      have plan := steady.plans other
      rw [performs] at plan
      rcases plan.perform with ⟨aligned, _⟩ | ⟨name, names, rfl, _, shed⟩
      · exact steady.orderly.retains_call steady.sound idle (aligned.fits steady.sound decided)
          passed fun same => Operation.ne_release_of_isUpgrade (own same).1 decided
      · cases decided
        refine steady.orderly.retains_call steady.sound idle (.release shed.bare) passed ?_
        intro same
        cases (own same).1

/-- The next step of any transaction. -/
theorem retained_advance (other : TransactionId) :
    RetainedBy owner state (state.advance other) := by
  have stays : RetainedBy owner state state := ⟨.refl _, upgrades⟩
  have own {plan : Plan} (rest : state.rest other = plan) (same : owner = other) :
      plan.Every fun operation => operation.isUpgrade = true := by
    rw [← rest, ← same]
    exact upgrades.every
  rw [Interleaving.advance]
  split
  · exact stays
  · next free =>
      have idle : ¬state.table.Waiting other := fun waits => free (Table.isWaiting_iff.mpr waits)
      split
      · exact stays
      · exact upgrades.goOn (.refl _) fun _ => trivial
      · next looked => exact upgrades.goOn (.refl _) fun same => own looked same _
      · next remark next said =>
          exact upgrades.goOn (.refl _) fun same => (own said same : (Plan.say remark next).Every _)
      · next operation next performs =>
          exact steady.retained_perform upgrades idle performs (state.system.performed other operation)

/-- A turn in which the transaction does not demand a release. -/
theorem retained_after {turn : Turn} (keeps : turn.givesUp owner = false) :
    RetainedBy owner state (state.after turn) := by
  have stays : RetainedBy owner state state := ⟨.refl _, upgrades⟩
  cases turn with
  | lookUp wanted =>
      rw [Interleaving.after]
      split
      · split
        · exact stays
        · exact ⟨.refl _, ⟨upgrades.every⟩⟩
      · exact stays
  | disableChildLocks context => exact ⟨.refl _, ⟨upgrades.every⟩⟩
  | demand other demanded =>
      rw [Interleaving.after]
      split
      · refine upgrades.goOn (.refl _) fun same => demanded.every_upgrade other ?_
        simpa [Turn.givesUp, same] using keeps
      · exact stays
  | advance other => exact steady.retained_advance upgrades other

/-- Any turns in which the transaction does not demand a release. -/
theorem retained_run {turns : List Turn} (keeps : ∀ turn ∈ turns, turn.givesUp owner = false) :
    RetainedBy owner state (state.run turns) := by
  induction turns generalizing state with
  | nil => exact ⟨.refl _, upgrades⟩
  | cons turn turns inductionHypothesis =>
      have first := steady.retained_after upgrades (keeps turn List.mem_cons_self)
      have later := inductionHypothesis (steady.after turn).steady first.upgrades
        fun other member => keeps other (List.mem_cons_of_mem turn member)
      exact ⟨first.rights.trans later.rights, later.upgrades⟩

end Steady

/-- Upgrading never loses a right.  Take any run, and then any stretch of further turns.  Let a
transaction have nothing under way at the start of the stretch that gives up a lock, and let it not
demand in the stretch that a lock be released, or all of them.  Then whatever name it could read at
the start, by a lock `S`, `SIX` or `X` on the name or above it, it can read at the end, and whatever
it could write by an `X` it can write. -/
theorem rights_retained_run (config : Config) (handles : Std.ExtTreeMap TransactionId Handle)
    (before stretch : List Turn) (owner : TransactionId)
    (underWay : ((opened config handles).run before).Upgrades owner)
    (keeps : ∀ turn ∈ stretch, turn.givesUp owner = false) :
    let first := (opened config handles).run before
    let last := first.run stretch
    ∀ name, (first.table.MayRead owner name → last.table.MayRead owner name) ∧
      (first.table.MayWrite owner name → last.table.MayWrite owner name) := by
  intro first last name
  have steady : first.Steady := (Steady.opened config handles).run before
  have lastSound : last.table.Sound := (steady.run stretch).sound
  obtain ⟨rights, _⟩ := steady.retained_run underWay keeps
  rw [steady.sound.mayRead_iff, steady.sound.mayWrite_iff, lastSound.mayRead_iff,
    lastSound.mayWrite_iff]
  exact ⟨rights.reads name, rights.writes name⟩

/-- Two transactions mean to write in a database, and the first of them reads a table. -/
def readerAndWriter : List Turn :=
  let root : Context := ⟨⟨0, ⟨"database", []⟩, false⟩, []⟩
  let child : Context := ⟨⟨1, ⟨"database", ["T1"]⟩, false⟩, [root.place]⟩
  [.lookUp (.named child.name), .demand 1 (.acquire root .IX), .advance 1,
    .demand 1 (.acquire child .S), .advance 1, .demand 2 (.acquire root .IX), .advance 2]

/-- The first wants to read the whole database, and waits until the second is done. -/
def lateSIX : List Turn :=
  let root : Context := ⟨⟨0, ⟨"database", []⟩, false⟩, []⟩
  [.demand 1 (.promote root .SIX), .advance 1, .demand 2 (.release root), .advance 2]

/-- The lock on the table is given up in a turn of the second, and the table can still be read. -/
theorem table_read_after_lateSIX :
    ((opened {} ∅).run readerAndWriter).table.modeOf 1 ⟨"database", ["T1"]⟩ = .S ∧
      (((opened {} ∅).run readerAndWriter).run lateSIX).table.modeOf 1 ⟨"database", ["T1"]⟩ = .NL ∧
      (((opened {} ∅).run readerAndWriter).run lateSIX).table.MayRead 1 ⟨"database", ["T1"]⟩ := by
  have underWay : ((opened {} ∅).run readerAndWriter).Upgrades 1 :=
    upgrades_of_isDone (by decide +kernel)
  have keeps : ∀ turn ∈ lateSIX, turn.givesUp 1 = false := by
    simp [lateSIX, Turn.givesUp, Demand.givesUp]
  have held : ((opened {} ∅).run readerAndWriter).table.modeOf 1 ⟨"database", ["T1"]⟩ = .S := by
    decide +kernel
  have given : (((opened {} ∅).run readerAndWriter).run lateSIX).table.modeOf 1
      ⟨"database", ["T1"]⟩ = .NL := by decide +kernel
  have sound := ((Steady.opened {} ∅).run readerAndWriter).sound
  have retained := rights_retained_run {} ∅ readerAndWriter lateSIX 1 underWay keeps
    ⟨"database", ["T1"]⟩
  have readable : Modes.HeldOver (((opened {} ∅).run readerAndWriter).table.modeOf 1)
      [.S, .SIX, .X] ⟨"database", ["T1"]⟩ := ⟨_, List.mem_cons_self, by rw [held]; decide⟩
  exact ⟨held, given, retained.1 (sound.mayRead_iff.mpr readable)⟩

end Interleaving

end Granularity
