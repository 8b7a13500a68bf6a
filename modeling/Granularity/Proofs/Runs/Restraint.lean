import Granularity.Proofs.Histories.Escalation
import Granularity.Proofs.Runs.Economy
import Granularity.Proofs.Runs.Lasting

/-!
Planning takes no more than it needs, in every run.

The journal reports the calls of all transactions, one after the other.  What it reports of one of
them while a call that ensures a mode is under way are the calls of its plan, whatever the others do
in the meantime; and of these the plan gives an account.
-/

namespace Granularity

/-- The calls of a transaction that the journal reports, in order. -/
def System.callsOf (system : System) (owner : TransactionId) : List Event :=
  (Notice.events system.journal).filter fun event => event.isCall && event.owner == owner

@[simp] theorem Call.owner_event (call : Call) (owner : TransactionId) :
    (call.event owner).owner = owner := by
  cases call <;> rfl

@[simp] theorem Call.isCall_event (call : Call) (owner : TransactionId) :
    (call.event owner).isCall = true := by
  cases call <;> rfl

namespace System

variable {system : System} {owner : TransactionId}

theorem callsOf_note_remarks (remarks : List Remark) (owner : TransactionId) :
    (system.note (remarks.map Notice.remark)).callsOf owner = system.callsOf owner := by
  rw [callsOf, events_note_remarks, callsOf]

/-- A call that passes its checks is reported, as a call of its owner alone. -/
theorem callsOf_carryOut {call : Call} {done : Section}
    (passed : system.store.table.call owner call = .ok done) (other : TransactionId) :
    (system.carryOut owner call).2.callsOf other =
      system.callsOf other ++ if other = owner then [call.event owner] else [] := by
  obtain ⟨later, events, silent⟩ := events_of_call passed
  have dropped : (later.filter fun event => event.isCall && event.owner == other) = [] := by
    rw [List.filter_eq_nil_iff]
    intro event member
    simp [silent event member]
  rw [callsOf, journal_carryOut passed, events_append, List.filter_append, events,
    List.filter_cons, dropped, callsOf]
  by_cases own : other = owner
  · simp [own]
  · simp [own, Ne.symm own]

/-- Where nobody has to wait, an operation that leads somewhere makes one call of its owner. -/
theorem callsOf_perform {operation : Operation} {modes after : Modes}
    (ready : system.store.Ready owner modes) (leads : operation.Leads owner modes after)
    (quiet : (system.perform owner operation).2.store.table.Quiet) :
    ∃ event, operation.Yields owner modes event
        ((system.perform owner operation).2.store.table.modeOf owner) ∧
      ∀ other, (system.perform owner operation).2.callsOf other =
        system.callsOf other ++ if other = owner then [event] else [] := by
  obtain ⟨remark, call, done, decided, passed, free, reached, left⟩ :=
    made_of_leads ready leads quiet
  rw [left]
  refine ⟨call.event owner, .made ready decided passed free, fun other => ?_⟩
  let noted := system.note (remark.toList.map Notice.remark)
  have passes : noted.store.table.call owner call = .ok done := passed
  rw [perform_of_make decided, callsOf_carryOut passes, callsOf_note_remarks]

end System

namespace Interleaving

variable {state : Interleaving} {owner : TransactionId} {reached : Modes → Prop}
  {goal : List Event → Modes → Prop}

/-- The next step of a plan makes no calls of others, and the calls that it makes are those of which
the plan gives an account. -/
theorem advance_of_accounts (ready : state.system.store.Ready owner (state.table.modeOf owner))
    (quiet : (state.advance owner).table.Quiet)
    (assured : (state.rest owner).Assured owner reached (state.table.modeOf owner))
    (accounts : (state.rest owner).Accounts owner goal (state.table.modeOf owner)) :
    ∃ made, (∀ other, (state.advance owner).system.callsOf other =
        state.system.callsOf other ++ if other = owner then made else []) ∧
      ((state.advance owner).rest owner).Accounts owner (fun later => goal (made ++ later))
        ((state.advance owner).table.modeOf owner) := by
  have idle := ready.quiet.not_waiting owner
  generalize planned : state.rest owner = plan at assured accounts
  have step := advance_of_idle idle plan planned
  have silent (system : System) (rest : Plan) (unchanged : system.store = state.system.store)
      (same : ∀ other, system.callsOf other = state.system.callsOf other)
      (accounts : rest.Accounts owner goal (state.table.modeOf owner)) :
      ∃ made, (∀ other, (state.goOn owner system rest).system.callsOf other =
          state.system.callsOf other ++ if other = owner then made else []) ∧
        ((state.goOn owner system rest).rest owner).Accounts owner
          (fun later => goal (made ++ later))
          ((state.goOn owner system rest).table.modeOf owner) := by
    have table : (state.goOn owner system rest).table = state.table :=
      congrArg Store.table unchanged
    refine ⟨[], fun other => ?_, ?_⟩
    · rw [ite_self, List.append_nil]
      exact same other
    · rw [rest_goOn, table]
      exact accounts
  cases plan with
  | done =>
      rw [step]
      refine ⟨[], fun other => by rw [ite_self, List.append_nil], ?_⟩
      rw [planned]
      exact accounts
  | fail => exact False.elim assured
  | look next =>
      rw [step]
      exact silent _ _ rfl (fun _ => rfl) (accounts state.system.store ready)
  | say remark next =>
      rw [step]
      exact silent _ _ rfl (System.callsOf_note_remarks [remark]) accounts
  | perform operation next =>
      obtain ⟨after, leads, assured⟩ := assured
      rw [step] at quiet ⊢
      obtain ⟨event, yields, calls⟩ := System.callsOf_perform ready leads quiet
      have passes := (System.perform_of_leads ready leads quiet).1
      refine ⟨[event], calls, ?_⟩
      rw [rest_goOn, Plan.following_of_not_refused passes]
      exact accounts event _ yields

/-- A turn that is not a step of the transaction makes no call of it. -/
theorem Planned.callsOf_after (planned : state.Planned) (quiet : state.table.Quiet) {turn : Turn}
    (quietAfter : (state.after turn).table.Quiet) (plans : turn.Plans)
    (apart : turn.isStepOf owner = false) :
    (state.after turn).system.callsOf owner = state.system.callsOf owner := by
  cases turn with
  | lookUp wanted =>
      obtain ⟨contexts, _, same⟩ := after_lookUp planned.steady wanted
      rw [same]
      rfl
  | disableChildLocks => exact False.elim plans
  | demand other demand =>
      rw [Interleaving.after]
      split
      · rfl
      · rfl
  | advance other =>
      have notOwn : owner ≠ other := by
        rintro rfl
        simp [Turn.isStepOf] at apart
      have assured := planned.assured other
      obtain ⟨made, calls, _⟩ := advance_of_accounts (planned.ready quiet other) quietAfter assured
        (Plan.accounts_of_forall fun _ _ => trivial)
      rw [show state.after (.advance other) = state.advance other from rfl, calls, if_neg notOwn,
        List.append_nil]

section

variable {turns : List Turn} (planned : state.Planned) (plans : ∀ turn ∈ turns, turn.Plans)
  (quiet : ∀ count, (state.run (turns.take count)).table.Quiet)
include planned plans quiet

/-- As long as a call that ensures a mode is under way, the calls made so far and those left are
economical together. -/
theorem accounts_run {start stop : Nat} {owner : TransactionId} {context : Context} {wanted : Mode}
    (demanded : turns[start]? = some (.demand owner (.ensure context wanted)))
    (idle : ((state.run (turns.take start)).rest owner).isDone = true)
    (known : (state.run (turns.take start)).contexts.Knows context) (later : start < stop)
    (underWay : ∀ between, start < between → between < stop →
      ((state.run (turns.take between)).rest owner).isDone = false) :
    let before := state.run (turns.take start)
    let now := state.run (turns.take stop)
    ∃ made, now.system.callsOf owner = before.system.callsOf owner ++ made ∧
      (now.rest owner).Accounts owner (fun later =>
          Economical owner context.name wanted (before.table.modeOf owner) (made ++ later))
        (now.table.modeOf owner) := by
  induction stop, later using Nat.le_induction with
  | base =>
      have plannable : wanted ∈ [.NL, .S, .X] := plans _ (List.mem_of_getElem? demanded)
      have wants : wanted = .NL ∨ wanted = .S ∨ wanted = .X := by simpa using plannable
      have aligned := (planned_run planned plans quiet start).steady.contexts.aligned known
      have tidy := tidy_of_isDone planned plans quiet idle
      rw [Nat.succ_eq_add_one, run_take_ensure demanded idle (quiet start) known]
      intro before now
      rw [rest_goOn, Context.ensure, if_pos wants]
      exact ⟨[], (List.append_nil _).symm, Planner.accounts_ensureAt plannable aligned tidy⟩
  | succ stop later inductionHypothesis =>
      obtain ⟨made, calls, accounts⟩ := inductionHypothesis fun between after before =>
        underWay between after (Nat.lt_succ_of_lt before)
      have busy := underWay stop later (Nat.lt_succ_self stop)
      have quietAfter := quiet (stop + 1)
      have now := planned_run planned plans quiet stop
      rw [run_take_succ] at quietAfter ⊢
      cases next : turns[stop]? with
      | none => exact ⟨made, calls, accounts⟩
      | some turn =>
          rw [next] at quietAfter
          have plansNext := plans turn (List.mem_of_getElem? next)
          cases step : turn.isStepOf owner with
          | false =>
              obtain ⟨rest, held⟩ :=
                now.unchanged (quiet stop) quietAfter plansNext (Or.inl busy) step
              have same := now.callsOf_after (quiet stop) quietAfter plansNext step
              refine ⟨made, same.trans calls, ?_⟩
              show Plan.Accounts owner _ (((state.run (turns.take stop)).after turn).rest owner) _
              rw [rest]
              show Plan.Accounts owner _ _
                (((state.run (turns.take stop)).after turn).table.modeOf owner)
              rw [held]
              exact accounts
          | true =>
              obtain rfl := Turn.eq_of_isStepOf step
              obtain ⟨more, added, accounts⟩ := advance_of_accounts (now.ready (quiet stop) owner)
                quietAfter (now.assured owner) accounts
              refine ⟨made ++ more, ?_, ?_⟩
              · have own := added owner
                rw [if_pos rfl, calls, List.append_assoc] at own
                exact own
              · simp only [List.append_assoc]
                exact accounts

end

/-- In a run in which transactions only ensure modes and give up everything, and nobody has to wait,
the calls made for a mode are economical; a call that is rejected makes none. -/
theorem economical_run {config : Config} {handles : Std.ExtTreeMap TransactionId Handle}
    (allowed : config.readOnlyRoots = []) {turns : List Turn}
    (ensures : ∀ turn ∈ turns, turn.Ensures)
    (quiet : ∀ count, ((opened config handles).run (turns.take count)).table.Quiet) :
    let state (count : Nat) := (opened config handles).run (turns.take count)
    ∀ {start stop : Nat} {owner : TransactionId} {context : Context} {wanted : Mode},
      turns[start]? = some (.demand owner (.ensure context wanted)) →
      ((state start).rest owner).isDone = true → (state start).contexts.Knows context →
      start < stop →
      (∀ between, start < between → between < stop →
        ((state between).rest owner).isDone = false) →
      ((state stop).rest owner).isDone = true →
      ∃ calls, (state stop).system.callsOf owner = (state start).system.callsOf owner ++ calls ∧
        Economical owner context.name wanted.plannable ((state start).table.modeOf owner) calls
          ((state stop).table.modeOf owner) := by
  intro state start stop owner context wanted demanded idle known later underWay returned
  let planning := turns.map Turn.plannable
  have alike (count : Nat) :
      (state count).GoesLike ((opened config handles).run (planning.take count)) :=
    goesLike_take ensures count
  have plans : ∀ turn ∈ planning, turn.Plans := Turn.plans_map_plannable ensures
  have quietToo (count : Nat) : ((opened config handles).run (planning.take count)).table.Quiet :=
    (alike count).table ▸ quiet count
  obtain ⟨calls, made, accounts⟩ := accounts_run (.opened config handles allowed) plans quietToo
    (Turn.getElem?_ensure demanded) ((alike start).isDone owner ▸ idle)
    ((alike start).contexts ▸ known) later
    fun between after before => (alike between).isDone owner ▸ underWay between after before
  rw [Plan.isDone_iff.mp (((alike stop).isDone owner).trans returned), (alike start).table,
    (alike stop).table] at accounts
  rw [(alike start).system, (alike stop).system] at made
  have economical : Economical owner context.name wanted.plannable
      ((state start).table.modeOf owner) (calls ++ []) ((state stop).table.modeOf owner) := accounts
  rw [List.append_nil] at economical
  exact ⟨calls, made, economical⟩

/-- Planning takes no more than it needs.  Take any run in which transactions only ensure modes and
give up everything, and nobody ever has to wait; and in it a call that ensures a mode at a context
and has returned.  The calls that it has made name the context and names above it, each beneath the
one before; only the context itself may be escalated first, which leaves `S` there and gives up
everything beneath, and promoted to `X` then.  What the transaction holds elsewhere than above the
context and beneath it stays.  If reading was wanted, the transaction may not write anywhere where it
could not do so before.  And a transaction that held no lock has acquired the intention for the
wanted mode on every name above, from the root down, and then the mode itself. -/
theorem ensure_economical_run (config : Config) (handles : Std.ExtTreeMap TransactionId Handle)
    (allowed : config.readOnlyRoots = []) (turns : List Turn)
    (ensures : ∀ turn ∈ turns, turn.Ensures)
    (quiet : ∀ count, ((opened config handles).run (turns.take count)).table.Quiet) :
    let state (count : Nat) := (opened config handles).run (turns.take count)
    ∀ start owner context wanted, turns[start]? = some (.demand owner (.ensure context wanted)) →
      ((state start).rest owner).isDone = true → (state start).contexts.Knows context →
      ∀ stop, start < stop →
        (∀ between, start < between → between < stop →
          ((state between).rest owner).isDone = false) →
        ((state stop).rest owner).isDone = true →
        ∃ calls, (state stop).system.callsOf owner = (state start).system.callsOf owner ++ calls ∧
          (∀ event ∈ calls,
            event.name = context.name ∨ context.name.isBeneath event.name = true) ∧
          (Event.Descending calls ∨ ∃ earlier released,
            calls = earlier ++ [.exchange owner context.name .S released,
              .promote owner context.name .X] ∧
            Event.Descending (earlier ++ [.exchange owner context.name .S released]) ∧
            ∀ other, other ∈ released ↔ other = context.name ∨
              other.isBeneath context.name = true ∧ (state start).table.modeOf owner other ≠ .NL) ∧
          (∀ other, other ≠ context.name → context.name.isBeneath other = false →
            other.isBeneath context.name = false →
            (state stop).table.modeOf owner other = (state start).table.modeOf owner other) ∧
          (wanted = .S → ∀ name, (state stop).table.MayWrite owner name →
            (state start).table.MayWrite owner name) ∧
          ((state start).table.locksOf owner = [] → wanted ∈ [.S, .X] →
            calls = context.name.ancestors.reverse.map (.acquire owner · wanted.intention) ++
              [.acquire owner context.name wanted]) := by
  intro state start owner context wanted demanded idle known stop later underWay returned
  have opening : (opened config handles).Planned := .opened config handles allowed
  have soundBefore : (state start).table.Sound := (opening.steady.run _).sound
  have soundAfter : (state stop).table.Sound := (opening.steady.run _).sound
  obtain ⟨calls, made, economical⟩ :=
    economical_run allowed ensures quiet demanded idle known later underWay returned
  refine ⟨calls, made, economical.along, economical.once.imp_right And.right, ?_, ?_, ?_⟩
  · intro other apart outside notBeneath
    exact economical.kept other apart outside fun beneath =>
      absurd (notBeneath.symm.trans beneath) Bool.false_ne_true
  · intro reads name
    rw [soundAfter.mayWrite_iff, soundBefore.mayWrite_iff]
    rintro ⟨upper, within, writes⟩
    have wants : wanted.plannable = .S := by
      rw [reads]
      rfl
    have held := economical.reads wants upper (List.mem_singleton.mp writes)
    exact ⟨upper, within, List.mem_singleton.mpr held⟩
  · intro nothing wants
    have same : wanted.plannable = wanted := Mode.plannable_of_mem (List.mem_cons_of_mem _ wants)
    rw [same] at economical
    refine economical.fresh (fun other => ?_) ?_
    · by_contra held
      rw [← ne_eq, soundBefore.modeOf_ne_NL_iff, nothing] at held
      cases held
    · rintro rfl
      simp at wants

/-- A transaction has `S` ensured at a page of the users, and then `X` at all the users. -/
def readingPageThenWriting : List Turn :=
  [.lookUp (.spelled "database/users/3"), .demand 1 (.ensure usersPage .S)] ++
    List.replicate 7 (.advance 1) ++ [.demand 1 (.ensure users .X)] ++
    List.replicate 7 (.advance 1)

/-- The first call takes the path to the page.  The second escalates the users before it promotes
them, and gives up just what was held there and beneath. -/
theorem users_escalated_for_writing :
    let state (count : Nat) := (opened {} ∅).run (readingPageThenWriting.take count)
    (state 9).system.callsOf 1 = [.acquire 1 ⟨"database", []⟩ .IS, .acquire 1 users.name .IS,
      .acquire 1 usersPage.name .S] ∧
    (state 17).system.callsOf 1 = (state 9).system.callsOf 1 ++
      [.promote 1 ⟨"database", []⟩ .IX, .exchange 1 users.name .S [users.name, usersPage.name],
        .promote 1 users.name .X] ∧
    ∀ other, other ∈ [users.name, usersPage.name] ↔ other = users.name ∨
      other.isBeneath users.name = true ∧ (state 9).table.modeOf 1 other ≠ .NL := by
  have ensures : ∀ turn ∈ readingPageThenWriting, turn.Ensures := by
    simp [readingPageThenWriting, Turn.Ensures]
  have quiet := @quiet_of_prefixes (opened {} ∅) readingPageThenWriting (by decide +kernel)
  have underWay : ∀ between < 17, 1 < between → between ≠ 9 →
      (((opened {} ∅).run (readingPageThenWriting.take between)).rest 1).isDone = false := by
    decide +kernel
  have economical := ensure_economical_run {} ∅ rfl readingPageThenWriting ensures quiet
  obtain ⟨calls, made, _, _, _, _, acquired⟩ := economical 1 1 usersPage .S rfl
    (by decide +kernel) (by decide +kernel) 9 (by decide)
    (fun between after before => underWay between (by omega) after (by omega)) (by decide +kernel)
  obtain ⟨laterCalls, laterMade, _, along, _⟩ := economical 9 1 users .X rfl
    (by decide +kernel) (by decide +kernel) 17 (by decide)
    (fun between after before => underWay between before (by omega) (by omega)) (by decide +kernel)
  have listed : laterCalls = [.promote 1 ⟨"database", []⟩ .IX] ++
      [.exchange 1 users.name .S [users.name, usersPage.name], .promote 1 users.name .X] :=
    List.append_cancel_left (laterMade.symm.trans (by decide +kernel))
  refine ⟨?_, ?_, ?_⟩
  · rw [made, acquired (by decide +kernel) (by decide)]
    decide +kernel
  · rw [laterMade, listed, List.singleton_append]
  · rcases along with descending | ⟨earlier, released, parted, _, givenUp⟩
    · -- the users are named twice, so these calls do not descend
      rw [listed, Event.Descending] at descending
      exact absurd descending (by decide)
    · obtain ⟨_, same⟩ := List.append_inj' (listed.symm.trans parted) rfl
      obtain rfl : [users.name, usersPage.name] = released := by
        simpa using same
      exact givenUp

end Interleaving

end Granularity
