import Granularity.Proofs.Contexts.Rights
import Granularity.Proofs.Contexts.Waiting

/-!
Upgrades keep all rights.

A checked request replaces a lock by a stronger one, or many locks of a subtree by one at its top.
Whatever it gives up is covered there: a promotion to `SIX` gives up locks that only read, and an
escalation takes `X` if anything beneath is written.  What has been checked of a request still holds
when the request is granted from a queue, so rights are lost by releases alone.
-/

namespace Granularity

namespace Modes

variable {modes before after : Modes} {kinds : List Mode}

/-- What is held over a name is held over all that is beneath. -/
theorem HeldOver.beneath {name upper : ResourceName} (held : modes.HeldOver kinds upper)
    (within : upper ∈ name :: name.ancestors) : modes.HeldOver kinds name := by
  obtain ⟨top, above, kind⟩ := held
  refine ⟨top, ?_, kind⟩
  rcases List.mem_cons.mp within with rfl | beneath
  · exact above
  · rw [List.mem_cons, ResourceName.mem_ancestors] at above ⊢
    rw [ResourceName.mem_ancestors] at beneath
    rcases above with rfl | higher
    · exact Or.inr beneath
    · exact Or.inr (ResourceName.isBeneath_trans beneath higher)

/-- No right is lost: whatever could be read can still be read, and whatever could be written can
still be written. -/
structure Retains (before after : Modes) : Prop where
  reads : ∀ name, before.HeldOver [.S, .SIX, .X] name → after.HeldOver [.S, .SIX, .X] name
  writes : ∀ name, before.HeldOver [.X] name → after.HeldOver [.X] name

namespace Retains

theorem refl (modes : Modes) : modes.Retains modes :=
  ⟨fun _ => id, fun _ => id⟩

theorem trans {later : Modes} (first : before.Retains after) (second : after.Retains later) :
    before.Retains later :=
  ⟨fun name held => second.reads name (first.reads name held),
    fun name held => second.writes name (first.writes name held)⟩

end Retains

end Modes

namespace Checked

variable {modes : Modes} {request : Request}

/-- Rights of some kind are kept by a request if its mode is of the kind wherever a lock of the kind
is replaced. -/
theorem heldOver_outcome (checked : Checked modes request) {kinds : List Mode}
    (covered : ∀ other, other = request.lock.name ∨ other ∈ request.released.map Lock.name →
      modes other ∈ kinds → request.lock.mode ∈ kinds)
    {name : ResourceName} (held : modes.HeldOver kinds name) :
    Modes.HeldOver (request.outcome modes) kinds name := by
  obtain ⟨upper, above, kind⟩ := held
  have own : request.lock.mode ∈ kinds →
      Modes.HeldOver (request.outcome modes) kinds request.lock.name := fun kind =>
    ⟨request.lock.name, List.mem_cons_self, by rwa [Request.outcome_own]⟩
  apply Modes.HeldOver.beneath _ above
  by_cases same : upper = request.lock.name
  · subst same
    exact own (covered _ (Or.inl rfl) kind)
  by_cases given : upper ∈ request.released.map Lock.name
  · have beneath := (checked.within given).resolve_left same
    refine (own (covered upper (Or.inr given) kind)).beneath ?_
    exact List.mem_cons_of_mem _ (ResourceName.mem_ancestors.mpr beneath)
  · exact ⟨upper, List.mem_cons_self, by rwa [Request.outcome_kept same given]⟩

/-- What replaces a mode that reads a subtree reads the subtree. -/
theorem reads_of_reads (checked : Checked modes request) {other : ResourceName}
    (replaced : other = request.lock.name ∨ other ∈ request.released.map Lock.name)
    (reads : modes other ∈ [.S, .SIX, .X]) : request.lock.mode ∈ [.S, .SIX, .X] := by
  cases checked with
  | acquire free =>
      obtain rfl := replaced.resolve_right (by simp)
      simp [free] at reads
  | promote _ _ covered =>
      obtain rfl := replaced.resolve_right (by simp)
      exact Mode.covers_S_iff.mp (Mode.covers_trans covered (Mode.covers_S_iff.mpr reads))
  | promoteToSIX => simp
  | escalate _ target =>
      rcases target with ⟨rfl, _⟩ | ⟨rfl, _⟩
      · simp
      · simp

/-- What replaces an `X` is an `X`. -/
theorem writes_of_writes (checked : Checked modes request) {other : ResourceName}
    (replaced : other = request.lock.name ∨ other ∈ request.released.map Lock.name)
    (writes : modes other = .X) : request.lock.mode = .X := by
  cases checked with
  | acquire free =>
      obtain rfl := replaced.resolve_right (by simp)
      cases free.symm.trans writes
  | promote _ _ covered =>
      obtain rfl := replaced.resolve_right (by simp)
      rw [writes, Mode.covers_X_iff] at covered
      exact covered
  | promoteToSIX _ _ covered _ given =>
      rcases replaced.elim Or.inl (given other).mp with rfl | ⟨_, reads⟩
      · rw [writes] at covered
        cases covered
      · rw [writes] at reads
        simp at reads
  | @escalate _ _ name _ _ intent target given =>
      have within : other = name ∨ other.isBeneath name = true :=
        replaced.elim Or.inl fun member => ((given other).mp member).imp_right And.left
      rcases target with ⟨rfl, _⟩ | ⟨rfl, reads⟩
      · rfl
      · exact absurd ⟨other, within, by rw [writes]; rfl⟩ reads

/-- Granting a checked request loses no right. -/
theorem retains (checked : Checked modes request) :
    modes.Retains (request.outcome modes) where
  reads _ held := checked.heldOver_outcome (fun _ => checked.reads_of_reads) held
  writes _ held := by
    refine checked.heldOver_outcome (fun other replaced writes => ?_) held
    rw [List.mem_singleton] at writes ⊢
    exact checked.writes_of_writes replaced writes

end Checked

namespace Table.Orderly

variable {table : Table} {owner : TransactionId}

/-- Nobody loses a right by being served, or while others are served. -/
theorem retains_served (orderly : table.Orderly) (sound : table.Sound) {final : Table}
    {served : List Request} (chain : Served table served final) (owner : TransactionId) :
    Modes.Retains (table.modeOf owner) (final.modeOf owner) := by
  induction chain with
  | nobody => exact .refl _
  | @front table final name request rest served queued room _ inductionHypothesis =>
      refine Modes.Retains.trans ?_
        (inductionHypothesis (orderly.next sound queued) (sound.apply_front queued room))
      rw [sound.modeOf_apply_front queued]
      split
      · next own =>
          subst own
          exact (orderly.checked name request (queued ▸ List.mem_cons_self)).retains
      · exact .refl _

/-- The own part of a call of a transaction that does not wait leaves the others their requests and
what has been checked of them. -/
theorem servesFrom (orderly : table.Orderly) (sound : table.Sound) (idle : ¬table.Waiting owner)
    {call : Call} {start : Table} {names : List ResourceName}
    (serves : table.ServesFrom owner call start names) : start.Orderly := by
  have queues := queueOf_servesFrom serves
  refine orderly.of_sublist (fun name => queues name ▸ .refl _) fun other waits => ?_
  refine sound.modeOf_servesFrom serves ?_
  rintro rfl
  exact idle ((waiting_congr queues other).mp waits)

/-- A call loses nobody a right, except that a release may lose some of the caller's. -/
theorem retains_call (orderly : table.Orderly) (sound : table.Sound) (idle : ¬table.Waiting owner)
    {call : Call} {done : Section} (fits : call.Fits table owner)
    (passed : table.call owner call = .ok done) {other : TransactionId}
    (kept : other = owner → ∀ name, call ≠ .release name) :
    Modes.Retains (table.modeOf other) (done.table.modeOf other) := by
  cases parked : done.parked with
  | true =>
      obtain ⟨request, side, _, left, _⟩ := enqueued_of_parked passed parked
      rw [left, modeOf_enqueue]
      exact .refl _
  | false =>
      obtain ⟨start, names, serves, left, _⟩ := servesFrom_of_not_parked passed parked
      have later := (orderly.servesFrom sound idle serves).retains_served
        (sound.servesFrom serves) (served_drain start names) other
      rw [left]
      refine Modes.Retains.trans ?_ later
      by_cases own : other = owner
      · subst own
        cases serves with
        | released called => exact absurd called (kept rfl _)
        | @granted request side poses =>
            rw [sound.modeOf_apply (poses.coherent sound), if_pos poses.owner_eq.symm]
            cases fits with
            | release => exact absurd rfl (kept rfl _)
            | pose _ checked => exact (checked request side poses).retains
      · rw [sound.modeOf_servesFrom serves own]
        exact .refl _

end Table.Orderly

end Granularity
