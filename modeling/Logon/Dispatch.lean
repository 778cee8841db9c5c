import Logon.Pending

-- An execution is dispatched when it is allowed to run, and not before.

namespace Logon

open System

variable {P : Premise} {now : Time} {db db' : Db}

namespace Db

-- A human decision has allowed the execution.
def Allowed (db : Db) (e : String) : Prop :=
  ∃ row ∈ db.audit.rows, row.executionId = e ∧ row.action = "EXECUTION_APPROVAL_DECISION" ∧ row.allowed

theorem Allowed.congr (h : db'.audit = db.audit) : db'.Allowed e ↔ db.Allowed e := by
  rw [Allowed, Allowed, h]

end Db

theorem Audit.allowed_iff (h : Audit P now db e tenantId action actorId allowed reason db') :
    db'.Allowed e' ↔ db.Allowed e' ∨ e = e' ∧ action = "EXECUTION_APPROVAL_DECISION" ∧ allowed := by
  cases h
  case mk u createdAt c hu hn hc =>
    have hr : (db.addAudit ⟨u, e, tenantId, action, actorId, allowed, reason, createdAt⟩ c).audit.rows =
        db.audit.rows ++ _ := Table.rows_insert_new hc
    simp only [Db.Allowed, hr, List.mem_append, List.mem_singleton]
    constructor
    case mp =>
      rintro ⟨row, hm | rfl, h⟩
      · exact .inl ⟨row, hm, h⟩
      · exact .inr h
    case mpr =>
      rintro (⟨row, hm, h⟩ | h)
      · exact ⟨row, .inl hm, h⟩
      · exact ⟨_, .inr rfl, h⟩

theorem Reject.allowed_iff (h : Reject P now e a db db') : db'.Allowed e' ↔ db.Allowed e' := by
  cases h
  case mk hv hu =>
    rw [hu.allowed_iff]
    cases hv
    simp [Db.Allowed]

theorem Reject.dispatches (h : Reject P now e a db db') : db'.dispatches = db.dispatches := by
  cases h
  case mk hv hu =>
    cases hv
    cases hu
    rfl

theorem Expire.audit (h : Expire P now a db row db') : db'.audit = db.audit := by
  cases h <;> rfl

theorem Expire.dispatches (h : Expire P now a db row db') : db'.dispatches = db.dispatches := by
  cases h <;> rfl

theorem ClaimOne.audit (h : ClaimOne P now leaseMs e db row db') : db'.audit = db.audit := by
  cases h <;> rfl

theorem ClaimOne.isSome_find (h : ClaimOne P now leaseMs e' db row db') :
    (db'.dispatches.find e).isSome = (db.dispatches.find e).isSome := by
  cases h
  case none => rfl
  case some => exact Table.isSome_find_modify _ _ _ _ (by simp)

-- Nobody waits any more for what is dispatched, and everything else does.
structure Held (db : Db) : Prop where
  ledger     : db.Ledger
  dispatched : ∀ e, (db.dispatches.find e).isSome ↔ (db.statuses e).head? = some .intake ∨ db.Allowed e
  executed   : ∀ e, db.Allowed e → .execution ∈ db.statuses e

theorem Held.empty : Held Db.empty where
  ledger     := .empty
  dispatched := by simp [Db.Allowed, Db.statuses, Db.eventsOf, Db.empty, Table.empty, Table.find]
  executed   := by simp [Db.Allowed, Db.empty, Table.empty]

-- What keeps executions held that are not `new`ly allowed, if it starts none.
theorem Held.step {kind : String → ExecutionStatus → Prop} {new : String → Prop} (h : Held db) (hg : db'.Ledger)
    (hs : ∀ e, db.Appends db' e (kind e)) (hk : ∀ e, kind e .intake → db.statuses e ≠ [])
    (hd : ∀ e, (db'.dispatches.find e).isSome ↔ (db.dispatches.find e).isSome ∨ new e)
    (ha : ∀ e, db'.Allowed e ↔ db.Allowed e ∨ new e) (hx : ∀ e, new e → .execution ∈ db'.statuses e) :
    Held db' where
  ledger       := hg
  dispatched e := by rw [hd, ha, h.dispatched, (hs e).head_iff (hk e), or_assoc]
  executed e   := fun hn => ((ha e).mp hn).elim (fun hn => (hs e).mem <| h.executed e hn) (hx e)

theorem Held.congr (h : Held db) (hg : db'.Ledger) (he : db'.events = db.events)
    (hd : ∀ e, (db'.dispatches.find e).isSome = (db.dispatches.find e).isSome) (ha : db'.audit = db.audit) :
    Held db' := by
  have hs e : db.Appends db' e fun _ => False := .congr he
  have ha e : db'.Allowed e ↔ db.Allowed e ∨ False := by rw [Db.Allowed.congr ha, or_false]
  exact h.step hg hs nofun (by simp [hd]) ha nofun

theorem Held.advance (h : Held db) (hg : db'.Ledger) (hv : Advance now db event db') : Held db' := by
  have hk e (hk : e = event.executionId ∧ .intake = event.status) : db.statuses e ≠ [] := by
    have ⟨_, ha, _⟩ := h.ledger.accounts_advance hv
    exact hk.left ▸ ha.lifecycle.ne_nil
  have hd : db'.dispatches = db.dispatches := by cases hv; rfl
  have ha : db'.audit = db.audit := by cases hv; rfl
  have ha e : db'.Allowed e ↔ db.Allowed e ∨ False := by rw [Db.Allowed.congr ha, or_false]
  exact h.step hg (fun _ => hv.appends) hk (by simp [hd]) ha nofun

theorem Held.decide {decision : ApprovalDecision} (h : Held db) (hg : db'.Ledger)
    (hd : Decide P now decision db outcome db') : Held db' := by
  have hs e : db.Appends db' e _ := hd.appends
  have hk e (hk : e = decision.executionId ∧ (ExecutionStatus.intake = .rejected ∨
      .intake = PostgresExecutionService.nextStatus decision.status)) : db.statuses e ≠ [] := by
    obtain ⟨-, hk | hk⟩ := hk
    · cases hk
    · exact absurd hk.symm <| PostgresExecutionService.nextStatus_ne_intake _
  cases hd
  case expired hr =>
    have ha e : db'.Allowed e ↔ db.Allowed e ∨ False := by
      rw [hr.allowed_iff, or_false]
      exact .rfl
    exact h.step hg hs hk (by simp [hr.dispatches]) ha nofun
  case decided execution row n db₁ db₂ db₃ _ _ hd hv hb hu =>
    subst hd
    have hv' : db₂.dispatches = db.dispatches ∧ db₂.audit = db.audit := by
      cases hv
      exact ⟨rfl, rfl⟩
    have hb' : db₃.events = db₂.events ∧ db₃.audit = db₂.audit := by
      obtain ⟨-, rfl⟩ | ⟨-, -, rfl⟩ | ⟨-, -, rfl⟩ := hb <;> exact ⟨rfl, rfl⟩
    have hu' : db'.events = db₃.events ∧ db'.dispatches = db₃.dispatches := by
      cases hu
      exact ⟨rfl, rfl⟩
    have hd e : (db'.dispatches.find e).isSome ↔
        (db.dispatches.find e).isSome ∨ decision.executionId = e ∧ decision.status = .approved := by
      rw [hu'.right, ← hv'.left]
      obtain ⟨hs, rfl⟩ | ⟨hs, -, rfl⟩ | ⟨hs, hf, rfl⟩ := hb
      · simp [hs]
      · simp only [hs, and_true, Db.addDispatch_dispatches, Table.isSome_find_insert, DispatchRow.of_executionId]
        exact or_comm.trans <| or_congr_right eq_comm
      · simp only [hs, and_true]
        exact ⟨.inl, fun h => h.elim id fun he => he ▸ hf⟩
    have ha e : db'.Allowed e ↔ db.Allowed e ∨ decision.executionId = e ∧ decision.status = .approved := by
      rw [hu.allowed_iff, Db.Allowed.congr (hb'.right.trans hv'.right)]
      simp
    refine h.step hg hs hk hd ha ?_
    rintro e ⟨rfl, hs⟩
    have hm : db'.statuses decision.executionId = db₂.statuses decision.executionId := by
      rw [Db.statuses, Db.eventsOf, hu'.left, hb'.left]
      rfl
    have hv := hv.statuses
    simp only [decisionEvent, hs, PostgresExecutionService.nextStatus] at hv
    simp [hm, hv]

theorem Held.sweep (h : Held db) (hg : db'.Ledger) (hs : Sweep P now limit db result db') : Held db' := by
  cases hs
  case mk hx hr =>
    have hev := hx.unchanged Db.events fun _ _ _ _ => Expire.events
    have hau := hx.unchanged Db.audit fun _ _ _ _ => Expire.audit
    have hdi := hx.unchanged Db.dispatches fun _ _ _ _ => Expire.dispatches
    have ha e : db'.Allowed e ↔ db.Allowed e ∨ False := by
      rw [hr.unchanged (·.Allowed e) fun hr => propext hr.allowed_iff, Db.Allowed.congr hau, or_false]
    have hd : db'.dispatches = db.dispatches := (hr.unchanged Db.dispatches Reject.dispatches).trans hdi
    exact h.step hg (fun _ => .trans (.congr hev) hr.appends) (fun _ hk => nomatch hk.right) (by simp [hd]) ha nofun

-- Only an execution that is taken in is dispatched at once.
theorem AwaitOrDispatch.dispatches {request : ExecutionRequest} {decision : PolicyDecision} (h : AwaitOrDispatch P now request decision db db') :
    (db'.dispatches.find e).isSome ↔
    (db.dispatches.find e).isSome ∨ e = request.identity.executionId ∧ decision.status = .intake := by
  cases h
  case approval hs _ _ _ _ => simp [hs]
  case collision hs _ _ _  => simp [hs]
  case rejected hs         => simp [hs]
  case dispatch hs _       =>
    simp only [hs, and_true, Db.addDispatch_dispatches, Table.isSome_find_insert, DispatchRow.of_executionId]
    exact or_comm
  case dispatched hs hf    =>
    simp only [hs, and_true]
    exact ⟨.inl, fun h => h.elim id fun he => he ▸ hf⟩

theorem Held.create {request : ExecutionRequest} (h : Held db) (hg : db'.Ledger)
    (hc : Create P now request db event db') : Held db' := by
  have hn : db.eventsOf request.identity.executionId = [] := by
    cases hc
    case mk hf _ _ _ _ _ => exact h.ledger.orphans hf
  have hn' : db.statuses request.identity.executionId = [] := by rw [Db.statuses, hn]; rfl
  have he := hc.statuses hn
  have hs e (hne : e ≠ request.identity.executionId) : db'.statuses e = db.statuses e :=
    hc.appends.same fun _ hk => hne hk.left
  have ha e : db'.Allowed e ↔ db.Allowed e := by
    cases hc
    case mk ha hu =>
      rw [hu.allowed_iff, Db.Allowed.congr ha.audit]
      simp [Db.Allowed]
  have hd e : (db'.dispatches.find e).isSome ↔ (db.dispatches.find e).isSome ∨
      e = request.identity.executionId ∧ (evaluateExecutionPolicy request).status = .intake := by
    cases hc
    case mk had hu =>
      cases hu
      exact had.dispatches
  constructor
  case ledger => exact hg
  case dispatched =>
    intro e
    rw [hd, ha, h.dispatched]
    by_cases hr : e = request.identity.executionId
    case pos => simp [hr, he, hn', or_comm]
    case neg => simp [hr, hs e hr]
  case executed =>
    intro e hal
    have hm := h.executed e <| (ha e).mp hal
    by_cases hr : e = request.identity.executionId
    case pos => simp [hr, hn'] at hm
    case neg => exact hs e hr ▸ hm

theorem Call.Commits.held {c : Call} {r : c.Result} (hc : c.Commits P now db r db') (h : Held db) : Held db' := by
  have hg := hc.ledger h.ledger
  cases c
  case start request requestHash options =>
    have hw : Held (db.withTenant request.identity.tenantId) :=
      h.congr (h.ledger.change (.tenant : Change P now _ _)) rfl (fun _ => rfl) rfl
    cases hc
    case unkeyed hc => exact hw.create hg hc
    case reused     => exact hw
    case keyed hc   => exact (hw.create (hc.changes.preserves Db.Ledger.change hw.ledger) hc).congr hg rfl (fun _ => rfl) rfl
  case decideApproval        => exact h.decide hg hc
  case expireApprovalsOnce   => exact h.sweep hg hc
  case transition            => exact h.advance hg hc.right
  case fail                  => exact h.advance hg hc.right
  case claimDispatches       =>
    cases hc
    case mk hx =>
      refine h.congr hg (hx.unchanged Db.events fun _ _ _ _ => ClaimOne.events) (fun e => ?_)
        (hx.unchanged Db.audit fun _ _ _ _ => ClaimOne.audit)
      exact hx.unchanged (fun db => (db.dispatches.find e).isSome) fun _ _ _ _ => ClaimOne.isSome_find
  case markDispatchSucceeded => cases hc <;> exact h.congr hg rfl (fun e => by simp [Table.isSome_find_modify]) rfl
  case markDispatchFailed    => cases hc <;> exact h.congr hg rfl (fun e => by simp [Table.isSome_find_modify]) rfl

variable {G : Guard} {s : platform.State}

theorem Reachable.held (h : Reachable G s) : Held s.db := by
  have ⟨_, hs⟩ := h.atomic G.meets_none
  exact AtomicSteps.db_invariant hs .empty fun _ _ _ _ _ hc _ => hc.held

-- Dispatch is held until it is allowed, and never forgotten. Whoever neither began in `INTAKE` nor ever
-- came to `EXECUTION` was rejected by policy, still waits, was rejected by a human, or has expired.
theorem dispatched_iff_allowed (h : Reachable G s) :
    ((s.db.dispatches.find e).isSome ↔ (s.db.statuses e).head? = some .intake ∨ s.db.Allowed e) ∧
    ((s.db.statuses e).head? ≠ some .intake → .execution ∉ s.db.statuses e → s.db.dispatches.find e = none) ∧
    (s.db.Allowed e → (s.db.dispatches.rows.filter (·.executionId = e)).length = 1) ∧
    ∀ s', Steps G s s' → (s.db.dispatches.find e).isSome → (s'.db.dispatches.find e).isSome := by
  have hh := h.held
  refine ⟨hh.dispatched e, ?none, ?one, ?keeps⟩
  case none =>
    intro hb hx
    rw [← Option.not_isSome_iff_eq_none, hh.dispatched]
    exact fun h => h.elim hb fun ha => hx <| hh.executed e ha
  case one =>
    intro ha
    have ⟨row, hf⟩ := Option.isSome_iff_exists.mp <| (hh.dispatched e).mpr <| .inr ha
    rw [Table.filter_key, hf]
    rfl
  case keeps => exact fun s' hs => (AtomicSteps.grows <| h.atomicSteps hs G.meets_none).dispatches.isSome

open Sample in
theorem dispatched_iff_allowed_gated : (reach unchecked gated).db.dispatches.find "e" = none :=
  have hr : Reachable Guard.any (reach unchecked gated) := reach_reachable fun _ _ _ _ => trivial
  (dispatched_iff_allowed hr).right.left (by decide) (by decide +kernel)

end Logon
