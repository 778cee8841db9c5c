import Logon.Runtime.Changes

-- Transactions that commit make the changes of `Call.Commits`.

namespace Logon

open Program PgExecutionStore

-- What is known about a transaction that began at a given time.
abbrev Premise.sem (P : Premise) (now : Time) : Semantics sql Db KernelError :=
  engine.loose (P.answer now)

variable {P : Premise} {now : Time} {db db' : Db}

theorem query_runs {o : Statement} {r : o.Reply} (h : (query o).Runs (P.sem now) db (.ok r) db') :
    o.Told now db r ∧ P now o db r ∧ db' = o.effect r db := by
  have ⟨⟨ht, hp⟩, hd⟩ := runs_perform_ok.mp h
  exact ⟨ht, hp, hd⟩

theorem query_bind_runs {o : Statement} {k : o.Reply → Tx α}
    (h : ((query o).bind k).Runs (P.sem now) db (.ok a) db') :
    ∃ r, o.Told now db r ∧ P now o db r ∧ (k r).Runs (P.sem now) (o.effect r db) (.ok a) db' := by
  have ⟨r, db₁, hq, hk⟩ := runs_bind_ok.mp h
  have ⟨ht, hp, hd⟩ := query_runs hq
  exact ⟨r, ht, hp, hd ▸ hk⟩

-- A transaction that throws anything but an error of the database was not ended by the server.
theorem query_bind_throws {o : Statement} {k : o.Reply → Tx α}
    (h : ((query o).bind k).Runs (P.sem now) db (.error e) db') (he : ¬e.isDatabase) :
    ∃ r, o.Told now db r ∧ P now o db r ∧ (k r).Runs (P.sem now) (o.effect r db) (.error e) db' := by
  cases h
  case inl h =>
    obtain ⟨r, _, ⟨⟨ht, hp⟩, rfl⟩, hk⟩ := h
    exact ⟨r, ht, hp, hk⟩
  case inr h =>
    obtain ⟨_, hf, hr, -⟩ := h
    cases hr
    exact absurd hf he

theorem newDate_runs (h : newDate.Runs (P.sem now) db (.ok t) db') :
    db' = db ∧ ∃ t', t = .iso t' ∧ P now .dateNow db t' := by
  have ⟨t', _, hp, ht, hd⟩ := query_bind_runs h
  cases ht
  exact ⟨hd, t', rfl, hp⟩

theorem lockCandidates_runs {lock : α → Tx Candidate} {told : α → Candidate → Prop}
    (hl : ∀ c r db', (lock c).Runs (P.sem now) db (.ok r) db' → db' = db ∧ told c r)
    (h : (lockCandidates lock n cs).Runs (P.sem now) db (.ok ls) db') : db' = db ∧ LockAll told n cs ls := by
  fun_induction lockCandidates lock n cs generalizing db' ls
  case case1 =>
    cases h.left
    exact ⟨h.right, .full⟩
  case case2 =>
    cases h.left
    exact ⟨h.right, .nil⟩
  case case3 n c cs ih₁ ih₂ =>
    have ⟨r, db₁, hc, hk⟩ := runs_bind_ok.mp h
    have ⟨hd, ht⟩ := hl c r db₁ hc
    subst hd
    split at hk
    case h_1 =>
      have ⟨ls, db₂, hs, hk⟩ := runs_bind_ok.mp hk
      have ⟨hd, hs⟩ := ih₁ hs
      cases hk.left
      exact ⟨hk.right.trans hd, .lock ht hs⟩
    case h_2 hr =>
      have ⟨hd, hs⟩ := ih₂ hk
      exact ⟨hd, .pass ht hr hs⟩

namespace PgExecutionStore

theorem ensureTenant_runs (h : (ensureTenant t).Runs (P.sem now) db (.ok u) db') : db' = db.withTenant t := by
  obtain ⟨r, ht, -, hk⟩ := query_bind_runs h
  cases r <;> simp only [Statement.Told] at ht <;> simp [Db.withTenant, ht, hk.right, Statement.effect]

theorem createApproval_runs {request : ApprovalRequest} (hc : request.createdAt = .iso c)
    (hx : request.expiresAt = some (.iso x)) (h : (createApproval request).Runs (P.sem now) db (.ok u) db') :
    (db.approvals.find request.approvalId).isSome ∧ P now (.insertApproval request) db none ∧ db' = db ∨
    db.approvals.find request.approvalId = none ∧ db' = db.addApproval request c (some x) := by
  obtain ⟨r, ht, hp, hk⟩ := query_bind_runs h
  cases r
  case none => exact .inl ⟨ht, hp, hk.right⟩
  case some r =>
    obtain ⟨t, t'⟩ := r
    obtain ⟨hn, ht, ht'⟩ := ht
    rw [hc, Timestamp.timestamptz_iso] at ht
    rw [hx, Option.mapM_some, Option.map_eq_map, Option.map_eq_some_iff] at ht'
    obtain ⟨-, rfl⟩ := ht
    obtain ⟨_, ht', rfl⟩ := ht'
    obtain ⟨-, rfl⟩ := Timestamp.timestamptz_iso.mp ht'
    exact .inr ⟨hn, hk.right⟩

theorem createDispatch_runs (h : (createDispatch e "logon.execution").Runs (P.sem now) db (.ok u) db') :
    (db.dispatches.find e).isSome ∧ db' = db ∨
    db.dispatches.find e = none ∧ db' = db.addDispatch e now := by
  obtain ⟨r, ht, -, hk⟩ := query_bind_runs h
  cases r
  case none => exact .inl ⟨ht, hk.right⟩
  case some =>
    obtain ⟨hn, rfl⟩ := ht
    exact .inr ⟨hn, hk.right⟩

theorem lockExecution_runs (h : (lockExecution e).Runs (P.sem now) db (.ok status) db') :
    db' = db ∧ ∃ row, db.executions.find e = some row ∧ row.status = status := by
  obtain ⟨r, ht, -, hk⟩ := query_bind_runs h
  cases r
  case none     => cases hk.left
  case some row =>
    cases hk.left
    exact ⟨hk.right, row, ht, rfl⟩

theorem appendEvent_runs (h : (appendEvent event).Runs (P.sem now) db (.ok ev) db') :
    ev = event ∧ ∃ t, event.timestamp.timestamptz = some t ∧
    db.events.find (event.executionId, event.sequence) = none ∧
    db' = { db with events := db.events.insert (.of event t) } := by
  obtain ⟨t, ⟨hn, ht⟩, -, hk⟩ := query_bind_runs h
  cases hk.left
  exact ⟨rfl, t, ht, hn, hk.right⟩

theorem appendAudit_runs (h : (appendAudit record).Runs (P.sem now) db (.ok u) db') :
    ∃ t, record.createdAt.timestamptz = some t ∧ db.audit.find record.auditId = none ∧ db' = db.addAudit record t := by
  obtain ⟨t, ⟨hn, ht⟩, -, hk⟩ := query_bind_runs h
  exact ⟨t, ht, hn, hk.right⟩

-- What the store finds before it decides an approval.
structure Found (decision : ApprovalDecision) (db : Db) (approval : ApprovalRow) (tenantId : String) : Prop where
  findApproval : db.approvals.find decision.approvalId = some approval
  bound        : approval.executionId = decision.executionId
  tenant       : approval.tenantId = tenantId
  execution    : ∃ execution, db.executions.find approval.executionId = some execution ∧ execution.tenantId = tenantId
  pending      : approval.status = .pending

theorem expired_runs (h : (decideApproval.expired row).Runs (P.sem now) db (.ok b) db') :
    db' = db ∧
    (b = false ∧ row.expiresAt = none ∨
      ∃ x t, row.expiresAt = some x ∧ P now .dateNow db t ∧ b = decide (x ≤ t)) := by
  unfold decideApproval.expired at h
  split at h
  case h_1 hx =>
    cases h.left
    exact ⟨h.right, .inl ⟨rfl, hx⟩⟩
  case h_2 x hx =>
    obtain ⟨t, -, hp, hk⟩ := query_bind_runs h
    cases hk.left
    exact ⟨hk.right, .inr ⟨x, t, hx, hp, rfl⟩⟩

theorem expired_throws (h : (decideApproval.expired row).Runs (P.sem now) db (.error e) db') :
    e.isDatabase := by
  unfold decideApproval.expired at h
  split at h
  case h_1 => cases h.left
  case h_2 =>
    by_contra he
    obtain ⟨_, -, -, hk⟩ := query_bind_throws h he
    cases hk.left

theorem decideApproval_runs (h : (decideApproval decision).Runs (P.sem now) db (.ok status) db') :
    status = decision.status ∧ ∃ approval tenantId, Found decision db approval tenantId ∧
    (∀ x ∈ approval.expiresAt, ∃ t, P now .dateNow db t ∧ t < x) ∧
    db' = db.setApproval decision.approvalId decision.status.toStatus decision.decidedBy
      (decision.decidedAt.timestamptz.getD now) := by
  obtain ⟨r, ht, -, hk⟩ := query_bind_runs h
  cases r
  case none => cases hk.left
  case some r =>
    obtain ⟨approval, tenantId⟩ := r
    dsimp only at hk
    split at hk
    case isTrue => cases hk.left
    case isFalse hb =>
      split at hk
      case isTrue => cases hk.left
      case isFalse hp =>
        obtain ⟨b, _, he, hd⟩ := runs_bind_ok.mp hk
        obtain ⟨rfl, hx⟩ := expired_runs he
        cases b
        case true =>
          obtain ⟨_, -, -, hd⟩ := query_bind_runs hd
          cases hd.left
        case false =>
          obtain ⟨t, hu, -, hd⟩ := query_bind_runs hd
          cases hd.left
          cases hu
          simp only [not_or, ne_eq, not_not] at hb hp
          refine ⟨rfl, approval, tenantId, ⟨ht.left, hb.left, hb.right, ht.right, hp⟩, ?_, hd.right⟩
          intro x hm
          obtain ⟨-, hn⟩ | ⟨x', t, hn, hp, hd⟩ := hx
          · cases hn ▸ hm
          · cases hn ▸ hm
            exact ⟨t, hp, by simpa using hd⟩

theorem decideApproval_throws (h : (decideApproval decision).Runs (P.sem now) db (.error (.approvalExpired a)) db') :
    ∃ approval tenantId, Found decision db approval tenantId ∧
    (∃ x t, approval.expiresAt = some x ∧ P now .dateNow db t ∧ x ≤ t) ∧
    db' = db.setApproval decision.approvalId .expired "logon.approval.expiry" now := by
  obtain ⟨r, ht, -, hk⟩ := query_bind_throws h nofun
  cases r
  case none => cases hk.left
  case some r =>
    obtain ⟨approval, tenantId⟩ := r
    dsimp only at hk
    split at hk
    case isTrue => cases hk.left
    case isFalse hb =>
      split at hk
      case isTrue => cases hk.left
      case isFalse hp =>
        obtain he | ⟨b, _, he, hd⟩ := runs_bind_error.mp hk
        · cases expired_throws he
        obtain ⟨rfl, hx⟩ := expired_runs he
        cases b
        case true =>
          obtain ⟨t, hu, -, hd⟩ := query_bind_throws hd nofun
          cases hu
          simp only [not_or, ne_eq, not_not] at hb hp
          refine ⟨approval, tenantId, ⟨ht.left, hb.left, hb.right, ht.right, hp⟩, ?_, hd.right⟩
          obtain ⟨hf, -⟩ | ⟨x, t, hn, hp, hd⟩ := hx
          · cases hf
          · exact ⟨x, t, hn, hp, by simpa using hd⟩
        case false =>
          obtain ⟨_, -, -, hd⟩ := query_bind_throws hd nofun
          cases hd.left

theorem latestEvent_runs (h : (latestEvent e).Runs (P.sem now) db (.ok (some event)) db') :
    db' = db ∧ ∃ ev, event = .of ev ∧ ev ∈ db.eventsOf e ∧ P now (.selectLatestEvent e) db (some ev) := by
  obtain ⟨r, ht, hp, hk⟩ := query_bind_runs h
  cases r
  case none => cases hk.left
  case some ev =>
    cases hk.left
    exact ⟨hk.right, ev, rfl, ht, hp⟩

end PgExecutionStore

theorem nextSequence_runs (h : (nextSequence e).Runs (P.sem now) db (.ok n) db') :
    n = db.maxSequence e + 1 ∧ db' = db := by
  obtain ⟨m, ht, -, hn, hd⟩ := query_bind_runs h
  cases hn
  cases ht
  exact ⟨rfl, hd⟩

theorem updateStatus_runs (h : (updateStatus e status).Runs (P.sem now) db (.ok u) db') :
    db' = { db with executions := db.executions.modify e (·.update status now) } := by
  obtain ⟨t, ht, -, hk⟩ := query_bind_runs h
  cases ht
  exact hk.right

theorem assertTransition_runs (h : (assertTransition src dst).Runs (P.sem now) db (.ok u) db') :
    src.canTransition dst ∧ db' = db := by
  unfold assertTransition at h
  split at h
  case isTrue hc => exact ⟨hc, h.right⟩
  case isFalse   => cases h.left

namespace PostgresExecutionService

theorem lookupTenant_runs (h : (lookupTenant e).Runs (P.sem now) db (.ok t) db') :
    db' = db ∧ ∃ row, db.executions.find e = some row ∧ row.tenantId = t := by
  obtain ⟨r, ht, -, hk⟩ := query_bind_runs h
  cases r
  case none => cases hk.left
  case some =>
    cases hk.left
    have ⟨row, hr, ht⟩ := Option.map_eq_some_iff.mp ht.symm
    exact ⟨hk.right, row, hr, ht⟩

-- The tenant of an execution outlives its status.
theorem tenant_update (hf : db.executions.find e = some row)
    (h : (db.executions.modify e (·.update status now)).find e = some row') : row'.tenantId = row.tenantId := by
  rw [Table.find_modify_self, hf] at h
  cases h
  rfl

theorem rejectExpiredExecution_runs
    (h : (rejectExpiredExecution e a "logon.approval.expiry").Runs (P.sem now) db (.ok u) db')
    (hf : db.executions.find e = some row) (hs : row.status = .approval) : Reject P now e a db db' := by
  obtain ⟨n, _, hn, h⟩ := runs_bind_ok.mp h
  obtain ⟨rfl, rfl⟩ := nextSequence_runs hn
  obtain ⟨_, _, ht, h⟩ := runs_bind_ok.mp h
  obtain ⟨rfl, t, rfl, -⟩ := newDate_runs ht
  obtain ⟨_, _, hu, h⟩ := runs_bind_ok.mp h
  obtain rfl := updateStatus_runs hu
  obtain ⟨_, _, he, h⟩ := runs_bind_ok.mp h
  obtain ⟨-, c, hc, hn, rfl⟩ := appendEvent_runs he
  obtain ⟨tenantId, _, ht, h⟩ := runs_bind_ok.mp h
  obtain ⟨rfl, row', hr, rfl⟩ := lookupTenant_runs ht
  obtain ⟨u, -, hu, h⟩ := query_bind_runs h
  obtain ⟨c', hc', hu', rfl⟩ := appendAudit_runs h
  exact .mk hf (.mk hf (by rw [hs]; rfl) rfl hn hc) (tenant_update hf hr ▸ .mk hu hc' hu')

theorem awaitOrDispatch_runs (h : (awaitOrDispatch request decision).Runs (P.sem now) db (.ok u) db') :
    AwaitOrDispatch P now request decision db db' := by
  unfold awaitOrDispatch at h
  split at h
  case isTrue hd =>
    have hs : decision.status = .approval := by simp [PolicyDecision.status, hd]
    obtain ⟨t, -, ht, h⟩ := query_bind_runs h
    obtain ⟨a, -, ha, h⟩ := query_bind_runs h
    obtain ⟨_, _, hd, h⟩ := runs_bind_ok.mp h
    obtain ⟨rfl, c, rfl, hc⟩ := newDate_runs hd
    obtain ⟨hn, hp, rfl⟩ | ⟨hn, rfl⟩ := createApproval_runs rfl rfl h
    · exact .collision hs ha hn hp
    · exact .approval hs ht ha hc hn
  split at h
  case isTrue hn ha =>
    have hs : decision.status = .intake := by simp_all [PolicyDecision.status]
    obtain ⟨hn, rfl⟩ | ⟨hn, rfl⟩ := createDispatch_runs h
    · exact .dispatched hs hn
    · exact .dispatch hs hn
  case isFalse hn ha =>
    have hs : decision.status = .rejected := by simp_all [PolicyDecision.status]
    exact h.right ▸ .rejected hs

theorem create_runs (h : (create request).Runs (P.sem now) db (.ok event) db') :
    Create P now request db event db' := by
  obtain ⟨_, _, hx, h⟩ := runs_bind_ok.mp h
  obtain ⟨c, ⟨hn, ht, hc⟩, -, -, rfl⟩ := query_bind_runs hx
  obtain ⟨_, _, hd, h⟩ := runs_bind_ok.mp h
  obtain ⟨rfl, t, rfl, -⟩ := newDate_runs hd
  obtain ⟨_, _, he, h⟩ := runs_bind_ok.mp h
  obtain ⟨rfl, t', ht', hn', rfl⟩ := appendEvent_runs he
  obtain ⟨hl, rfl⟩ := Timestamp.timestamptz_iso.mp ht'
  obtain ⟨_, _, ha, h⟩ := runs_bind_ok.mp h
  have ha := awaitOrDispatch_runs ha
  obtain ⟨u, -, hu, h⟩ := query_bind_runs h
  obtain ⟨_, _, hd, h⟩ := runs_bind_ok.mp h
  obtain ⟨rfl, t', rfl, -⟩ := newDate_runs hd
  obtain ⟨_, _, hr, h⟩ := runs_bind_ok.mp h
  obtain ⟨c', hc', hu', rfl⟩ := appendAudit_runs hr
  obtain ⟨rfl, rfl⟩ : event = _ ∧ db' = _ := by simpa using h
  exact .mk hl hn ht hc hn' ha (.mk hu hc' hu')

variable {requestHash : String}

theorem findReusable_runs (h : (findReusable t key requestHash).Runs (P.sem now) db (.ok r) db') :
    db' = db ∧
    (r = none ∧ db.idempotency.find (t, key) = none ∨
      ∃ row ev, r = some ⟨.of ev, true⟩ ∧ db.idempotency.find (t, key) = some row ∧ row.requestHash = requestHash ∧
        ev ∈ db.eventsOf row.executionId ∧ P now (.selectLatestEvent row.executionId) db (some ev)) := by
  obtain ⟨_, -, -, hk⟩ := query_bind_runs h
  obtain ⟨existing, he, -, h⟩ := query_bind_runs hk
  cases existing
  case none =>
    cases h.left
    exact ⟨h.right, .inl ⟨rfl, he.symm⟩⟩
  case some row =>
    dsimp only at h
    split at h
    case isTrue => cases h.left
    case isFalse hh =>
      obtain ⟨event, _, hl, h⟩ := runs_bind_ok.mp h
      cases event
      case none => cases h.left
      case some event =>
        obtain ⟨rfl, ev, rfl, hm, hp⟩ := latestEvent_runs hl
        cases h.left
        exact ⟨h.right, .inr ⟨row, ev, rfl, he.symm, not_not.mp hh, hm, hp⟩⟩

-- After the insertion, the record is found to be the inserted one.
theorem recordKey_runs (h : (recordKey request key requestHash).Runs (P.sem now) db (.ok r) db')
    (hn : db.idempotency.find (request.identity.tenantId, key) = none) :
    r = none ∧ db' = db.addIdempotency
      ⟨request.identity.tenantId, key, request.identity.executionId, requestHash, now⟩ := by
  obtain ⟨_, _, hp, h⟩ := runs_bind_ok.mp h
  obtain ⟨t, ht, -, hi⟩ := query_bind_runs hp
  cases t
  case none => simp [Statement.Told, hn] at ht
  case some t =>
    obtain ⟨-, rfl⟩ := ht
    cases hi.right
    obtain ⟨recorded, hr, -, hk⟩ := query_bind_runs h
    have hf : ((db.addIdempotency ⟨request.identity.tenantId, key, request.identity.executionId, requestHash, t⟩)
        ).idempotency.find (request.identity.tenantId, key) = some _ := Table.find_insert_new hn
    cases hr.trans hf
    simp only [ne_eq, not_true_eq_false, if_false] at hk
    cases hk.left
    exact ⟨rfl, hk.right⟩

theorem start_runs (h : (start request requestHash options).Runs (P.sem now) db (.ok result) db') :
    Start P now request requestHash options db result db' := by
  obtain ⟨_, _, he, h⟩ := runs_bind_ok.mp h
  obtain rfl := ensureTenant_runs he
  split at h
  case h_1 hk =>
    obtain ⟨event, _, hc, h⟩ := runs_bind_ok.mp h
    cases h.left
    exact h.right ▸ .unkeyed hk (create_runs hc)
  case h_2 key hk =>
    obtain ⟨reusable, _, hf, h⟩ := runs_bind_ok.mp h
    obtain ⟨rfl, ⟨rfl, hn⟩ | ⟨row, ev, rfl, hr, hh, hm, hp⟩⟩ := findReusable_runs hf
    case inl =>
      obtain ⟨event, _, hc, h⟩ := runs_bind_ok.mp h
      have hc := create_runs hc
      obtain ⟨recorded, _, hr, h⟩ := runs_bind_ok.mp h
      obtain ⟨rfl, rfl⟩ := recordKey_runs hr (by rw [hc.idempotency]; exact hn)
      cases h.left
      exact h.right ▸ .keyed hk hn hc
    case inr =>
      cases h.left
      exact h.right ▸ .reused hk hr hh hm hp

theorem move_runs (h : (move e status type actorId payload).Runs (P.sem now) db (.ok event) db')
    (hf : db.executions.find e = some row) (hc : row.status.canTransition status) :
    (∃ n t, event = ⟨e, n, type, status, .iso t, actorId, payload⟩) ∧ Advance now db event db' := by
  obtain ⟨_, _, hd, h₁⟩ := runs_bind_ok.mp h
  obtain ⟨rfl, t, rfl, -⟩ := newDate_runs hd
  obtain ⟨n, _, hn, h₂⟩ := runs_bind_ok.mp h₁
  obtain ⟨rfl, rfl⟩ := nextSequence_runs hn
  obtain ⟨_, _, hu, h₃⟩ := runs_bind_ok.mp h₂
  obtain rfl := updateStatus_runs hu
  obtain ⟨rfl, t', ht, hn', rfl⟩ := appendEvent_runs h₃
  exact ⟨⟨_, t, rfl⟩, .mk hf hc rfl hn' ht⟩

theorem transition_runs (h : (transition e status actorId payload).Runs (P.sem now) db (.ok event) db') :
    (∃ n t, event = ⟨e, n, "EXECUTION_" ++ status.text, status, .iso t, actorId, payload⟩) ∧
    Advance now db event db' := by
  obtain ⟨current, _, hl, h₁⟩ := runs_bind_ok.mp h
  obtain ⟨rfl, row, hr, rfl⟩ := lockExecution_runs hl
  obtain ⟨_, _, ha, h₂⟩ := runs_bind_ok.mp h₁
  obtain ⟨hc, rfl⟩ := assertTransition_runs ha
  exact move_runs h₂ hr hc

theorem fail_runs (h : (PostgresExecutionService.fail e actorId reason).Runs (P.sem now) db (.ok event) db') :
    (∃ n t, event = ⟨e, n, "EXECUTION_FAILED", .failed, .iso t, actorId, [("reason", .string reason)]⟩) ∧
    Advance now db event db' := by
  obtain ⟨current, _, hl, h⟩ := runs_bind_ok.mp h
  obtain ⟨rfl, row, hr, rfl⟩ := lockExecution_runs hl
  split at h
  case isTrue => cases h.left
  case isFalse hc => exact move_runs h hr (ExecutionStatus.canTransition_failed_iff.mpr hc)

theorem dispatchApproved_runs (h : (dispatchApproved e status).Runs (P.sem now) db (.ok u) db') :
    status = .rejected ∧ db' = db ∨
    status = .approved ∧ db.dispatches.find e = none ∧ db' = db.addDispatch e now ∨
    status = .approved ∧ (db.dispatches.find e).isSome ∧ db' = db := by
  unfold dispatchApproved at h
  cases status
  case approved =>
    obtain ⟨hn, rfl⟩ | ⟨hn, rfl⟩ := createDispatch_runs h
    · exact .inr <| .inr ⟨rfl, hn, rfl⟩
    · exact .inr <| .inl ⟨rfl, hn, rfl⟩
  case rejected => exact .inl ⟨rfl, h.right⟩

-- An execution that is found in two ways is the same.
theorem Found.opened {execution approval : _} (hf : PgExecutionStore.Found decision db approval tenantId)
    (he : db.executions.find decision.executionId = some execution) (hs : execution.status = .approval) :
    Open decision db execution approval where
  findExecution := he
  status        := hs
  findApproval  := hf.findApproval
  bound         := hf.bound
  tenant        := by
    have ⟨execution', he', ht⟩ := hf.execution
    rw [hf.bound, he] at he'
    cases he'
    exact hf.tenant.trans ht.symm
  pending       := hf.pending

theorem decideApproval_runs (h : (decideApproval decision).Runs (P.sem now) db (.ok outcome) db') :
    Decide P now decision db outcome db' := by
  obtain ⟨current, _, hl, h₁⟩ := runs_bind_ok.mp h
  obtain ⟨rfl, execution, he, rfl⟩ := lockExecution_runs hl
  split at h₁
  case isTrue => cases h₁.left
  case isFalse hs =>
    simp only [ne_eq, not_not] at hs
    obtain ⟨approvalStatus, db₁, ht, h₂⟩ := runs_bind_ok.mp h₁
    obtain ht | ⟨error, db₂, ht, hc⟩ := runs_tryCatch_ok ht
    case inl =>
      obtain ⟨status, db₂, hd, ht⟩ := runs_bind_ok.mp ht
      obtain ⟨rfl, approval, tenantId, hf, hx, hd⟩ := PgExecutionStore.decideApproval_runs hd
      obtain ⟨hs', hd'⟩ := ht
      cases hs'
      subst hd'
      have he' : db₁.executions.find decision.executionId = some execution := by rw [hd]; exact he
      have ho := Found.opened hf he hs
      obtain ⟨_, _, ha, h₃⟩ := runs_bind_ok.mp h₂
      obtain ⟨hc, rfl⟩ := assertTransition_runs ha
      obtain ⟨n, _, hn, h₄⟩ := runs_bind_ok.mp h₃
      obtain ⟨rfl, rfl⟩ := nextSequence_runs hn
      obtain ⟨_, _, hu, h₅⟩ := runs_bind_ok.mp h₄
      obtain rfl := updateStatus_runs hu
      obtain ⟨_, _, hv, h₆⟩ := runs_bind_ok.mp h₅
      obtain ⟨-, c, hc', hn', rfl⟩ := appendEvent_runs hv
      obtain ⟨_, _, hp, h₇⟩ := runs_bind_ok.mp h₆
      have hp := dispatchApproved_runs hp
      obtain ⟨tenantId, _, ht, h₈⟩ := runs_bind_ok.mp h₇
      obtain ⟨rfl, row, hr, rfl⟩ := lookupTenant_runs ht
      obtain ⟨u, -, hu', h₉⟩ := query_bind_runs h₈
      obtain ⟨_, _, hl', h₁₀⟩ := runs_bind_ok.mp h₉
      obtain ⟨c', hc'', hu'', rfl⟩ := appendAudit_runs hl'
      obtain ⟨hr', rfl⟩ := h₁₀
      cases hr'
      have ht : row.tenantId = execution.tenantId := by
        rcases hp with ⟨-, rfl⟩ | ⟨-, -, rfl⟩ | ⟨-, -, rfl⟩ <;> exact tenant_update he' hr
      exact .decided ho hx hd (.mk he' hc rfl hn' hc') hp (ht ▸ .mk hu' hc'' hu'')
    case inr =>
      split at hc
      case h_2 => cases hc.left
      case h_1 a =>
        obtain ht | ⟨_, _, -, ht⟩ := runs_bind_error.mp ht
        case inr => cases ht.left
        obtain ⟨approval, tenantId, hf, ⟨x, t, hx, hp, hle⟩, hd⟩ := PgExecutionStore.decideApproval_throws ht
        obtain ⟨_, _, hr, hc⟩ := runs_bind_ok.mp hc
        obtain ⟨ha, rfl⟩ := hc
        cases ha
        obtain ⟨ho, rfl⟩ := h₂
        cases ho
        subst hd
        have ho := Found.opened hf he hs
        exact .expired ho hx hp hle (rejectExpiredExecution_runs hr he hs)

theorem rejectClaims_runs (h : (rejectClaims claims m n).Runs (P.sem now) db (.ok r) db') :
    ∃ rejected skipped, r = (m + rejected, n + skipped) ∧ RejectAll P now db claims rejected skipped db' := by
  induction claims generalizing m n db
  case nil =>
    obtain ⟨hr, rfl⟩ := h
    cases hr
    exact ⟨0, 0, rfl, .nil⟩
  case cons claim claims ih =>
    obtain ⟨status, _, hl, h₁⟩ := runs_bind_ok.mp h
    obtain ⟨rfl, row, hr, rfl⟩ := lockExecution_runs hl
    split at h₁
    case isTrue hs =>
      obtain ⟨rejected, skipped, rfl, ha⟩ := ih h₁
      exact ⟨rejected, skipped + 1, by grind, .skip hr hs ha⟩
    case isFalse hs =>
      simp only [ne_eq, not_not] at hs
      obtain ⟨_, _, hj, h₂⟩ := runs_bind_ok.mp h₁
      obtain ⟨rejected, skipped, rfl, ha⟩ := ih h₂
      exact ⟨rejected + 1, skipped, by grind, .reject hr hs (rejectExpiredExecution_runs hj hr hs) ha⟩

end PostgresExecutionService

theorem expireApproval_runs (h : (query (.expireApproval a)).Runs (P.sem now) db (.ok row) db') :
    Expire P now a db row db' := by
  obtain ⟨ht, hp, rfl⟩ := query_runs h
  cases row
  case none => exact .none hp
  case some row =>
    obtain ⟨old, ho, rfl⟩ := ht
    exact .some ho hp

theorem claimDispatch_runs (h : (query (.claimDispatch e leaseMs)).Runs (P.sem now) db (.ok row) db') :
    ClaimOne P now leaseMs e db row db' := by
  obtain ⟨ht, hp, rfl⟩ := query_runs h
  cases row
  case none => exact .none hp
  case some row =>
    obtain ⟨old, ho, rfl⟩ := ht
    have he : Statement.effect (.claimDispatch e leaseMs) (some (old.claim now leaseMs)) db =
        db.claimDispatch e now leaseMs := by
      simp only [Statement.effect, Db.claimDispatch, Db.mk.injEq, true_and]
      exact Table.modify_congr _ _ ho rfl
    rw [he]
    exact .some ho hp

theorem lockExecution_query_runs
    (h : (query (.lockExecution e)).Runs (P.sem now) db (.ok r) db') :
    db' = db ∧ P now (.lockExecution e) db r := by
  obtain ⟨-, hp, hd⟩ := query_runs h
  exact ⟨hd, hp⟩

theorem lockDispatch_query_runs (h : (query (.lockDispatch e)).Runs (P.sem now) db (.ok r) db') :
    db' = db ∧ P now (.lockDispatch e) db r ∧
      (r = .locked → ∃ row, db.dispatches.find e = some row ∧ row.Claimable now) := by
  obtain ⟨ht, hp, hd⟩ := query_runs h
  cases r
  case locked  => exact ⟨hd, hp, fun _ => ht⟩
  case skipped => exact ⟨hd, hp, nofun⟩
  case dropped => exact ⟨hd, hp, nofun⟩

theorem claimExpiredApprovals_runs (h : (claimExpiredApprovals limit).Runs (P.sem now) db (.ok claims) db') :
    ∃ candidates locked ids rows, P now .scanApprovals db candidates ∧ (candidates.map Prod.fst).Nodup ∧
      LockAll (fun c r => P now (.lockExecution c.snd) db r) (clamp limit 1 100).toNat candidates locked ∧
      ids.Perm (locked.map Prod.fst) ∧ Program.Collects (Expire P now) ids db rows db' ∧ claims = rows.map .of := by
  obtain ⟨candidates, ht, hp, h₁⟩ := query_bind_runs h
  obtain ⟨locked, _, hk, h₂⟩ := runs_bind_ok.mp h₁
  obtain ⟨rfl, hl⟩ := lockCandidates_runs (fun _ _ _ => lockExecution_query_runs) hk
  obtain ⟨ids, hi, -, h₃⟩ := query_bind_runs h₂
  obtain ⟨rows, _, hx, h₄⟩ := runs_bind_ok.mp h₃
  obtain ⟨hr, rfl⟩ := h₄
  cases hr
  exact ⟨candidates, locked, ids, rows, hp, ht, hl, hi, (runs_collect_ok hx).mono fun _ _ _ _ => expireApproval_runs, rfl⟩

theorem expireApprovalsOnce_runs
    (h : (PostgresExecutionService.expireApprovalsOnce limit).Runs (P.sem now) db (.ok result) db') :
    Sweep P now limit db result db' := by
  obtain ⟨claims, db₁, hc, h₁⟩ := runs_bind_ok.mp h
  obtain ⟨candidates, locked, ids, rows, hp, ht, hl, hi, hx, rfl⟩ := claimExpiredApprovals_runs hc
  obtain ⟨⟨m, n⟩, _, hr, h₂⟩ := runs_bind_ok.mp h₁
  obtain ⟨rejected, skipped, he, ha⟩ := PostgresExecutionService.rejectClaims_runs hr
  obtain ⟨hr', rfl⟩ := h₂
  cases hr'
  simp only [Nat.zero_add, Prod.mk.injEq] at he
  obtain ⟨rfl, rfl⟩ := he
  rw [List.length_map]
  exact .mk hp ht hl hi hx ha

theorem claimDispatches_runs (h : (claimDispatches limit leaseMs).Runs (P.sem now) db (.ok claims) db') :
    Claim P now limit leaseMs db claims db' := by
  obtain ⟨candidates, ht, hp, h₁⟩ := query_bind_runs h
  obtain ⟨locked, _, hk, h₂⟩ := runs_bind_ok.mp h₁
  obtain ⟨rfl, hl⟩ := lockCandidates_runs (fun _ _ _ => lockDispatch_query_runs) hk
  obtain ⟨ids, hi, -, h₃⟩ := query_bind_runs h₂
  obtain ⟨rows, _, hx, h₄⟩ := runs_bind_ok.mp h₃
  obtain ⟨hr, rfl⟩ := h₄
  cases hr
  exact .mk hp ht hl hi ((runs_collect_ok hx).mono fun _ _ _ _ => claimDispatch_runs)

theorem markDispatchSucceeded_runs (h : (markDispatchSucceeded e).Runs (P.sem now) db (.ok u) db') :
    MarkSucceeded P now e db db' := by
  obtain ⟨r, ht, hp, hk⟩ := query_bind_runs h
  cases r
  case none => exact hk.right ▸ .none hp
  case some =>
    obtain ⟨hs, rfl⟩ := ht
    have ⟨row, hr⟩ := Option.isSome_iff_exists.mp hs
    exact hk.right ▸ .some hr

theorem markDispatchFailed_runs (h : (markDispatchFailed e error).Runs (P.sem now) db (.ok u) db') :
    MarkFailed P now e (slice error 2000) db db' := by
  obtain ⟨r, ht, hp, hk⟩ := query_bind_runs h
  cases r
  case false => exact hk.right ▸ .none hp
  case true =>
    have ⟨row, hr⟩ := Option.isSome_iff_exists.mp ht
    exact hk.right ▸ .some hr

theorem Call.commits (c : Call) {r : c.Result} (h : c.body.Runs (P.sem now) db (.ok r) db') :
    c.Commits P now db r db' := by
  cases c
  case start                 => exact PostgresExecutionService.start_runs h
  case decideApproval        => exact PostgresExecutionService.decideApproval_runs h
  case expireApprovalsOnce   => exact expireApprovalsOnce_runs h
  case transition            => exact PostgresExecutionService.transition_runs h
  case fail                  => exact PostgresExecutionService.fail_runs h
  case claimDispatches       => exact claimDispatches_runs h
  case markDispatchSucceeded => exact markDispatchSucceeded_runs h
  case markDispatchFailed    => exact markDispatchFailed_runs h

theorem Call.grows (c : Call) {res : Except KernelError c.Result} (h : c.body.Runs (P.sem now) db res db') :
    db.Grows db' := by
  refine h.preserves ?_ (.refl db)
  rintro o db₁ r db₂ ⟨-, rfl⟩ hg
  exact hg.trans <| Db.grows_effect o r db₁

end Logon
