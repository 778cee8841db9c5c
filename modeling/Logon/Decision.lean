import Mathlib.Data.Finset.Preimage
import Mathlib.Data.Fintype.EquivFin
import Logon.Runtime.Evaluation

-- A decision about an approval succeeds as a whole or changes nothing, unless the approval has expired.

namespace Logon

open System Program PgExecutionStore PostgresExecutionService

-- Ids that are generated are not in use yet.
structure Fresh (db : Db) (amb : Ambient) : Prop where
  audit     : db.audit.find amb.uuid = none
  approvals : db.approvals.find amb.uuid = none

-- What processes generate at a given time. Ids can be stored.
structure Generated (t : Time) (db : Db) (amb : Ambient) : Prop extends Fresh db amb where
  dateNow : amb.dateNow = t
  uuid    : Storable amb.uuid

-- What they generate for the audit: ids that can be stored, and are not in use yet, and times that PostgreSQL reads.
structure FreshAudit (db : Db) (amb : Ambient) : Prop where
  dateNow : Timestamp.Legible amb.dateNow
  uuid    : Storable amb.uuid
  audit   : db.audit.find amb.uuid = none

theorem Generated.fresh (h : Generated t db amb) (hl : Timestamp.Legible t) : FreshAudit db amb :=
  ⟨h.dateNow.symm ▸ hl, h.uuid, h.audit⟩

-- PostgreSQL can store a decision.
structure ApprovalDecision.Storable (decision : ApprovalDecision) : Prop where
  decidedBy : Logon.Storable decision.decidedBy
  decidedAt : decision.decidedAt.timestamptz.isSome
  reason    : ∀ reason ∈ decision.reason, Logon.Storable reason

-- The event that `rejectExpiredExecution` appends.
def expiryEvent (e a : String) (n : Nat) (t : Time) : ExecutionEvent where
  executionId := e
  sequence    := n
  type        := "EXECUTION_REJECTED"
  status      := .rejected
  timestamp   := .iso t
  actorId     := "logon.approval.expiry"
  payload     := [
    ("approvalId", .string a),
    ("approvalStatus", .string "EXPIRED"),
    ("reason", .string "Approval expired")
  ]

namespace Db

-- The database after the rest of a decision, which follows that about the approval.
def applied (db : Db) (decision : ApprovalDecision) (tenantId auditId : String) (now c : Time) : Db :=
  let db₁ := db.advance (decisionEvent decision (db.maxSequence decision.executionId + 1)) now c
  let db₂ := if decision.status = .approved then db₁.addDispatch decision.executionId now else db₁
  db₂.addAudit {
    auditId     := auditId
    executionId := decision.executionId
    tenantId    := tenantId
    action      := "EXECUTION_APPROVAL_DECISION"
    actorId     := decision.decidedBy
    allowed     := decision.status = .approved
    reason      := decision.reason.getD ("Approval " ++ decision.status.lowerText)
    createdAt   := decision.decidedAt
  } c

-- The database after a decision.
def decided (db : Db) (decision : ApprovalDecision) (tenantId auditId : String) (now c : Time) : Db :=
  (db.setApproval decision.approvalId decision.status.toStatus decision.decidedBy c).applied
    decision tenantId auditId now c

-- The database after an execution is rejected whose approval has expired.
def rejectExpired (db : Db) (e a tenantId auditId : String) (now t : Time) : Db :=
  (db.advance (expiryEvent e a (db.maxSequence e + 1) t) now t).addAudit {
    auditId     := auditId
    executionId := e
    tenantId    := tenantId
    action      := "EXECUTION_APPROVAL_EXPIRED"
    actorId     := "logon.approval.expiry"
    allowed     := false
    reason      := "Approval expired"
    createdAt   := .iso t
  } t

-- The database after a decision that came too late.
def expired (db : Db) (decision : ApprovalDecision) (tenantId auditId : String) (now t : Time) : Db :=
  (db.setApproval decision.approvalId .expired "logon.approval.expiry" now).rejectExpired
    decision.executionId decision.approvalId tenantId auditId now t

-- The approval waits for the decision, and has not expired.
def Awaits (db : Db) (decision : ApprovalDecision) (t : Time) : Prop :=
  ∃ execution approval, Open decision db execution approval ∧ ∀ x ∈ approval.expiresAt, t < x

-- The approval has expired, which is all that keeps it from being decided.
def Missed (db : Db) (decision : ApprovalDecision) (t : Time) : Prop :=
  ∃ execution approval, Open decision db execution approval ∧ ∃ x ∈ approval.expiresAt, x ≤ t

end Db

variable {now t : Time} {db db' : Db} {decision : ApprovalDecision}

-- The two ways in which an approval can be open.
theorem Open.awaits_or_missed (ho : Open decision db execution approval) (t : Time) :
    db.Awaits decision t ∨ db.Missed decision t := by
  by_cases hx : ∃ x ∈ approval.expiresAt, x ≤ t
  case pos => exact .inr ⟨execution, approval, ho, hx⟩
  case neg =>
    refine .inl ⟨execution, approval, ho, fun x hm => ?_⟩
    by_contra hn
    exact hx ⟨x, hm, Int.not_lt.mp hn⟩

theorem Open.owns (ho : Open decision db execution approval) : db.Owns execution.tenantId decision.executionId :=
  ⟨execution, ho.findExecution, rfl⟩

theorem Open.storable (ho : Open decision db execution approval) (hk : db.Constraints) : Storable decision.approvalId :=
  Table.key_of_find ho.findApproval ▸ hk.approvalIds approval (Table.mem_of_find ho.findApproval)

namespace PgExecutionStore

theorem expired_alone (h : (decideApproval.expired row).Runs (engine.alone (Generated t) now) db res db') :
    ∃ b, res = .ok b ∧ (b = true ↔ ∃ x ∈ row.expiresAt, x ≤ t) ∧ db = db' := by
  unfold decideApproval.expired at h
  split at h
  case h_1 hx => exact ⟨false, h.left, by simp [hx], h.right.symm⟩
  case h_2 x hx =>
    obtain ⟨_, _, ⟨rfl, hd⟩, h⟩ := Runs.after h fun h =>
      @query_alone (Generated t) now db _ .dateNow (· = t) _ h fun amb ha => ⟨amb.dateNow, rfl, ha.dateNow⟩
    exact ⟨_, h.left, by simp [hx], (h.right.trans hd).symm⟩

-- What the store reads about an open approval.
theorem Open.selected (ho : Open decision db execution approval) (amb : Ambient) :
    Statement.reply (.selectApprovalForUpdate decision.approvalId) now amb db =
    .ok (some (approval, execution.tenantId)) := by
  simp [Statement.reply, ho.findApproval, ho.bound, ho.findExecution]

-- After its checks, the store looks at the expiry of an open approval.
theorem decideApproval_open {res : Except KernelError ApprovalDecisionStatus}
    (h : (decideApproval decision).Runs (engine.alone (Generated t) now) db res db')
    (ho : Open decision db execution approval) :
    (db.Awaits decision t →
      (do let _ ← query <|
            .updateApproval decision.approvalId decision.status.toStatus decision.decidedBy decision.decidedAt
          return decision.status : Tx ApprovalDecisionStatus).Runs (engine.alone (Generated t) now) db res db') ∧
    (db.Missed decision t → res = .error (.approvalExpired decision.approvalId) ∧
      db' = db.setApproval decision.approvalId .expired "logon.approval.expiry" now) := by
  obtain ⟨_, _, ⟨rfl, rfl⟩, h⟩ := Runs.after h fun h => query_reads h (Open.selected ho) rfl
  dsimp only at h
  rw [if_neg (by simp [ho.bound, ho.tenant]), if_neg (by simp [ho.pending])] at h
  obtain ⟨b, _, ⟨hb, rfl⟩, h⟩ := Runs.after h expired_alone
  have unique {execution' approval'} (ho' : Open decision db execution' approval') : approval' = approval :=
    Option.some.inj <| ho'.findApproval.symm.trans ho.findApproval
  constructor
  case left =>
    intro ⟨_, _, ho', hx⟩
    cases unique ho'
    cases b
    case false => exact h
    case true  =>
      have ⟨x, hm, hn⟩ := hb.mp rfl
      exact absurd (hx x hm) (Int.not_lt.mpr hn)
  case right =>
    intro ⟨_, _, ho', hx⟩
    cases unique ho'
    cases hb.mpr hx
    obtain ⟨_, _, ⟨rfl, rfl⟩, h⟩ := Runs.after h fun h => query_replies h fun _ => rfl
    exact h

theorem decideApproval_awaited (h : (decideApproval decision).Runs (engine.alone (Generated t) now) db res db')
    (ho : Open decision db execution approval) (hw : db.Awaits decision t) (hs : Storable decision.decidedBy)
    (hc : decision.decidedAt.timestamptz = some c) :
    ∃ s, res = .ok s ∧ s = decision.status ∧
      db' = db.setApproval decision.approvalId decision.status.toStatus decision.decidedBy c := by
  have h := (decideApproval_open h ho).left hw
  have hr (amb : Ambient) : Statement.reply (.updateApproval decision.approvalId decision.status.toStatus
      decision.decidedBy decision.decidedAt) now amb db = .ok c := by
    simp only [Statement.reply, Statement.bind_ok, Statement.castTime_ok, Statement.checkTexts_ok]
    exact ⟨(), by simpa using hs, hc⟩
  obtain ⟨_, _, ⟨rfl, rfl⟩, h⟩ := Runs.after h fun h => query_replies h hr
  exact ⟨_, h.left, rfl, h.right⟩

-- PostgreSQL does not accept the time of the decision, or who has made it.
theorem decideApproval_malformed (h : (decideApproval decision).Runs (engine.alone (Generated t) now) db res db')
    (ho : Open decision db execution approval) (hw : db.Awaits decision t)
    (hn : ¬(Storable decision.decidedBy ∧ decision.decidedAt.timestamptz.isSome)) :
    ∃ e, res = .error e ∧ e.isDatabase := by
  refine Runs.fails (Q := fun e _ => e.isDatabase) ((decideApproval_open h ho).left hw) fun h => ?_
  obtain ⟨r, _, ⟨⟨amb, _, hr⟩, -, -⟩, -⟩ | ⟨e, ⟨amb, _, hr⟩, he, -⟩ := h
  case inl =>
    have hr : Statement.reply (.updateApproval decision.approvalId decision.status.toStatus
      decision.decidedBy decision.decidedAt) now amb db = .ok r := hr
    simp only [Statement.reply, Statement.bind_ok, Statement.castTime_ok, Statement.checkTexts_ok] at hr
    obtain ⟨_, hs, hc⟩ := hr
    exact absurd ⟨hs _ (.head _), by simp [hc]⟩ hn
  case inr =>
    have hr : Statement.reply (.updateApproval decision.approvalId decision.status.toStatus
      decision.decidedBy decision.decidedAt) now amb db = .error e := hr
    exact ⟨e, he, Statement.reply_error hr⟩

end PgExecutionStore

namespace PostgresExecutionService

theorem storable_expiryEvent (hs : Storable a) : (expiryEvent e a n t).Storable := by
  refine ⟨(by decide : Storable "EXECUTION_REJECTED"), (by decide : Storable "logon.approval.expiry"), ?_⟩
  simp only [expiryEvent, Payload.storable_cons, hs, Payload.storable_nil]
  decide

theorem rejectExpiredExecution_fresh {allow : Db → Ambient → Prop} (ha : ∀ db amb, allow db amb → FreshAudit db amb)
    (h : (rejectExpiredExecution e a "logon.approval.expiry").Runs (engine.alone allow now) db res db')
    (hs : Storable a) (ho : db.Owns tenantId e) (hm : tenantId ∈ db.tenants) :
    ∃ u, res = .ok u ∧ ∃ u amb, allow db amb ∧ db.audit.find u = none ∧
      db' = db.rejectExpired e a tenantId u now amb.dateNow := by
  obtain ⟨n, _, ⟨rfl, rfl⟩, h⟩ := Runs.after h nextSequence_alone
  obtain ⟨_, _, ⟨⟨amb, hamb, rfl⟩, rfl⟩, h⟩ := Runs.after h newDate_alone
  have hc : (Timestamp.iso amb.dateNow).timestamptz = some amb.dateNow :=
    Timestamp.timestamptz_iso.mpr ⟨(ha _ _ hamb).dateNow, rfl⟩
  obtain ⟨_, _, rfl, h⟩ := Runs.after h updateStatus_alone
  obtain ⟨_, _, ⟨rfl, rfl⟩, h⟩ := Runs.after h fun h =>
    appendEvent_alone h (storable_expiryEvent hs) hc (db.find_nextSequence e) (ho.mono (db.grows_updateExecution ..)).hasExecution
  have ho := ho.mono (db.grows_advance (expiryEvent e a (db.maxSequence e + 1) amb.dateNow) now amb.dateNow)
  obtain ⟨_, _, ⟨rfl, rfl⟩, h⟩ := Runs.after h fun h => lookupTenant_alone h ho
  obtain ⟨_, _, ⟨⟨amb', hamb', rfl⟩, rfl⟩, h⟩ := Runs.after h randomUUID_alone
  have hu := ha _ _ hamb'
  have ht : ∀ text ∈ [amb'.uuid, "EXECUTION_APPROVAL_EXPIRED", "logon.approval.expiry", "Approval expired"], Storable text := by
    simp only [List.forall_mem_cons, hu.uuid]
    decide
  obtain ⟨_, rfl, rfl⟩ := appendAudit_alone h ht hc hu.audit hm ho.hasExecution
  exact ⟨_, rfl, _, amb, hamb, hu.audit, rfl⟩

theorem rejectExpiredExecution_alone (hl : Timestamp.Legible t)
    (h : (rejectExpiredExecution e a "logon.approval.expiry").Runs (engine.alone (Generated t) now) db res db')
    (hs : Storable a) (ho : db.Owns tenantId e) (hm : tenantId ∈ db.tenants) :
    ∃ u, res = .ok u ∧ ∃ u, db.audit.find u = none ∧ db' = db.rejectExpired e a tenantId u now t := by
  obtain ⟨u, hr, u', amb, hg, hu, hd⟩ := rejectExpiredExecution_fresh (fun _ _ ha => ha.fresh hl) h hs ho hm
  exact ⟨u, hr, u', hu, hg.dateNow ▸ hd⟩

-- The clock shows a time that PostgreSQL does not read.
theorem rejectExpiredExecution_fails (hl : ¬Timestamp.Legible t)
    (h : (rejectExpiredExecution e a "logon.approval.expiry").Runs (engine.alone (Generated t) now) db res db') :
    ∃ e, res = .error e ∧ e.isDatabase := by
  obtain ⟨n, _, ⟨rfl, rfl⟩, h⟩ := Runs.after h nextSequence_alone
  obtain ⟨_, _, ⟨⟨amb, hamb, rfl⟩, rfl⟩, h⟩ := Runs.after h newDate_alone
  obtain ⟨_, _, rfl, h⟩ := Runs.after h updateStatus_alone
  refine Runs.fails (Q := fun e _ => e.isDatabase) h fun h => appendEvent_fails h fun ⟨_, hc⟩ => ?_
  obtain ⟨_, hc⟩ := Option.isSome_iff_exists.mp hc
  exact hl (hamb.dateNow ▸ (Timestamp.timestamptz_iso.mp hc).left)

theorem dispatchApproved_alone (h : (dispatchApproved e status).Runs (engine.alone (Generated t) now) db res db')
    (hx : db.HasExecution e) :
    ∃ u, res = .ok u ∧ db' = if status = .approved then db.addDispatch e now else db := by
  unfold dispatchApproved at h
  split at h
  case isTrue hs  => rw [if_pos hs]; exact createDispatch_alone h hx
  case isFalse hs => rw [if_neg hs]; exact ⟨_, h⟩

theorem storable_reason {decision : ApprovalDecision} (h : ∀ reason ∈ decision.reason, Storable reason) :
    Storable (decision.reason.getD ("Approval " ++ decision.status.lowerText)) := by
  cases hr : decision.reason
  case none   => cases decision.status <;> decide
  case some r => exact h r hr

theorem storable_decisionEvent {decision : ApprovalDecision} (ha : Storable decision.approvalId) :
    (decisionEvent decision n).Storable ↔ Storable decision.decidedBy ∧ ∀ reason ∈ decision.reason, Storable reason := by
  have hs : Storable decision.status.toStatus.text := by cases decision.status <;> decide
  have hn : Storable "approvalId" ∧ Storable "approvalStatus" ∧ Storable "reason" := by decide
  simp only [ExecutionEvent.Storable, decisionEvent, storable_type, Payload.storable_cons, ha, hs, hn, Payload.storable_nil,
    true_and, and_true]
  refine and_congr_right fun _ => ⟨fun h r hr => ?_, storable_reason⟩
  rwa [Option.mem_def.mp hr] at h

theorem applyDecision_alone
    (h : (applyDecision decision decision.status .approval).Runs (engine.alone (Generated t) now) db res db')
    (hs : decision.Storable) (ha : Storable decision.approvalId) (hc : decision.decidedAt.timestamptz = some c)
    (ho : db.Owns tenantId decision.executionId) (hm : tenantId ∈ db.tenants) :
    ∃ outcome, res = .ok outcome ∧ outcome = ⟨some decision, none⟩ ∧ ∃ u, db.audit.find u = none ∧
      db' = db.applied decision tenantId u now c := by
  obtain ⟨_, _, rfl, h⟩ := Runs.after h fun h => assertTransition_alone h (by cases decision.status <;> rfl)
  obtain ⟨n, _, ⟨rfl, rfl⟩, h⟩ := Runs.after h nextSequence_alone
  obtain ⟨_, _, rfl, h⟩ := Runs.after h updateStatus_alone
  obtain ⟨_, _, ⟨rfl, rfl⟩, h⟩ := Runs.after h fun h =>
    appendEvent_alone h ((storable_decisionEvent ha).mpr ⟨hs.decidedBy, hs.reason⟩) hc
      (db.find_nextSequence decision.executionId) (ho.mono (db.grows_updateExecution ..)).hasExecution
  have ho := ho.mono (db.grows_advance (decisionEvent decision (db.maxSequence decision.executionId + 1)) now c)
  obtain ⟨_, db₁, hd, h⟩ := Runs.after h fun h => dispatchApproved_alone h ho.hasExecution
  have ho₁ : db₁.Owns tenantId decision.executionId := ho.congr (by rw [hd]; split <;> rfl)
  have hm₁ : tenantId ∈ db₁.tenants := by rw [hd]; split <;> exact hm
  have ha₁ : db₁.audit = db.audit := by rw [hd]; split <;> rfl
  obtain ⟨_, _, ⟨rfl, rfl⟩, h⟩ := Runs.after h fun h => lookupTenant_alone h ho₁
  obtain ⟨u, _, ⟨⟨amb, hg, rfl⟩, rfl⟩, h⟩ := Runs.after h randomUUID_alone
  obtain ⟨_, _, rfl, h⟩ := Runs.after h fun h => by
    refine appendAudit_alone h ?_ hc hg.audit hm₁ ho₁.hasExecution
    have ht : Storable "EXECUTION_APPROVAL_DECISION" := by decide
    simp [hg.uuid, ht, hs.decidedBy, storable_reason hs.reason]
  exact ⟨_, h.left, rfl, amb.uuid, ha₁ ▸ hg.audit, h.right.trans (by rw [hd]; rfl)⟩

-- PostgreSQL does not accept the reason of the decision.
theorem applyDecision_fails
    (h : (applyDecision decision decision.status .approval).Runs (engine.alone (Generated t) now) db res db')
    (ha : Storable decision.approvalId) (hn : ¬∀ reason ∈ decision.reason, Storable reason) :
    ∃ e, res = .error e ∧ e.isDatabase := by
  obtain ⟨_, _, rfl, h⟩ := Runs.after h fun h => assertTransition_alone h (by cases decision.status <;> rfl)
  obtain ⟨n, _, ⟨rfl, rfl⟩, h⟩ := Runs.after h nextSequence_alone
  obtain ⟨_, _, rfl, h⟩ := Runs.after h updateStatus_alone
  refine Runs.fails (Q := fun e _ => e.isDatabase) h fun h => appendEvent_fails h fun hs => hn ?_
  exact ((storable_decisionEvent ha).mp hs.left).right

theorem decideApproval_awaited
    (h : (decideApproval decision).Runs (engine.alone (Generated t) now) db res db')
    (ho : Open decision db execution approval) (hk : db.Constraints) (hw : db.Awaits decision t) (hs : decision.Storable)
    (hc : decision.decidedAt.timestamptz = some c) :
    ∃ outcome, res = .ok outcome ∧ outcome = ⟨some decision, none⟩ ∧ ∃ u, db.audit.find u = none ∧
      db' = db.decided decision execution.tenantId u now c := by
  obtain ⟨_, _, ⟨rfl, rfl⟩, h⟩ := Runs.after h fun h => lockExecution_alone h ho.findExecution
  rw [if_neg (not_not.mpr ho.status), ho.status] at h
  have store {res db₁} (h : (some <$> PgExecutionStore.decideApproval decision).Runs (engine.alone (Generated t) now) db res db₁) :
      ∃ r, res = .ok r ∧ r = some decision.status ∧
        db₁ = db.setApproval decision.approvalId decision.status.toStatus decision.decidedBy c := by
    obtain ⟨_, _, ⟨rfl, rfl⟩, h⟩ := Runs.after h fun h => PgExecutionStore.decideApproval_awaited h ho hw hs.decidedBy hc
    exact ⟨_, h.left, rfl, h.right⟩
  obtain ⟨_, _, ⟨rfl, rfl⟩, h⟩ := Runs.after h fun h => h.tryCatch_returns store
  exact applyDecision_alone h hs (ho.storable hk) hc (ho.owns.congr rfl) (hk.foreignKeys.tenant ho.findExecution)

-- An approval that is open, but PostgreSQL cannot store the decision.
theorem decideApproval_malformed
    (h : (decideApproval decision).Runs (engine.alone (Generated t) now) db res db')
    (ho : Open decision db execution approval) (hk : db.Constraints) (hw : db.Awaits decision t) (hn : ¬decision.Storable) :
    ∃ e, res = .error e ∧ e.isDatabase := by
  obtain ⟨_, _, ⟨rfl, rfl⟩, h⟩ := Runs.after h fun h => lockExecution_alone h ho.findExecution
  rw [if_neg (not_not.mpr ho.status), ho.status] at h
  by_cases hs : Storable decision.decidedBy ∧ decision.decidedAt.timestamptz.isSome
  case neg =>
    refine Runs.fails (Q := fun e _ => e.isDatabase) h fun h => ?_
    obtain ⟨e, _, hd, h⟩ | ⟨_, he, _, _, _, _, _, hf⟩ := h.tryCatch_throws fun h =>
      Runs.fails (Q := fun e _ => e.isDatabase) h fun h => PgExecutionStore.decideApproval_malformed h ho hw hs
    · split at h
      · cases hd
      · exact ⟨_, h.left, hd⟩
    · exact ⟨_, he, Statement.reply_error hf⟩
  case pos =>
    obtain ⟨c, hc⟩ := Option.isSome_iff_exists.mp hs.right
    have store {res db₁} (h : (some <$> PgExecutionStore.decideApproval decision).Runs (engine.alone (Generated t) now) db res db₁) :
        ∃ r, res = .ok r ∧ r = some decision.status ∧ True := by
      obtain ⟨_, _, ⟨rfl, rfl⟩, h⟩ := Runs.after h fun h => PgExecutionStore.decideApproval_awaited h ho hw hs.left hc
      exact ⟨_, h.left, rfl, trivial⟩
    obtain ⟨_, _, ⟨rfl, _⟩, h⟩ := Runs.after h fun h => h.tryCatch_returns store
    exact applyDecision_fails h (ho.storable hk) fun hr => hn ⟨hs.left, hs.right, hr⟩

-- The store marks an approval that has expired.
theorem mark_missed {res : Except KernelError (Option ApprovalDecisionStatus)}
    (h : (some <$> PgExecutionStore.decideApproval decision).Runs (engine.alone (Generated t) now) db res db')
    (ho : Open decision db execution approval) (hm : db.Missed decision t) :
    ∃ e, res = .error e ∧ e = .approvalExpired decision.approvalId ∧
      db' = db.setApproval decision.approvalId .expired "logon.approval.expiry" now := by
  cases res
  case ok =>
    have ⟨_, _, hok, _⟩ := runs_bind_ok.mp h
    cases ((PgExecutionStore.decideApproval_open hok ho).right hm).left
  case error =>
    obtain he | ⟨_, _, hok, _⟩ := runs_bind_error.mp h
    · have ⟨he, hd⟩ := (PgExecutionStore.decideApproval_open he ho).right hm
      cases he
      exact ⟨_, rfl, rfl, hd⟩
    · cases ((PgExecutionStore.decideApproval_open hok ho).right hm).left

theorem decideApproval_missed (hl : Timestamp.Legible t)
    (h : (decideApproval decision).Runs (engine.alone (Generated t) now) db res db')
    (ho : Open decision db execution approval) (hk : db.Constraints) (hm : db.Missed decision t) :
    ∃ outcome, res = .ok outcome ∧ outcome = ⟨none, some (.approvalExpired decision.approvalId)⟩ ∧
      ∃ u, db.audit.find u = none ∧ db' = db.expired decision execution.tenantId u now t := by
  obtain ⟨_, _, ⟨rfl, rfl⟩, h⟩ := Runs.after h fun h => lockExecution_alone h ho.findExecution
  rw [if_neg (not_not.mpr ho.status)] at h
  obtain ⟨_, _, ⟨rfl, hu⟩, h⟩ := Runs.after h (Q := fun r db₁ => r = none ∧ ∃ u, db.audit.find u = none ∧
    db₁ = db.expired decision execution.tenantId u now t) fun h => by
      obtain ⟨_, _, ⟨rfl, rfl⟩, h⟩ | ⟨_, rfl, ⟨rfl, _⟩, _, _, _, _, he⟩ := h.tryCatch_throws fun h => mark_missed h ho hm
      · obtain ⟨_, _, hu, h⟩ := Runs.after h fun h =>
          rejectExpiredExecution_alone hl h (ho.storable hk) (ho.owns.congr rfl) (hk.foreignKeys.tenant ho.findExecution)
        obtain ⟨u, hu, hd⟩ := hu
        exact ⟨_, h.left, rfl, u, hu, h.right.trans hd⟩
      · cases Statement.reply_error he
  have ⟨u, hu, hd⟩ := hu
  exact ⟨_, h.left, rfl, u, hu, h.right.trans hd⟩

-- An approval that has expired, but PostgreSQL does not read the time of the rejection.
theorem decideApproval_untimely (hl : ¬Timestamp.Legible t)
    (h : (decideApproval decision).Runs (engine.alone (Generated t) now) db res db')
    (ho : Open decision db execution approval) (hm : db.Missed decision t) : ∃ e, res = .error e ∧ e.isDatabase := by
  obtain ⟨_, _, ⟨rfl, rfl⟩, h⟩ := Runs.after h fun h => lockExecution_alone h ho.findExecution
  rw [if_neg (not_not.mpr ho.status)] at h
  refine Runs.fails (Q := fun e _ => e.isDatabase) h fun h => ?_
  obtain ⟨_, _, ⟨rfl, rfl⟩, h⟩ | ⟨e, he, _, _, _, _, _, hf⟩ := h.tryCatch_throws fun h => mark_missed h ho hm
  · exact Runs.fails (Q := fun e _ => e.isDatabase) h fun h => rejectExpiredExecution_fails hl h
  · exact ⟨e, he, Statement.reply_error hf⟩

end PostgresExecutionService

-- There are enough ids that can be stored.
theorem exists_storable_notMem (ids : List String) : ∃ u, Storable u ∧ u ∉ ids := by
  let name : Nat → String := Nat.rec "" fun _ u => u ++ "a"
  have hs n : Storable (name n) := by
    induction n
    case zero      => decide
    case succ n ih => exact storable_append.mpr ⟨ih, by decide⟩
  have hl n : (name n).length = n := by
    induction n
    case zero      => rfl
    case succ n ih => exact (String.length_append ..).trans (congrArg (· + 1) ih)
  have hi : name.Injective := fun m n h => by rw [← hl m, h, hl n]
  have ⟨n, hn⟩ := Infinite.exists_notMem_finset (ids.toFinset.preimage name hi.injOn)
  exact ⟨name n, hs n, by simpa using hn⟩

theorem exists_generated (t : Time) (db : Db) : ∃ amb, Generated t db amb ∧ amb.skip = false := by
  have ⟨u, hs, hu⟩ := exists_storable_notMem (db.audit.rows.map (·.auditId) ++ db.approvals.rows.map (·.approvalId))
  rw [List.mem_append, not_or] at hu
  exact ⟨⟨t, u, fun _ => 0, false, none, false⟩, ⟨⟨Table.find_eq_none_iff.mpr hu.left,
    Table.find_eq_none_iff.mpr hu.right⟩, rfl, hs⟩, rfl⟩

-- Processes that run alone, at a given time.
abbrev aloneAt (t : Time) : Regime platform :=
  alone (fun _ => Generated t) fun _ _ => True

section
variable {g g' : platform.Global}

theorem Open.unique (ho : Open decision db execution approval) (ho' : Open decision db execution' approval') :
    execution = execution' ∧ approval = approval' :=
  ⟨Option.some.inj <| ho.findExecution.symm.trans ho'.findExecution,
    Option.some.inj <| ho.findApproval.symm.trans ho'.findApproval⟩

namespace PostgresExecutionService.Process

-- What becomes of a decision, in all four cases.

theorem decideApproval_awaited
    (h : (decideApproval decision).Runs ((aloneAt t).semantics pid) g res g') (hk : g.db.Constraints)
    (hw : g.db.Awaits decision t) (hs : decision.Storable) (hc : decision.decidedAt.timestamptz = some c) :
    res = .ok decision ∧ ∃ execution u now, g.db.executions.find decision.executionId = some execution ∧
      g.db.audit.find u = none ∧ g'.db = g.db.decided decision execution.tenantId u now c := by
  have ⟨execution, approval, ho, _⟩ := hw
  obtain ⟨outcome, g₁, ht, h⟩ | ⟨e, _, ht⟩ := runs_bind h
  all_goals
    obtain ⟨now, db', _, hr, rfl⟩ := transaction_alone ht
    obtain ⟨_, he, rfl, u, hu, hd⟩ := PostgresExecutionService.decideApproval_awaited hr ho hk hw hs hc
    cases he
  exact ⟨h.left, execution, u, now, ho.findExecution, hu, h.right ▸ hd⟩

theorem decideApproval_missed (hl : Timestamp.Legible t)
    (h : (decideApproval decision).Runs ((aloneAt t).semantics pid) g res g') (hk : g.db.Constraints)
    (hm : g.db.Missed decision t) :
    res = .error (.approvalExpired decision.approvalId) ∧ ∃ execution u now,
      g.db.executions.find decision.executionId = some execution ∧ g.db.audit.find u = none ∧
      g'.db = g.db.expired decision execution.tenantId u now t := by
  have ⟨execution, approval, ho, _⟩ := hm
  obtain ⟨outcome, g₁, ht, h⟩ | ⟨e, _, ht⟩ := runs_bind h
  all_goals
    obtain ⟨now, db', _, hr, rfl⟩ := transaction_alone ht
    obtain ⟨_, he, rfl, u, hu, hd⟩ := PostgresExecutionService.decideApproval_missed hl hr ho hk hm
    cases he
  exact ⟨h.left, execution, u, now, ho.findExecution, hu, h.right ▸ hd⟩

end PostgresExecutionService.Process

-- The gated execution of the examples.
def Sample.waiting : platform.Global :=
  (reach Sample.unchecked Sample.gated).toGlobal

theorem Sample.waiting_constraints : Sample.waiting.db.Constraints :=
  have hr : Reachable Guard.any (reach Sample.unchecked Sample.gated) := reach_reachable fun _ _ _ _ => trivial
  hr.constraints

theorem Sample.decision_storable : Sample.decision.Storable :=
  ⟨by decide, rfl, nofun⟩

theorem Sample.waiting_awaits (decidedAt : Timestamp) :
    Sample.waiting.db.Awaits { Sample.decision with decidedAt := decidedAt } 5 :=
  ⟨_, _, ⟨rfl, rfl, rfl, rfl, rfl, rfl⟩, by decide⟩

end
end Logon
