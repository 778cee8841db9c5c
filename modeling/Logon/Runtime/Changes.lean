import Mathlib.Logic.Relation
import Mathlib.Tactic.Simps.Basic
import Logon.Runtime.Platform

-- The changes that the transactions of the service make to the database. A premise says what else is
-- known about the replies on which a change depends.

namespace Logon

open PostgresExecutionService

namespace Db

@[simps]
def withTenant (db : Db) (t : String) : Db :=
  { db with tenants := if t ∈ db.tenants then db.tenants else db.tenants ++ [t] }

@[simps]
def addAudit (db : Db) (record : AuditRecord) (createdAt : Time) : Db :=
  { db with audit := db.audit.insert (.of record createdAt) }

@[simps]
def addDispatch (db : Db) (e : String) (now : Time) : Db :=
  { db with dispatches := db.dispatches.insert (.of e "logon.execution" now) }

@[simps]
def setApproval (db : Db) (a : String) (status : ApprovalStatus) (decidedBy : String) (decidedAt : Time) :
    Db :=
  { db with approvals := db.approvals.modify a (·.decide status decidedBy decidedAt) fun _ => rfl }

@[simps]
def claimDispatch (db : Db) (e : String) (now : Time) (leaseMs : Int) : Db :=
  { db with dispatches := db.dispatches.modify e (·.claim now leaseMs) fun _ => rfl }

@[simps]
def succeedDispatch (db : Db) (e : String) (now : Time) : Db :=
  { db with dispatches := db.dispatches.modify e (·.succeed now) fun _ => rfl }

@[simps]
def failDispatch (db : Db) (e error : String) : Db :=
  { db with dispatches := db.dispatches.modify e (·.fail error) fun _ => rfl }

-- Moves an execution to the status of an event.
@[simps]
def advance (db : Db) (event : ExecutionEvent) (updatedAt createdAt : Time) : Db :=
  { db with
    executions := db.executions.modify event.executionId (·.update event.status updatedAt) fun _ => rfl
    events     := db.events.insert (.of event createdAt) }

@[simps]
def addExecution (db : Db) (request : ExecutionRequest) (event : ExecutionEvent) (createdAt eventAt : Time) :
    Db :=
  { db with
    executions := db.executions.insert (.of request event.status createdAt)
    events     := db.events.insert (.of event eventAt) }

@[simps]
def addApproval (db : Db) (request : ApprovalRequest) (createdAt : Time) (expiresAt : Option Time) : Db :=
  { db with approvals := db.approvals.insert (.of request createdAt expiresAt) }

@[simps]
def addIdempotency (db : Db) (row : IdempotencyRow) : Db :=
  { db with idempotency := db.idempotency.insert row }

end Db

section
variable (P : Premise) (now : Time)

-- The approval that `awaitOrDispatch` requests.
def requestedApproval (request : ExecutionRequest) (decision : PolicyDecision) (a : String) (c t : Time) :
    ApprovalRequest where
  approvalId  := a
  executionId := request.identity.executionId
  tenantId    := request.identity.tenantId
  requestedBy := request.identity.actorId
  reason      := decision.reason
  createdAt   := .iso c
  expiresAt   := some (.iso (t + DEFAULT_APPROVAL_TTL_MS))

-- What `awaitOrDispatch` does.
inductive AwaitOrDispatch (request : ExecutionRequest) (decision : PolicyDecision) (db : Db) : Db → Prop
  | approval {a t c} :
    decision.status = .approval → P now .dateNow db t → P now .randomUUID db a → P now .dateNow db c →
    db.approvals.find a = none →
    AwaitOrDispatch request decision db
      (db.addApproval (requestedApproval request decision a c t) c (some (t + DEFAULT_APPROVAL_TTL_MS)))
  -- The generated id is in use, so that the insertion does nothing.
  | collision {a t c} :
    decision.status = .approval → P now .randomUUID db a → (db.approvals.find a).isSome →
    P now (.insertApproval (requestedApproval request decision a c t)) db none → AwaitOrDispatch request decision db db
  | dispatch :
    decision.status = .intake → db.dispatches.find request.identity.executionId = none →
    AwaitOrDispatch request decision db (db.addDispatch request.identity.executionId now)
  | dispatched :
    decision.status = .intake → (db.dispatches.find request.identity.executionId).isSome →
    AwaitOrDispatch request decision db db
  | rejected :
    decision.status = .rejected →
    AwaitOrDispatch request decision db db

-- What `appendAudit` does with a record about an execution and a fresh id.
inductive Audit (db : Db) (e tenantId action actorId : String) (allowed : Bool) (reason : String) : Db → Prop
  | mk {u} {createdAt : Timestamp} {c} :
    P now .randomUUID db u → createdAt.timestamptz = some c → db.audit.find u = none →
    Audit db e tenantId action actorId allowed reason (db.addAudit {
        auditId     := u
        executionId := e
        tenantId    := tenantId
        action      := action
        actorId     := actorId
        allowed     := allowed
        reason      := reason
        createdAt   := createdAt } c)

-- The event that `create` appends.
def createdEvent (request : ExecutionRequest) (timestamp : Timestamp) : ExecutionEvent :=
  let decision := evaluateExecutionPolicy request
  { executionId := request.identity.executionId
    sequence    := 1
    type        := "EXECUTION_" ++ decision.status.text
    status      := decision.status
    timestamp   := timestamp
    actorId     := request.identity.actorId
    payload     :=
      if decision.allowed then [
        ("objective", .string request.objective),
        ("agentId", .string request.identity.agentId),
        ("agentVersion", .string request.identity.agentVersion)
      ] else [
        ("reason", .string decision.reason)
      ] }

@[simp]
theorem createdEvent_executionId (request : ExecutionRequest) (t : Timestamp) :
    (createdEvent request t).executionId = request.identity.executionId :=
  rfl

@[simp]
theorem createdEvent_sequence (request : ExecutionRequest) (t : Timestamp) :
    (createdEvent request t).sequence = 1 :=
  rfl

@[simp]
theorem createdEvent_status (request : ExecutionRequest) (t : Timestamp) :
    (createdEvent request t).status = (evaluateExecutionPolicy request).status :=
  rfl

inductive Create (request : ExecutionRequest) (db : Db) : ExecutionEvent → Db → Prop
  | mk {c t db₁ db₂} :
    Timestamp.Legible t → db.executions.find request.identity.executionId = none →
    request.identity.tenantId ∈ db.tenants → request.createdAt.timestamptz = some c →
    db.events.find (request.identity.executionId, 1) = none →
    AwaitOrDispatch P now request (evaluateExecutionPolicy request)
      (db.addExecution request (createdEvent request (.iso t)) c t) db₁ →
    Audit P now db₁ request.identity.executionId request.identity.tenantId "EXECUTION_POLICY_CHECK"
      request.identity.actorId (evaluateExecutionPolicy request).allowed (evaluateExecutionPolicy request).reason
      db₂ →
    Create request db (createdEvent request (.iso t)) db₂

inductive Start (request : ExecutionRequest) (requestHash : String) (options : StartExecutionOptions)
    (db : Db) : StartExecutionResult → Db → Prop
  | unkeyed {event db'} :
    options.key = none → Create P now request (db.withTenant request.identity.tenantId) event db' →
    Start request requestHash options db ⟨event, false⟩ db'
  | reused {key row ev} :
    options.key = some key → db.idempotency.find (request.identity.tenantId, key) = some row →
    row.requestHash = requestHash → ev ∈ db.eventsOf row.executionId →
    P now (.selectLatestEvent row.executionId) (db.withTenant request.identity.tenantId) (some ev) →
    Start request requestHash options db ⟨.of ev, true⟩ (db.withTenant request.identity.tenantId)
  | keyed {key event db'} :
    options.key = some key → db.idempotency.find (request.identity.tenantId, key) = none →
    Create P now request (db.withTenant request.identity.tenantId) event db' →
    Start request requestHash options db ⟨event, false⟩ (db'.addIdempotency
      ⟨request.identity.tenantId, key, request.identity.executionId, requestHash, now⟩)

-- A step of the state machine, as an event tells.
inductive Advance (db : Db) (event : ExecutionEvent) : Db → Prop
  | mk {row c} :
    db.executions.find event.executionId = some row → row.status.canTransition event.status →
    event.sequence = db.maxSequence event.executionId + 1 →
    db.events.find (event.executionId, event.sequence) = none → event.timestamp.timestamptz = some c →
    Advance db event (db.advance event now c)

-- What `rejectExpiredExecution` does.
inductive Reject (e a : String) (db : Db) : Db → Prop
  | mk {row n t db₁ db₂} :
    db.executions.find e = some row →
    Advance now db
      { executionId := e
        sequence    := n
        type        := "EXECUTION_REJECTED"
        status      := .rejected
        timestamp   := .iso t
        actorId     := "logon.approval.expiry"
        payload     := [
          ("approvalId", .string a),
          ("approvalStatus", .string "EXPIRED"),
          ("reason", .string "Approval expired")
        ] } db₁ →
    Audit P now db₁ e row.tenantId "EXECUTION_APPROVAL_EXPIRED" "logon.approval.expiry" false "Approval expired"
      db₂ →
    Reject e a db db₂

-- An approval that a decision is about, and that is waiting for one.
structure Open (decision : ApprovalDecision) (db : Db) (execution : ExecutionRow) (approval : ApprovalRow) :
    Prop where
  findExecution : db.executions.find decision.executionId = some execution
  status        : execution.status = .approval
  findApproval  : db.approvals.find decision.approvalId = some approval
  bound         : approval.executionId = decision.executionId
  tenant        : approval.tenantId = execution.tenantId
  pending       : approval.status = .pending

-- The event that `applyDecision` appends.
def decisionEvent (decision : ApprovalDecision) (n : Nat) : ExecutionEvent where
  executionId := decision.executionId
  sequence    := n
  type        := "EXECUTION_" ++ (nextStatus decision.status).text
  status      := nextStatus decision.status
  timestamp   := decision.decidedAt
  actorId     := decision.decidedBy
  payload     := [
    ("approvalId", .string decision.approvalId),
    ("approvalStatus", .string decision.status.toStatus.text),
    ("reason", .string (decision.reason.getD ("Approval " ++ decision.status.lowerText)))
  ]

inductive Decide (decision : ApprovalDecision) (db : Db) : DecideApprovalOutcome → Db → Prop
  | expired {execution row x t db'} :
    Open decision db execution row → row.expiresAt = some x → P now .dateNow db t → x ≤ t →
    Reject P now decision.executionId decision.approvalId
      (db.setApproval decision.approvalId .expired "logon.approval.expiry" now) db' →
    Decide decision db ⟨none, some (.approvalExpired decision.approvalId)⟩ db'
  | decided {execution row n db₁ db₂ db₃ db'} :
    Open decision db execution row → (∀ x ∈ row.expiresAt, ∃ t, P now .dateNow db t ∧ t < x) →
    db₁ = db.setApproval decision.approvalId decision.status.toStatus decision.decidedBy
      (decision.decidedAt.timestamptz.getD now) →
    Advance now db₁ (decisionEvent decision n) db₂ →
    (decision.status = .rejected ∧ db₃ = db₂ ∨
      decision.status = .approved ∧ db₂.dispatches.find decision.executionId = none ∧
        db₃ = db₂.addDispatch decision.executionId now ∨
      decision.status = .approved ∧ (db₂.dispatches.find decision.executionId).isSome ∧ db₃ = db₂) →
    Audit P now db₃ decision.executionId execution.tenantId "EXECUTION_APPROVAL_DECISION" decision.decidedBy
      (decision.status = .approved) (decision.reason.getD ("Approval " ++ decision.status.lowerText)) db' →
    Decide decision db ⟨some decision, none⟩ db'

-- One of the updates of `claimExpiredApprovals`, and the row that it returns.
inductive Expire (a : String) (db : Db) : Option ApprovalRow → Db → Prop
  | none : P now (.expireApproval a) db none → Expire a db none db
  | some {row} :
    db.approvals.find a = some row → P now (.expireApproval a) db (some (row.expire now)) →
    Expire a db (some (row.expire now)) (db.setApproval a .expired "logon.approval.expiry" now)

-- The loop over the claimed approvals.
inductive RejectAll : Db → List ExpiredApprovalClaim → Nat → Nat → Db → Prop
  | nil {db} : RejectAll db [] 0 0 db
  | skip {db claim claims row rejected skipped db'} :
    db.executions.find claim.executionId = some row → row.status ≠ .approval →
    RejectAll db claims rejected skipped db' → RejectAll db (claim :: claims) rejected (skipped + 1) db'
  | reject {db claim claims row rejected skipped db₁ db'} :
    db.executions.find claim.executionId = some row → row.status = .approval →
    Reject P now claim.executionId claim.approvalId db db₁ →
    RejectAll db₁ claims rejected skipped db' → RejectAll db (claim :: claims) (rejected + 1) skipped db'

-- A candidate for a lock, while `n` more may be locked.
inductive LockAll (told : α → Candidate → Prop) : Nat → List α → List α → Prop
  | full {cs} : LockAll told 0 cs []
  | nil {n} : LockAll told (n + 1) [] []
  | lock {n c cs ls} : told c .locked → LockAll told n cs ls → LockAll told (n + 1) (c :: cs) (c :: ls)
  | pass {n c cs ls r} : told c r → r ≠ .locked → LockAll told (n + 1) cs ls → LockAll told (n + 1) (c :: cs) ls

inductive Sweep (limit : Int) (db : Db) : ExpireApprovalsResult → Db → Prop
  | mk {candidates locked ids rows rejected skipped db₁ db'} :
    P now .scanApprovals db candidates → (candidates.map Prod.fst).Nodup →
    LockAll (fun c r => P now (.lockExecution c.snd) db r) (clamp limit 1 100).toNat candidates locked →
    ids.Perm (locked.map Prod.fst) → Program.Collects (Expire P now) ids db rows db₁ →
    RejectAll P now db₁ (rows.map .of) rejected skipped db' →
    Sweep limit db ⟨rows.length, rejected, skipped⟩ db'

-- One of the updates of `claimDispatches`, and the row that it returns.
inductive ClaimOne (leaseMs : Int) (e : String) (db : Db) : Option DispatchRow → Db → Prop
  | none : P now (.claimDispatch e leaseMs) db none → ClaimOne leaseMs e db none db
  | some {row} :
    db.dispatches.find e = some row → P now (.claimDispatch e leaseMs) db (some (row.claim now leaseMs)) →
    ClaimOne leaseMs e db (some (row.claim now leaseMs)) (db.claimDispatch e now leaseMs)

inductive Claim (limit leaseMs : Int) (db : Db) : List DispatchClaim → Db → Prop
  | mk {candidates locked ids rows db'} :
    P now .scanDispatches db candidates → candidates.Nodup →
    LockAll (fun e r => P now (.lockDispatch e) db r ∧
        (r = .locked → ∃ row, db.dispatches.find e = some row ∧ row.Claimable now))
      (clamp limit 1 100).toNat candidates locked →
    ids.Perm locked → Program.Collects (ClaimOne P now (clamp leaseMs 1000 300000)) ids db rows db' →
    Claim limit leaseMs db (rows.map .of) db'

inductive MarkSucceeded (e : String) (db : Db) : Db → Prop
  | none : P now (.updateDispatchSucceeded e) db none → MarkSucceeded e db db
  | some {row} :
    db.dispatches.find e = some row → MarkSucceeded e db (db.succeedDispatch e now)

inductive MarkFailed (e error : String) (db : Db) : Db → Prop
  | none : P now (.updateDispatchFailed e error) db false → MarkFailed e error db db
  | some {row} :
    db.dispatches.find e = some row → MarkFailed e error db (db.failDispatch e error)

-- What a transaction does that commits.
def Call.Commits : (c : Call) → Db → c.Result → Db → Prop
  | .start request requestHash options, db => Start P now request requestHash options db
  | .decideApproval decision, db => Decide P now decision db
  | .expireApprovalsOnce limit, db => Sweep P now limit db
  | .transition e status actorId payload, db => fun event db' =>
    (∃ n t, event = ⟨e, n, "EXECUTION_" ++ status.text, status, .iso t, actorId, payload⟩) ∧ Advance now db event db'
  | .fail e actorId reason, db => fun event db' =>
    (∃ n t, event = ⟨e, n, "EXECUTION_FAILED", .failed, .iso t, actorId, [("reason", .string reason)]⟩) ∧
    Advance now db event db'
  | .claimDispatches limit leaseMs, db => Claim P now limit leaseMs db
  | .markDispatchSucceeded claim, db => fun _ => MarkSucceeded P now claim.executionId db
  | .markDispatchFailed claim error, db => fun _ => MarkFailed P now claim.executionId (slice error 2000) db

-- A change of a single row, of which all of the above are made up. Only an execution and an event are
-- always written together.
inductive Change (db : Db) : Db → Prop
  | tenant {t} :
    Change db (db.withTenant t)
  | execution {request t c} :
    db.executions.find request.identity.executionId = none → request.identity.tenantId ∈ db.tenants →
    db.events.find (request.identity.executionId, 1) = none →
    Change db (db.addExecution request (createdEvent request (.iso t)) c t)
  | advance {event db'} :
    Advance now db event db' → Change db db'
  | approval {request c x} :
    db.approvals.find request.approvalId = none → Change db (db.addApproval request c x)
  | decision {a row status decidedBy t} :
    db.approvals.find a = some row → row.status = .pending → status ≠ .pending →
    (status = .expired → decidedBy = "logon.approval.expiry") → Change db (db.setApproval a status decidedBy t)
  | expiry {a row} :
    db.approvals.find a = some row → P now (.expireApproval a) db (some (row.expire now)) →
    Change db (db.setApproval a .expired "logon.approval.expiry" now)
  | audit {record c} :
    db.audit.find record.auditId = none → Change db (db.addAudit record c)
  | dispatch {e} :
    db.dispatches.find e = none → Change db (db.addDispatch e now)
  | idempotency {row} :
    db.idempotency.find row.key = none → Change db (db.addIdempotency row)
  | claim {e leaseMs row} :
    db.dispatches.find e = some row → Change db (db.claimDispatch e now leaseMs)
  | success {e row} :
    db.dispatches.find e = some row → Change db (db.succeedDispatch e now)
  | failure {e error row} :
    db.dispatches.find e = some row → Change db (db.failDispatch e error)

abbrev Changes : Db → Db → Prop :=
  Relation.ReflTransGen (Change P now)

end

variable {P : Premise} {now : Time} {db db' : Db}

namespace AwaitOrDispatch

variable {request : ExecutionRequest} {decision : PolicyDecision} (h : AwaitOrDispatch P now request decision db db')
include h

theorem tenants : db'.tenants = db.tenants := by
  cases h <;> rfl

theorem executions : db'.executions = db.executions := by
  cases h <;> rfl

theorem events : db'.events = db.events := by
  cases h <;> rfl

theorem audit : db'.audit = db.audit := by
  cases h <;> rfl

theorem idempotency : db'.idempotency = db.idempotency := by
  cases h <;> rfl

end AwaitOrDispatch

namespace Create

variable {request : ExecutionRequest} {event : ExecutionEvent} (h : Create P now request db event db')
include h

theorem tenants : db'.tenants = db.tenants := by
  cases h
  case mk ha hu => cases hu; exact ha.tenants

theorem idempotency : db'.idempotency = db.idempotency := by
  cases h
  case mk ha hu => cases hu; exact ha.idempotency

end Create

theorem ApprovalDecisionStatus.toStatus_ne_expired (s : ApprovalDecisionStatus) : s.toStatus ≠ .expired := by
  cases s <;> decide

theorem ApprovalDecisionStatus.toStatus_ne_pending (s : ApprovalDecisionStatus) : s.toStatus ≠ .pending := by
  cases s <;> decide

theorem AwaitOrDispatch.changes {request : ExecutionRequest} {decision : PolicyDecision}
    (h : AwaitOrDispatch P now request decision db db') : Changes P now db db' := by
  cases h
  case approval hn  => exact .single <| .approval hn
  case collision    => exact .refl
  case dispatch hn  => exact .single <| .dispatch hn
  case dispatched   => exact .refl
  case rejected     => exact .refl

theorem Audit.changes (h : Audit P now db e tenantId action actorId allowed reason db') : Changes P now db db' := by
  cases h
  case mk hn => exact .single <| .audit hn

theorem Create.changes {request : ExecutionRequest} (h : Create P now request db event db') :
    Changes P now db db' := by
  cases h
  case mk hf hm _ hn ha hu => exact .head (.execution hf hm hn) <| ha.changes.trans hu.changes

theorem Start.changes {request : ExecutionRequest} (h : Start P now request requestHash options db result db') :
    Changes P now db db' := by
  cases h
  case unkeyed hc  => exact .head .tenant hc.changes
  case reused      => exact .single .tenant
  case keyed hf hc => exact .head .tenant <| hc.changes.tail <| .idempotency <| hc.idempotency ▸ hf

theorem Reject.changes (h : Reject P now e a db db') : Changes P now db db' := by
  cases h
  case mk hv hu => exact .head (.advance hv) hu.changes

theorem Decide.changes {decision : ApprovalDecision} (h : Decide P now decision db outcome db') :
    Changes P now db db' := by
  cases h
  case expired ho _ _ _ hr =>
    exact .head (.decision ho.findApproval ho.pending (by decide) fun _ => rfl) hr.changes
  case decided ho _ hd hv hs hu =>
    subst hd
    refine .head (.decision ho.findApproval ho.pending decision.status.toStatus_ne_pending fun hx => ?_) <|
      .head (.advance hv) <| .trans ?_ hu.changes
    · exact absurd hx decision.status.toStatus_ne_expired
    · obtain ⟨-, rfl⟩ | ⟨-, hn, rfl⟩ | ⟨-, -, rfl⟩ := hs
      · exact .refl
      · exact .single <| .dispatch hn
      · exact .refl

-- If each item causes changes, all of them do.
theorem Changes.of_collects {step : α → Db → Option β → Db → Prop}
    (hs : ∀ a db b db', step a db b db' → Changes P now db db')
    (h : Program.Collects step as db bs db') : Changes P now db db' := by
  induction h
  case nil             => exact .refl
  case cons hstep _ ih => exact (hs _ _ _ _ hstep).trans ih

theorem Expire.changes (h : Expire P now a db row db') : Changes P now db db' := by
  cases h
  case none       => exact .refl
  case some hf hp => exact .single <| .expiry hf hp

theorem RejectAll.changes (h : RejectAll P now db claims rejected skipped db') : Changes P now db db' := by
  induction h
  case nil               => exact .refl
  case skip ih           => exact ih
  case reject _ _ hr _ ih => exact hr.changes.trans ih

theorem Sweep.changes (h : Sweep P now limit db result db') : Changes P now db db' := by
  cases h
  case mk hc hr => exact (Changes.of_collects (fun _ _ _ _ => Expire.changes) hc).trans hr.changes

theorem ClaimOne.changes (h : ClaimOne P now leaseMs e db row db') : Changes P now db db' := by
  cases h
  case none      => exact .refl
  case some hf _ => exact .single <| .claim hf

theorem Claim.changes (h : Claim P now limit leaseMs db claims db') : Changes P now db db' := by
  cases h
  case mk hc => exact Changes.of_collects (fun _ _ _ _ => ClaimOne.changes) hc

theorem MarkSucceeded.changes (h : MarkSucceeded P now e db db') : Changes P now db db' := by
  cases h
  case none    => exact .refl
  case some hf => exact .single <| .success hf

theorem MarkFailed.changes (h : MarkFailed P now e error db db') : Changes P now db db' := by
  cases h
  case none    => exact .refl
  case some hf => exact .single <| .failure hf

theorem Call.Commits.changes {c : Call} {r : c.Result} (h : c.Commits P now db r db') : Changes P now db db' := by
  cases c
  case start                 => exact Start.changes h
  case decideApproval        => exact Decide.changes h
  case expireApprovalsOnce   => exact Sweep.changes h
  case transition            => exact .single <| .advance h.right
  case fail                  => exact .single <| .advance h.right
  case claimDispatches       => exact Claim.changes h
  case markDispatchSucceeded => exact MarkSucceeded.changes h
  case markDispatchFailed    => exact MarkFailed.changes h

-- What every change preserves, every transaction preserves.
theorem Changes.preserves {Q : Db → Prop} (hc : ∀ {db db'}, Change P now db db' → Q db → Q db')
    (h : Changes P now db db') (hq : Q db) : Q db' := by
  induction h
  case refl        => exact hq
  case tail _ e ih => exact hc e ih

end Logon
