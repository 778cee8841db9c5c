import Logon.Kernel.Store

namespace Logon

open PgExecutionStore

structure StartExecutionOptions where
  idempotencyKey : Option String

-- An empty key counts as none.
def StartExecutionOptions.key (options : StartExecutionOptions) : Option String :=
  options.idempotencyKey.filter (· ≠ "")

structure StartExecutionResult where
  event  : ExecutionEvent
  reused : Bool

structure ExpireApprovalsResult where
  claimed  : Nat
  rejected : Nat
  skipped  : Nat
  deriving DecidableEq

-- What the transaction of `decideApproval` leaves behind in its variables.
structure DecideApprovalOutcome where
  result       : Option ApprovalDecision
  expiredError : Option KernelError

def DEFAULT_APPROVAL_TTL_MS : Int :=
  24 * 60 * 60 * 1000

-- The status that `start` gives to an execution.
def PolicyDecision.status (decision : PolicyDecision) : ExecutionStatus :=
  if !decision.allowed then .rejected
  else if decision.requiresApproval then .approval
  else .intake

theorem PolicyDecision.status_initial (decision : PolicyDecision) : decision.status.Initial := by
  unfold status
  split
  · decide
  · split <;> decide

-- The error of the source's `assertTransition` is always caught, and replaced by this one.
def assertTransition (src dst : ExecutionStatus) : Tx Unit :=
  if src.canTransition dst then pure () else throw (.invalidExecutionTransition src dst)

-- `coalesce(max(sequence), 0) + 1`
def nextSequence (executionId : String) : Tx Nat := do
  return (← query (.selectMaxSequence executionId)) + 1

def updateStatus (executionId : String) (status : ExecutionStatus) : Tx Unit := do
  let _ ← query (.updateExecution executionId status)

namespace PostgresExecutionService

-- The first part of `start`, for a call with a key: the result of an earlier call, if there is one.
def findReusable (tenantId key requestHash : String) : Tx (Option StartExecutionResult) := do
  let _ ← query (.advisoryLock (tenantId ++ ":" ++ key))
  match ← findIdempotency tenantId key with
  | none => return none
  | some existing =>
    if existing.requestHash ≠ requestHash then
      throw (.idempotencyConflict key)
    else
      match ← latestEvent existing.executionId with
      | none       => throw (.idempotentExecutionHasNoEvents existing.executionId)
      | some event => return some { event := event, reused := true }

-- The last part of `start`, for a call with a key. It would be left early if another call had put a
-- record under the key.
def recordKey (request : ExecutionRequest) (key requestHash : String) :
    Tx (Option StartExecutionResult) := do
  putIdempotency request.identity.tenantId key request.identity.executionId requestHash
  match ← findIdempotency request.identity.tenantId key with
  | none => throw (.idempotencyRecordMissing key)
  | some recorded =>
    if recorded.requestHash ≠ requestHash then
      throw (.idempotencyConflict key)
    else if recorded.executionId ≠ request.identity.executionId then
      match ← latestEvent recorded.executionId with
      | none       => throw (.idempotentExecutionHasNoEvents recorded.executionId)
      | some event => return some { event := event, reused := true }
    else
      return none

-- What an allowed execution waits for: a human decision, or to be dispatched.
def awaitOrDispatch (request : ExecutionRequest) (decision : PolicyDecision) : Tx Unit := do
  if decision.allowed ∧ decision.requiresApproval then
    let expiresAt := (← query .dateNow) + DEFAULT_APPROVAL_TTL_MS
    createApproval {
      approvalId  := ← query .randomUUID
      executionId := request.identity.executionId
      tenantId    := request.identity.tenantId
      requestedBy := request.identity.actorId
      reason      := decision.reason
      createdAt   := ← newDate
      expiresAt   := some (.iso expiresAt)
    }
  else if decision.allowed then
    createDispatch request.identity.executionId "logon.execution"

-- The part of `start` in between.
def create (request : ExecutionRequest) : Tx ExecutionEvent := do
  let decision := evaluateExecutionPolicy request
  createExecution request decision.status
  let stored ← appendEvent {
    executionId := request.identity.executionId
    status      := decision.status
    type        := "EXECUTION_" ++ decision.status.text
    timestamp   := ← newDate
    actorId     := request.identity.actorId
    payload     :=
      if decision.allowed then [
        ("objective", .string request.objective),
        ("agentId", .string request.identity.agentId),
        ("agentVersion", .string request.identity.agentVersion)
      ] else [
        ("reason", .string decision.reason)
      ]
    sequence    := 1
  }
  awaitOrDispatch request decision
  appendAudit {
    auditId     := ← query .randomUUID
    executionId := request.identity.executionId
    tenantId    := request.identity.tenantId
    action      := "EXECUTION_POLICY_CHECK"
    actorId     := request.identity.actorId
    allowed     := decision.allowed
    reason      := decision.reason
    createdAt   := ← newDate
  }
  return stored

def start (request : ExecutionRequest) (requestHash : String) (options : StartExecutionOptions) :
    Tx StartExecutionResult := do
  ensureTenant request.identity.tenantId
  match options.key with
  | none => return { event := ← create request, reused := false }
  | some key =>
    match ← findReusable request.identity.tenantId key requestHash with
    | some result => return result
    | none =>
      let stored ← create request
      match ← recordKey request key requestHash with
      | some result => return result
      | none        => return { event := stored, reused := false }

def lookupTenant (executionId : String) : Tx String := do
  match ← query (.selectTenant executionId) with
  | none          => throw (.executionNotFound executionId)
  | some tenantId => return tenantId

def rejectExpiredExecution (executionId approvalId actorId : String) : Tx Unit := do
  let sequence ← nextSequence executionId
  let now ← newDate
  updateStatus executionId .rejected
  let _ ← appendEvent {
    executionId := executionId
    status      := .rejected
    type        := "EXECUTION_REJECTED"
    timestamp   := now
    actorId     := actorId
    payload     := [
      ("approvalId", .string approvalId),
      ("approvalStatus", .string "EXPIRED"),
      ("reason", .string "Approval expired")
    ]
    sequence    := sequence
  }
  let tenantId ← lookupTenant executionId
  appendAudit {
    auditId     := ← query .randomUUID
    executionId := executionId
    tenantId    := tenantId
    action      := "EXECUTION_APPROVAL_EXPIRED"
    actorId     := actorId
    allowed     := false
    reason      := "Approval expired"
    createdAt   := now
  }

-- The status that a decided approval gives to its execution.
def nextStatus : ApprovalDecisionStatus → ExecutionStatus
  | .approved => .execution
  | .rejected => .rejected

theorem nextStatus_ne_approval (status : ApprovalDecisionStatus) : nextStatus status ≠ .approval := by
  cases status <;> decide

theorem nextStatus_ne_intake (status : ApprovalDecisionStatus) : nextStatus status ≠ .intake := by
  cases status <;> decide

def dispatchApproved (executionId : String) (approvalStatus : ApprovalDecisionStatus) : Tx Unit := do
  if approvalStatus = .approved then
    createDispatch executionId "logon.execution"

-- What `decideApproval` does once the approval is decided.
def applyDecision (decision : ApprovalDecision) (approvalStatus : ApprovalDecisionStatus)
    (current : ExecutionStatus) : Tx DecideApprovalOutcome := do
  let nextStatus := nextStatus approvalStatus
  let reason := decision.reason.getD ("Approval " ++ approvalStatus.lowerText)
  assertTransition current nextStatus
  let sequence ← nextSequence decision.executionId
  updateStatus decision.executionId nextStatus
  let _ ← appendEvent {
    executionId := decision.executionId
    status      := nextStatus
    type        := "EXECUTION_" ++ nextStatus.text
    timestamp   := decision.decidedAt
    actorId     := decision.decidedBy
    payload     := [
      ("approvalId", .string decision.approvalId),
      ("approvalStatus", .string approvalStatus.toStatus.text),
      ("reason", .string reason)
    ]
    sequence    := sequence
  }
  dispatchApproved decision.executionId approvalStatus
  let tenantId ← lookupTenant decision.executionId
  appendAudit {
    auditId     := ← query .randomUUID
    executionId := decision.executionId
    tenantId    := tenantId
    action      := "EXECUTION_APPROVAL_DECISION"
    actorId     := decision.decidedBy
    allowed     := approvalStatus = .approved
    reason      := reason
    createdAt   := decision.decidedAt
  }
  return { result := some decision, expiredError := none }

def decideApproval (decision : ApprovalDecision) : Tx DecideApprovalOutcome := do
  let current ← lockExecution decision.executionId
  if current ≠ .approval then
    throw (.notInApproval decision.executionId current)
  else
    let approvalStatus ← Program.tryCatch (some <$> PgExecutionStore.decideApproval decision) fun
      | .approvalExpired _ => do
        -- The approval is marked already, so that the transaction has to commit.
        rejectExpiredExecution decision.executionId decision.approvalId "logon.approval.expiry"
        return none
      | error => throw error
    match approvalStatus with
    | none => return { result := none, expiredError := some (.approvalExpired decision.approvalId) }
    | some approvalStatus => applyDecision decision approvalStatus current

-- The loop of `expireApprovalsOnce`, which counts the executions that are rejected and skipped.
def rejectClaims : List ExpiredApprovalClaim → Nat → Nat → Tx (Nat × Nat)
  | [],              rejected, skipped => return (rejected, skipped)
  | claim :: claims, rejected, skipped => do
    let status ← lockExecution claim.executionId
    if status ≠ .approval then
      rejectClaims claims rejected (skipped + 1)
    else
      rejectExpiredExecution claim.executionId claim.approvalId "logon.approval.expiry"
      rejectClaims claims (rejected + 1) skipped

def expireApprovalsOnce (limit : Int) : Tx ExpireApprovalsResult := do
  let claims ← claimExpiredApprovals limit
  let (rejected, skipped) ← rejectClaims claims 0 0
  return { claimed := claims.length, rejected := rejected, skipped := skipped }

def transition (executionId : String) (status : ExecutionStatus) (actorId : String)
    (payload : Payload) : Tx ExecutionEvent := do
  let current ← lockExecution executionId
  assertTransition current status
  let timestamp ← newDate
  let sequence ← nextSequence executionId
  updateStatus executionId status
  appendEvent {
    executionId := executionId
    status      := status
    type        := "EXECUTION_" ++ status.text
    timestamp   := timestamp
    actorId     := actorId
    payload     := payload
    sequence    := sequence
  }

def fail (executionId actorId reason : String) : Tx ExecutionEvent := do
  let current ← lockExecution executionId
  if current.Terminal then
    throw (.cannotFailTerminal executionId)
  else
    let timestamp ← newDate
    let sequence ← nextSequence executionId
    updateStatus executionId .failed
    appendEvent {
      executionId := executionId
      status      := .failed
      type        := "EXECUTION_FAILED"
      timestamp   := timestamp
      actorId     := actorId
      payload     := [("reason", .string reason)]
      sequence    := sequence
    }

-- How `transition` and `fail` end after their checks.
def move (executionId : String) (status : ExecutionStatus) (type actorId : String) (payload : Payload) :
    Tx ExecutionEvent := do
  let timestamp ← newDate
  let sequence ← nextSequence executionId
  updateStatus executionId status
  appendEvent {
    executionId := executionId
    status      := status
    type        := type
    timestamp   := timestamp
    actorId     := actorId
    payload     := payload
    sequence    := sequence
  }

end PostgresExecutionService
end Logon
