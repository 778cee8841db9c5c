import Logon.Database.Statements
import Logon.Library.Program

namespace Logon

-- The work of a transaction.
abbrev Tx := Program sql KernelError

def query (o : Statement) : Tx o.Reply :=
  @Program.perform sql KernelError o

-- `Math.min(Math.max(x, lo), hi)`
def clamp (x lo hi : Int) : Int :=
  min (max x lo) hi

-- `s.slice(0, n)`, where characters beyond the Basic Multilingual Plane count twice.
def slice (s : String) (n : Nat) : String :=
  String.ofList (go s.toList n)
where
  go : List Char → Nat → List Char
    | [],      _ => []
    | c :: cs, n =>
      if size c ≤ n then c :: go cs (n - size c)
      else if n = 1 then ['\uFFFD']
      else []
  size (c : Char) : Nat :=
    if c.toNat < 0x10000 then 1 else 2

def newDate : Tx Timestamp := do
  return .iso (← query .dateNow)

-- The statement `select ... for update skip locked limit n`, from its snapshot on. A candidate only
-- counts towards the limit if it is locked.
def lockCandidates (lock : α → Tx Candidate) : Nat → List α → Tx (List α)
  | 0,     _       => pure []
  | _ + 1, []      => pure []
  | n + 1, c :: cs => do
    match ← lock c with
    | .locked => return c :: (← lockCandidates lock n cs)
    | _       => lockCandidates lock (n + 1) cs

structure DispatchClaim where
  executionId : String
  queueName   : String
  attempts    : Nat
  deriving DecidableEq

structure ExpiredApprovalClaim where
  approvalId  : String
  executionId : String
  tenantId    : String
  deriving DecidableEq

@[simps]
def DispatchClaim.of (row : DispatchRow) : DispatchClaim where
  executionId := row.executionId
  queueName   := row.queueName
  attempts    := row.attempts

def ExpiredApprovalClaim.of (row : ApprovalRow) : ExpiredApprovalClaim where
  approvalId  := row.approvalId
  executionId := row.executionId
  tenantId    := row.tenantId

def ExecutionEvent.of (row : EventRow) : ExecutionEvent where
  executionId := row.executionId
  sequence    := row.sequence
  status      := row.status
  type        := row.eventType
  timestamp   := .iso row.createdAt
  actorId     := row.actorId
  payload     := .ofJson row.payloadJson

namespace PgExecutionStore

def ensureTenant (tenantId : String) : Tx Unit := do
  let _ ← query (.insertTenant tenantId)

def createApproval (request : ApprovalRequest) : Tx Unit := do
  let _ ← query (.insertApproval request)

def decideApproval (decision : ApprovalDecision) : Tx ApprovalDecisionStatus := do
  match ← query (.selectApprovalForUpdate decision.approvalId) with
  | none => throw (.approvalNotFound decision.approvalId)
  | some (row, executionTenantId) =>
    if row.executionId ≠ decision.executionId ∨ row.tenantId ≠ executionTenantId then
      throw (.approvalExecutionMismatch decision.approvalId decision.executionId)
    else if row.status ≠ .pending then
      throw (.approvalNotPending decision.approvalId)
    else if ← expired row then
      let _ ← query (.updateApproval decision.approvalId .expired "logon.approval.expiry" none)
      throw (.approvalExpired decision.approvalId)
    else
      let _ ← query <|
        .updateApproval decision.approvalId decision.status.toStatus decision.decidedBy decision.decidedAt
      return decision.status
where
  -- The clock is only read if there is an expiry.
  expired (row : ApprovalRow) : Tx Bool := do
    match row.expiresAt with
    | none           => return false
    | some expiresAt => return expiresAt ≤ (← query .dateNow)

def claimExpiredApprovals (limit : Int) : Tx (List ExpiredApprovalClaim) := do
  let safeLimit := clamp limit 1 100
  let rows ← query .scanApprovals
  let candidates ← lockCandidates (fun c => query (.lockExecution c.snd)) safeLimit.toNat rows
  let approvalIds ← query (.join (candidates.map (·.fst)))
  let rows ← Program.collect (fun a => query (.expireApproval a)) approvalIds
  return rows.map .of

def createDispatch (executionId queueName : String) : Tx Unit := do
  let _ ← query (.insertDispatch executionId queueName)

def claimDispatches (limit leaseMs : Int) : Tx (List DispatchClaim) := do
  let safeLimit := clamp limit 1 100
  let safeLease := clamp leaseMs 1000 300000
  let ids ← query .scanDispatches
  let candidates ← lockCandidates (fun e => query (.lockDispatch e)) safeLimit.toNat ids
  let executionIds ← query (.join candidates)
  let rows ← Program.collect (fun e => query (.claimDispatch e safeLease)) executionIds
  return rows.map .of

def markDispatchSucceeded (executionId : String) : Tx Unit := do
  let _ ← query (.updateDispatchSucceeded executionId)

def markDispatchFailed (executionId error : String) : Tx Unit := do
  let _ ← query (.updateDispatchFailed executionId (slice error 2000))

def createExecution (request : ExecutionRequest) (status : ExecutionStatus) : Tx Unit := do
  let _ ← query (.insertExecution request status)

-- The event comes with its sequence here.
def appendEvent (event : ExecutionEvent) : Tx ExecutionEvent := do
  let _ ← query (.insertEvent event)
  return event

def lockExecution (executionId : String) : Tx ExecutionStatus := do
  match ← query (.selectExecutionForUpdate executionId) with
  | none     => throw (.executionNotFound executionId)
  | some row => return row.status

def appendAudit (record : AuditRecord) : Tx Unit := do
  let _ ← query (.insertAudit record)

def findIdempotency (tenantId key : String) : Tx (Option IdempotencyRow) :=
  query (.selectIdempotency tenantId key)

def putIdempotency (tenantId key executionId requestHash : String) : Tx Unit := do
  let _ ← query (.insertIdempotency tenantId key executionId requestHash)

def latestEvent (executionId : String) : Tx (Option ExecutionEvent) := do
  return (← query (.selectLatestEvent executionId)).map .of

end PgExecutionStore
end Logon
