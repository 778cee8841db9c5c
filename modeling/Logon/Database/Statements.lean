import Mathlib.Data.List.Sort
import Mathlib.Tactic.Simps.Basic
import Logon.Database.Schema

namespace Logon

-- The statements of the store, one for each query text. `dateNow` and `randomUUID` are not
-- statements, but answered by the process that sends them.
--
-- PostgreSQL executes `with candidates as (select ... for update skip locked limit n) update ...` in
-- several stages between which other transactions may commit: it reads a snapshot (`scan`), locks
-- one candidate after the other (`lock`), and updates the rows that the join with the candidates
-- returns (`expireApproval`, `claimDispatch`). Each stage is a statement of its own here.
inductive Statement
  | dateNow
  | randomUUID
  | insertTenant (tenantId : String)
  | advisoryLock (key : String)
  | selectIdempotency (tenantId idempotencyKey : String)
  | insertIdempotency (tenantId idempotencyKey executionId requestHash : String)
  | selectLatestEvent (executionId : String)
  | insertExecution (request : ExecutionRequest) (status : ExecutionStatus)
  | selectExecutionForUpdate (executionId : String)
  | selectTenant (executionId : String)
  | updateExecution (executionId : String) (status : ExecutionStatus)
  | selectMaxSequence (executionId : String)
  | insertEvent (event : ExecutionEvent)
  | insertApproval (request : ApprovalRequest)
  | selectApprovalForUpdate (approvalId : String)
  -- The time of the decision is `now()` if it is not given.
  | updateApproval (approvalId : String) (status : ApprovalStatus) (decidedBy : String)
      (decidedAt : Option Timestamp)
  | scanApprovals
  | lockExecution (executionId : String)
  | expireApproval (approvalId : String)
  | insertAudit (record : AuditRecord)
  | insertDispatch (executionId queueName : String)
  | scanDispatches
  | lockDispatch (executionId : String)
  | claimDispatch (executionId : String) (leaseMs : Int)
  | updateDispatchSucceeded (executionId : String)
  | updateDispatchFailed (executionId error : String)
  -- The order in which a join visits rows
  | join (ids : List String)

-- What becomes of a candidate for a lock: it is skipped if it is locked by another transaction, and
-- dropped if it does not meet the condition of its query any more.
inductive Candidate
  | locked
  | skipped
  | dropped
  deriving DecidableEq, Repr

-- A statement that writes replies with the times it has written, or with the rows that it returns.
abbrev Statement.Reply : Statement → Type
  | dateNow                     => Time
  | randomUUID                  => String
  | insertTenant _              => Bool
  | advisoryLock _              => Unit
  | selectIdempotency _ _       => Option IdempotencyRow
  | insertIdempotency _ _ _ _   => Option Time
  | selectLatestEvent _         => Option EventRow
  | insertExecution _ _         => Time
  | selectExecutionForUpdate _  => Option ExecutionRow
  | selectTenant _              => Option String
  | updateExecution _ _         => Time
  | selectMaxSequence _         => Nat
  | insertEvent _               => Time
  | insertApproval _            => Option (Time × Option Time)
  | selectApprovalForUpdate _   => Option (ApprovalRow × String)
  | updateApproval _ _ _ _      => Time
  | scanApprovals               => List (String × String)
  | lockExecution _             => Candidate
  | expireApproval _            => Option ApprovalRow
  | insertAudit _               => Time
  | insertDispatch _ _          => Option Time
  | scanDispatches              => List String
  | lockDispatch _              => Candidate
  | claimDispatch _ _           => Option DispatchRow
  | updateDispatchSucceeded _   => Option Time
  | updateDispatchFailed _ _    => Bool
  | join _                      => List String

abbrev sql : Signature where
  Op    := Statement
  Reply := Statement.Reply

-- What decides replies that the database leaves open.
structure Ambient where
  -- The clock of the process, which need not be that of the database.
  dateNow : Time
  uuid    : String
  -- The order of rows where a statement leaves it open.
  rank    : String → Nat
  -- Whether a lock is skipped. It can be if, and only if another transaction holds it.
  skip    : Bool
  -- Why an action fails, and for the queue, whether it has added the job nevertheless.
  failure : Option String
  added   : Bool

-- What transactions lock. The `tenant`, `execution`, `approval`, `audit`, `idempotency` and
-- `dispatch` of a key can be locked before there is a row with this key, by inserting it.
inductive Resource
  | tenant (tenantId : String)
  | advisory (key : String)
  | execution (executionId : String)
  | approval (approvalId : String)
  | audit (auditId : String)
  | idempotency (tenantId idempotencyKey : String)
  | dispatch (executionId : String)
  deriving DecidableEq

-- The rows that statements write.

@[simps]
def ExecutionRow.of (request : ExecutionRequest) (status : ExecutionStatus) (createdAt : Time) :
    ExecutionRow where
  executionId  := request.identity.executionId
  tenantId     := request.identity.tenantId
  actorId      := request.identity.actorId
  agentId      := request.identity.agentId
  agentVersion := request.identity.agentVersion
  objective    := request.objective
  status       := status
  requestJson  := request.requestJson
  createdAt    := createdAt
  updatedAt    := createdAt

abbrev ExecutionRow.update (r : ExecutionRow) (status : ExecutionStatus) (updatedAt : Time) :
    ExecutionRow :=
  { r with status := status, updatedAt := updatedAt }

@[simps]
def EventRow.of (event : ExecutionEvent) (createdAt : Time) : EventRow where
  executionId := event.executionId
  sequence    := event.sequence
  status      := event.status
  eventType   := event.type
  actorId     := event.actorId
  payloadJson := event.payload.toJson
  createdAt   := createdAt

@[simps]
def ApprovalRow.of (request : ApprovalRequest) (createdAt : Time) (expiresAt : Option Time) :
    ApprovalRow where
  approvalId  := request.approvalId
  executionId := request.executionId
  tenantId    := request.tenantId
  requestedBy := request.requestedBy
  status      := .pending
  reason      := request.reason
  decidedBy   := none
  decidedAt   := none
  expiresAt   := expiresAt
  createdAt   := createdAt

abbrev ApprovalRow.decide (r : ApprovalRow) (status : ApprovalStatus) (decidedBy : String)
    (decidedAt : Time) : ApprovalRow :=
  { r with status := status, decidedBy := some decidedBy, decidedAt := some decidedAt }

abbrev ApprovalRow.expire (r : ApprovalRow) (now : Time) : ApprovalRow :=
  r.decide .expired "logon.approval.expiry" now

@[simps]
def AuditRow.of (record : AuditRecord) (createdAt : Time) : AuditRow where
  auditId     := record.auditId
  executionId := record.executionId
  tenantId    := record.tenantId
  action      := record.action
  actorId     := record.actorId
  allowed     := record.allowed
  reason      := record.reason
  createdAt   := createdAt

@[simps]
def DispatchRow.of (executionId queueName : String) (now : Time) : DispatchRow where
  executionId  := executionId
  queueName    := queueName
  status       := .pending
  attempts     := 0
  lockedUntil  := none
  lastError    := none
  createdAt    := now
  dispatchedAt := none

abbrev DispatchRow.claim (r : DispatchRow) (now : Time) (leaseMs : Int) : DispatchRow :=
  { r with
    status := .processing, attempts := r.attempts + 1, lockedUntil := some (now + leaseMs), lastError := none }

abbrev DispatchRow.succeed (r : DispatchRow) (now : Time) : DispatchRow :=
  { r with status := .dispatched, lockedUntil := none, dispatchedAt := some now, lastError := none }

abbrev DispatchRow.fail (r : DispatchRow) (error : String) : DispatchRow :=
  { r with status := .pending, lockedUntil := none, lastError := some error }

namespace Statement

-- Rows ordered by a time. Rows of the same time come in any order.
def orderBy (time : α → Time) (rank : α → Nat) (rows : List α) : List α :=
  rows.insertionSort fun r r' => time r < time r' ∨ time r = time r' ∧ rank r ≤ rank r'

def castTime (t : Timestamp) : Except KernelError Time :=
  match t.timestamptz with
  | some t => .ok t
  | none   => .error (.database .invalidTimestamp)

-- The checks of a unique key, and of a foreign key.
def require (p : Prop) [Decidable p] (e : SqlError) : Except KernelError Unit :=
  if p then .ok () else .error (.database e)

-- PostgreSQL refuses U+0000 in every text that it is sent. This is checked where a text is stored. The
-- others are written by the source itself, or are ids of rows to look up or refer to: since no row has
-- an id with U+0000, the row is missing here, while the statement fails there.
def checkTexts (texts : List String) : Except KernelError Unit :=
  require (∀ text ∈ texts, Storable text) .invalidByteSequence

def checkJson (json : Json) : Except KernelError Unit :=
  require json.Storable .untranslatableCharacter

def reply : (o : Statement) → (now : Time) → Ambient → Db → Except KernelError o.Reply
  | dateNow,    _, amb, _ => .ok amb.dateNow
  | randomUUID, _, amb, _ => .ok amb.uuid
  | insertTenant t, _, _, db => do
    checkTexts [t]
    return t ∉ db.tenants
  | advisoryLock _, _, _, _ => .ok ()
  | selectIdempotency t k, _, _, db => .ok (db.idempotency.find (t, k))
  | insertIdempotency t k e _, now, _, db => do
    checkTexts [k]
    match db.idempotency.find (t, k) with
    | some _ => return none
    | none   =>
      require (t ∈ db.tenants ∧ (db.executions.find e).isSome) .foreignKeyViolation
      return some now
  | selectLatestEvent e, _, _, db => .ok (db.latestEvent e)
  | insertExecution request _, _, _, db => do
    checkTexts request.texts
    checkJson request.requestJson
    let createdAt ← castTime request.createdAt
    require (db.executions.find request.identity.executionId).isNone .uniqueViolation
    require (request.identity.tenantId ∈ db.tenants) .foreignKeyViolation
    return createdAt
  | selectExecutionForUpdate e, _, _, db => .ok (db.executions.find e)
  | selectTenant e, _, _, db => .ok <| (db.executions.find e).map (·.tenantId)
  | updateExecution _ _, now, _, _ => .ok now
  | selectMaxSequence e, _, _, db => .ok (db.maxSequence e)
  | insertEvent event, _, _, db => do
    checkTexts [event.type, event.actorId]
    checkJson event.payload.toJson
    let createdAt ← castTime event.timestamp
    require (db.events.find (event.executionId, event.sequence)).isNone .uniqueViolation
    require (db.executions.find event.executionId).isSome .foreignKeyViolation
    return createdAt
  | insertApproval request, _, _, db => do
    checkTexts [request.approvalId, request.requestedBy, request.reason]
    let createdAt ← castTime request.createdAt
    let expiresAt ← request.expiresAt.mapM castTime
    match db.approvals.find request.approvalId with
    | some _ => return none
    | none   =>
      require ((db.executions.find request.executionId).any (·.tenantId = request.tenantId))
        .foreignKeyViolation
      return some (createdAt, expiresAt)
  | selectApprovalForUpdate a, _, _, db => .ok do
    let row ← db.approvals.find a
    let execution ← db.executions.find row.executionId
    return (row, execution.tenantId)
  | updateApproval _ _ decidedBy decidedAt, now, _, _ => do
    checkTexts [decidedBy]
    match decidedAt with
    | some t => castTime t
    | none   => return now
  | scanApprovals, now, amb, db =>
    let rows := db.approvals.rows.filter fun r =>
      r.Overdue now ∧ (db.executions.find r.executionId).isSome
    .ok <| (orderBy (·.expiresAt.getD 0) (amb.rank ·.approvalId) rows).map fun r =>
      (r.approvalId, r.executionId)
  | lockExecution _, _, amb, _ => .ok <| if amb.skip then .skipped else .locked
  | expireApproval a, now, _, db => .ok <| (db.approvals.find a).map (·.expire now)
  | insertAudit record, _, _, db => do
    checkTexts [record.auditId, record.action, record.actorId, record.reason]
    let createdAt ← castTime record.createdAt
    require (db.audit.find record.auditId).isNone .uniqueViolation
    require (record.tenantId ∈ db.tenants ∧ (db.executions.find record.executionId).isSome)
      .foreignKeyViolation
    return createdAt
  | insertDispatch e _, now, _, db =>
    match db.dispatches.find e with
    | some _ => .ok none
    | none   => do
      require (db.executions.find e).isSome .foreignKeyViolation
      return some now
  | scanDispatches, now, amb, db =>
    let rows := db.dispatches.rows.filter (·.Claimable now)
    .ok <| (orderBy (·.createdAt) (amb.rank ·.executionId) rows).map (·.executionId)
  | lockDispatch e, now, amb, db => .ok <|
    if amb.skip then .skipped
    else if (db.dispatches.find e).any (·.Claimable now) then .locked
    else .dropped
  | claimDispatch e leaseMs, now, _, db => .ok <| (db.dispatches.find e).map (·.claim now leaseMs)
  | updateDispatchSucceeded e, now, _, db => .ok <| (db.dispatches.find e).map fun _ => now
  | updateDispatchFailed e _, _, _, db => .ok (db.dispatches.find e).isSome
  | join ids, _, amb, _ => .ok <| ids.insertionSort (amb.rank · ≤ amb.rank ·)

-- The writes of a statement, given its reply.
def effect : (o : Statement) → o.Reply → Db → Db
  | insertTenant t, true, db => { db with tenants := db.tenants ++ [t] }
  | insertIdempotency t k e h, some now, db =>
    { db with idempotency := db.idempotency.insert ⟨t, k, e, h, now⟩ }
  | insertExecution request status, createdAt, db =>
    { db with executions := db.executions.insert (.of request status createdAt) }
  | updateExecution e status, now, db =>
    { db with executions := db.executions.modify e (·.update status now) }
  | insertEvent event, createdAt, db =>
    { db with events := db.events.insert (.of event createdAt) }
  | insertApproval request, some (createdAt, expiresAt), db =>
    { db with approvals := db.approvals.insert (.of request createdAt expiresAt) }
  | updateApproval a status decidedBy _, decidedAt, db =>
    { db with approvals := db.approvals.modify a (·.decide status decidedBy decidedAt) }
  | expireApproval a, some row, db =>
    { db with
      approvals := db.approvals.modify a fun r =>
        { r with status := row.status, decidedBy := row.decidedBy, decidedAt := row.decidedAt } }
  | insertAudit record, createdAt, db =>
    { db with audit := db.audit.insert (.of record createdAt) }
  | insertDispatch e q, some now, db =>
    { db with dispatches := db.dispatches.insert (.of e q now) }
  | claimDispatch e _, some row, db =>
    { db with
      dispatches := db.dispatches.modify e fun r =>
        { r with
          status := row.status, attempts := row.attempts, lockedUntil := row.lockedUntil, lastError := row.lastError } }
  | updateDispatchSucceeded e, some now, db =>
    { db with dispatches := db.dispatches.modify e (·.succeed now) }
  | updateDispatchFailed e error, true, db =>
    { db with dispatches := db.dispatches.modify e (·.fail error) }
  | _, _, db => db

end Statement
end Logon
