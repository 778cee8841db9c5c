import Logon.Kernel.Types
import Logon.Library.Table

namespace Logon

structure ExecutionRow where
  executionId  : String
  tenantId     : String
  actorId      : String
  agentId      : String
  agentVersion : String
  objective    : String
  status       : ExecutionStatus
  requestJson  : Json
  createdAt    : Time
  updatedAt    : Time

structure EventRow where
  executionId : String
  sequence    : Nat
  status      : ExecutionStatus
  eventType   : String
  actorId     : String
  payloadJson : Json
  createdAt   : Time

def EventRow.key (r : EventRow) : String × Nat :=
  (r.executionId, r.sequence)

structure ApprovalRow where
  approvalId  : String
  executionId : String
  tenantId    : String
  requestedBy : String
  status      : ApprovalStatus
  reason      : String
  decidedBy   : Option String
  decidedAt   : Option Time
  expiresAt   : Option Time
  createdAt   : Time

structure AuditRow where
  auditId     : String
  executionId : String
  tenantId    : String
  action      : String
  actorId     : String
  allowed     : Bool
  reason      : String
  createdAt   : Time

structure IdempotencyRow where
  tenantId       : String
  idempotencyKey : String
  executionId    : String
  requestHash    : String
  createdAt      : Time

def IdempotencyRow.key (r : IdempotencyRow) : String × String :=
  (r.tenantId, r.idempotencyKey)

inductive DispatchStatus
  | pending
  | processing
  | dispatched
  deriving DecidableEq, Repr

structure DispatchRow where
  executionId  : String
  queueName    : String
  status       : DispatchStatus
  attempts     : Nat
  lockedUntil  : Option Time
  lastError    : Option String
  createdAt    : Time
  dispatchedAt : Option Time

-- The condition `status = 'PENDING' or (status = 'PROCESSING' and locked_until < now())`.
def DispatchRow.Claimable (r : DispatchRow) (now : Time) : Prop :=
  r.status = .pending ∨ (r.status = .processing ∧ ∃ t ∈ r.lockedUntil, t < now)

instance (r : DispatchRow) (now : Time) : Decidable (r.Claimable now) :=
  inferInstanceAs (Decidable (_ ∨ (_ ∧ _)))

-- The condition `status = 'PENDING' and expires_at is not null and expires_at <= now()`.
def ApprovalRow.Overdue (r : ApprovalRow) (now : Time) : Prop :=
  r.status = .pending ∧ ∃ t ∈ r.expiresAt, t ≤ now

instance (r : ApprovalRow) (now : Time) : Decidable (r.Overdue now) :=
  inferInstanceAs (Decidable (_ ∧ _))

-- The columns of an execution that are never written again, as far as they matter.
structure ExecutionRow.Same (r r' : ExecutionRow) : Prop where
  tenantId    : r'.tenantId = r.tenantId
  requestJson : r'.requestJson = r.requestJson

theorem ExecutionRow.Same.refl (r : ExecutionRow) : r.Same r :=
  ⟨rfl, rfl⟩

theorem ExecutionRow.Same.trans {r₁ r₂ r₃ : ExecutionRow} (h₁ : r₁.Same r₂) (h₂ : r₂.Same r₃) : r₁.Same r₃ :=
  ⟨h₂.1.trans h₁.1, h₂.2.trans h₁.2⟩

-- The columns of an approval that are never written again.
structure ApprovalRow.Same (r r' : ApprovalRow) : Prop where
  executionId : r'.executionId = r.executionId
  tenantId    : r'.tenantId = r.tenantId
  expiresAt   : r'.expiresAt = r.expiresAt

theorem ApprovalRow.Same.refl (r : ApprovalRow) : r.Same r :=
  ⟨rfl, rfl, rfl⟩

theorem ApprovalRow.Same.trans {r₁ r₂ r₃ : ApprovalRow} (h₁ : r₁.Same r₂) (h₂ : r₂.Same r₃) : r₁.Same r₃ :=
  ⟨h₂.1.trans h₁.1, h₂.2.trans h₁.2, h₂.3.trans h₁.3⟩

-- The columns of a dispatch that are never written again.
structure DispatchRow.Same (r r' : DispatchRow) : Prop where
  queueName : r'.queueName = r.queueName
  createdAt : r'.createdAt = r.createdAt

theorem DispatchRow.Same.refl (r : DispatchRow) : r.Same r :=
  ⟨rfl, rfl⟩

theorem DispatchRow.Same.trans {r₁ r₂ r₃ : DispatchRow} (h₁ : r₁.Same r₂) (h₂ : r₂.Same r₃) : r₁.Same r₃ :=
  ⟨h₂.1.trans h₁.1, h₂.2.trans h₁.2⟩

-- The tables that the kernel and the queue use.
structure Db where
  tenants     : List String
  executions  : Table ExecutionRow.executionId
  events      : Table EventRow.key
  approvals   : Table ApprovalRow.approvalId
  audit       : Table AuditRow.auditId
  idempotency : Table IdempotencyRow.key
  dispatches  : Table DispatchRow.executionId

namespace Db

def empty : Db where
  tenants     := []
  executions  := .empty
  events      := .empty
  approvals   := .empty
  audit       := .empty
  idempotency := .empty
  dispatches  := .empty

-- The events of an execution, in the order in which they were appended.
def eventsOf (db : Db) (executionId : String) : List EventRow :=
  db.events.rows.filter (·.executionId = executionId)

-- `select coalesce(max(sequence), 0)`
def maxSequence (db : Db) (executionId : String) : Nat :=
  (db.eventsOf executionId).foldl (fun n ev => max n ev.sequence) 0

-- `order by sequence desc limit 1`
def latestEvent (db : Db) (executionId : String) : Option EventRow :=
  (db.eventsOf executionId).find? (·.sequence = db.maxSequence executionId)

def auditOf (db : Db) (executionId : String) : List AuditRow :=
  db.audit.rows.filter (·.executionId = executionId)

end Db
end Logon
