import Logon.Kernel.Json
import Logon.Kernel.StateMachine
import Logon.Library.System

namespace Logon

-- A date and time as a text: either the one that `toISOString` writes for an instant, or any other
-- one, together with whether `z.string().datetime()` accepts it, and which instant PostgreSQL reads
-- in it (if any).
inductive Timestamp
  | iso (t : Time)
  | other (text : String) (datetime : Bool) (timestamptz : Option Time)

namespace Timestamp

def pad (width : Nat) (n : Int) : String :=
  let digits := toString n.toNat
  String.ofList (List.replicate (width - digits.length) '0') ++ digits

-- The proleptic Gregorian calendar, computed in eras of 400 years that begin on the first of March.
def toISOString (t : Time) : String :=
  let day   := t / 86400000 + 719468
  let era   := day / 146097
  let doe   := day % 146097
  let yoe   := (doe - doe / 1460 + doe / 36524 - doe / 146096) / 365
  let doy   := doe - (365 * yoe + yoe / 4 - yoe / 100)
  let mp    := (5 * doy + 2) / 153
  let month := if mp < 10 then mp + 3 else mp - 9
  let year  := yoe + era * 400 + (if month ≤ 2 then 1 else 0)
  let ms    := t % 86400000
  let years :=
    if 0 ≤ year ∧ year ≤ 9999 then pad 4 year
    else if 0 ≤ year then "+" ++ pad 6 year
    else "-" ++ pad 6 (-year)
  years ++ "-" ++ pad 2 month ++ "-" ++ pad 2 (doy - (153 * mp + 2) / 5 + 1) ++
    "T" ++ pad 2 (ms / 3600000) ++ ":" ++ pad 2 (ms / 60000 % 60) ++ ":" ++ pad 2 (ms / 1000 % 60) ++
    "." ++ pad 3 (ms % 1000) ++ "Z"

def text : Timestamp → String
  | iso t          => toISOString t
  | other text _ _ => text

-- The beginnings of the years 0, 1 and 10000.

def YEAR_0 : Time :=
  -62167219200000

def YEAR_1 : Time :=
  -62135596800000

def YEAR_10000 : Time :=
  253402300800000

example : toISOString (YEAR_1 - 1) = "0000-12-31T23:59:59.999Z" := by decide

example : toISOString YEAR_10000 = "+010000-01-01T00:00:00.000Z" := by decide

-- Years have four digits.
def datetime : Timestamp → Bool
  | iso t              => YEAR_0 ≤ t ∧ t < YEAR_10000
  | other _ datetime _ => datetime

-- The cast `::timestamptz` reads years of four digits, and no year 0.
def Legible (t : Time) : Prop :=
  YEAR_1 ≤ t ∧ t < YEAR_10000

instance (t : Time) : Decidable (Legible t) :=
  inferInstanceAs (Decidable (_ ∧ _))

def timestamptz : Timestamp → Option Time
  | iso t                 => if Legible t then some t else none
  | other _ _ timestamptz => timestamptz

@[simp]
theorem timestamptz_iso {t c : Time} : (iso t).timestamptz = some c ↔ Legible t ∧ t = c := by
  simp [timestamptz]

end Timestamp

-- What `String.prototype.trim` removes.
def isBlank (c : Char) : Bool :=
  let n := c.toNat
  (9 ≤ n && n ≤ 13) || n = 0x20 || n = 0xA0 || n = 0x1680 || (0x2000 ≤ n && n ≤ 0x200A) ||
    n = 0x2028 || n = 0x2029 || n = 0x202F || n = 0x205F || n = 0x3000 || n = 0xFEFF

-- The condition `!s.trim()`.
def blank (s : String) : Bool :=
  s.toList.all isBlank

-- What PostgreSQL can store as a `text`: it refuses the byte 0, and so the character U+0000.
def Storable (text : String) : Prop :=
  0 ∉ text.toUTF8.data.toList

instance (text : String) : Decidable (Storable text) :=
  inferInstanceAs (Decidable (_ ∉ _))

@[simp]
theorem storable_append {s t : String} : Storable (s ++ t) ↔ Storable s ∧ Storable t := by
  simp [Storable]

-- What it can store as a `jsonb`.
def Json.Storable (json : Json) : Prop :=
  ∀ text ∈ json.strings, Logon.Storable text

instance (json : Json) : Decidable json.Storable :=
  inferInstanceAs (Decidable (∀ text ∈ json.strings, _))

abbrev Payload := List (String × JsValue)

structure ExecutionIdentity where
  executionId  : String
  tenantId     : String
  actorId      : String
  agentId      : String
  agentVersion : String

structure ExecutionRequest where
  identity         : ExecutionIdentity
  objective        : String
  context          : Payload
  policySet        : List String
  requestedTools   : List String
  requiresApproval : Bool
  evidenceRequired : Bool
  createdAt        : Timestamp

structure ExecutionEvent where
  executionId : String
  sequence    : Nat
  type        : String
  status      : ExecutionStatus
  timestamp   : Timestamp
  actorId     : String
  payload     : Payload

structure AuditRecord where
  auditId     : String
  executionId : String
  tenantId    : String
  action      : String
  actorId     : String
  allowed     : Bool
  reason      : String
  createdAt   : Timestamp

inductive ApprovalStatus
  | pending
  | approved
  | rejected
  | expired
  deriving DecidableEq, Repr

inductive ApprovalDecisionStatus
  | approved
  | rejected
  deriving DecidableEq, Repr

def ApprovalDecisionStatus.toStatus : ApprovalDecisionStatus → ApprovalStatus
  | approved => .approved
  | rejected => .rejected

def ApprovalStatus.text : ApprovalStatus → String
  | pending  => "PENDING"
  | approved => "APPROVED"
  | rejected => "REJECTED"
  | expired  => "EXPIRED"

-- `toLowerCase` on the name of a decision
def ApprovalDecisionStatus.lowerText : ApprovalDecisionStatus → String
  | approved => "approved"
  | rejected => "rejected"

structure ApprovalRequest where
  approvalId  : String
  executionId : String
  tenantId    : String
  requestedBy : String
  reason      : String
  createdAt   : Timestamp
  expiresAt   : Option Timestamp

structure ApprovalDecision where
  approvalId  : String
  executionId : String
  status      : ApprovalDecisionStatus
  decidedBy   : String
  decidedAt   : Timestamp
  reason      : Option String

namespace ExecutionRequest

-- The request as the object that `executionRequestSchema` returns.
def toJs (r : ExecutionRequest) : JsValue :=
  .object [
    ("identity", .object [
      ("executionId", .string r.identity.executionId),
      ("tenantId", .string r.identity.tenantId),
      ("actorId", .string r.identity.actorId),
      ("agentId", .string r.identity.agentId),
      ("agentVersion", .string r.identity.agentVersion)
    ]),
    ("objective", .string r.objective),
    ("context", .object r.context),
    ("policySet", .array (r.policySet.map .string)),
    ("requestedTools", .array (r.requestedTools.map .string)),
    ("requiresApproval", .bool r.requiresApproval),
    ("evidenceRequired", .bool r.evidenceRequired),
    ("createdAt", .string r.createdAt.text)
  ]

-- What is stored for the request.
abbrev requestJson (r : ExecutionRequest) : Json :=
  r.toJs.toJson.getD .null

-- The texts of a request that have columns of their own
def texts (r : ExecutionRequest) : List String :=
  [r.identity.executionId, r.identity.tenantId, r.identity.actorId, r.identity.agentId, r.identity.agentVersion,
    r.objective]

-- The checks of `executionRequestSchema`.
def Valid (r : ExecutionRequest) : Prop :=
  r.identity.executionId ≠ "" ∧ r.identity.tenantId ≠ "" ∧ r.identity.actorId ≠ "" ∧
  r.identity.agentId ≠ "" ∧ r.identity.agentVersion ≠ "" ∧ r.objective ≠ "" ∧ r.createdAt.datetime

instance (r : ExecutionRequest) : Decidable r.Valid :=
  inferInstanceAs (Decidable (_ ∧ _))

end ExecutionRequest

-- `JSON.stringify` on a record, read as `jsonb`.
def Payload.toJson (p : Payload) : Json :=
  .object (JsValue.toJsonMembers p)

-- A `jsonb` column that is read as a record. Anything but an object has no members.
def Payload.ofJson : Json → Payload
  | .object ms => JsValue.ofJsonMembers ms
  | _          => []

structure PolicyDecision where
  allowed          : Bool
  requiresApproval : Bool
  reason           : String

def evaluateExecutionPolicy (request : ExecutionRequest) : PolicyDecision :=
  if blank request.objective then
    ⟨false, false, "Objective is required."⟩
  else
    ⟨true, request.requiresApproval, "Execution request satisfies baseline kernel policy."⟩

-- What a statement may fail with. `other` stands for everything that can happen to a connection.
inductive SqlError
  | uniqueViolation
  | foreignKeyViolation
  | invalidTimestamp
  | invalidByteSequence
  | untranslatableCharacter
  | other (text : String)
  deriving DecidableEq, Repr

-- The errors of the kernel and the queue, one per place that throws.
inductive KernelError
  | invalidRequest
  | cannotCanonicalize
  | idempotencyConflict (key : String)
  | idempotentExecutionHasNoEvents (executionId : String)
  | idempotencyRecordMissing (key : String)
  | executionNotFound (executionId : String)
  | notInApproval (executionId : String) (status : ExecutionStatus)
  | approvalNotFound (approvalId : String)
  | approvalExecutionMismatch (approvalId executionId : String)
  | approvalNotPending (approvalId : String)
  | approvalExpired (approvalId : String)
  | decisionWithoutResult
  | invalidExecutionTransition (src dst : ExecutionStatus)
  | cannotFailTerminal (executionId : String)
  | unsupportedQueue (queueName : String)
  | executionIdRequired
  | unknownExecution (executionId : String)
  | stillRequiresApproval (executionId : String)
  | enqueue (text : String)
  | database (e : SqlError)
  deriving DecidableEq, Repr

namespace KernelError

-- Errors that only the worker throws.
def ofWorker : KernelError → Bool
  | unknownExecution _      => true
  | stillRequiresApproval _ => true
  | _                       => false

def message : KernelError → String
  | invalidRequest                   => "Invalid execution request"
  | cannotCanonicalize               => "Cannot canonicalize undefined JSON input"
  | idempotencyConflict key          => "Idempotency key reuse with a different request: " ++ key
  | idempotentExecutionHasNoEvents e => "Idempotent execution has no events: " ++ e
  | idempotencyRecordMissing key     => "Idempotency record missing after insert: " ++ key
  | executionNotFound e              => "Execution not found: " ++ e
  | notInApproval e s                =>
    "Cannot decide approval for execution not in APPROVAL: " ++ e ++ " (status=" ++ s.text ++ ")"
  | approvalNotFound a               => "Approval not found: " ++ a
  | approvalExecutionMismatch a e    => "Approval " ++ a ++ " is not bound to execution " ++ e
  | approvalNotPending a             => "Approval is not pending: " ++ a
  | approvalExpired a                => "Approval has expired: " ++ a
  | decisionWithoutResult            => "Approval decision produced no result"
  | invalidExecutionTransition s d   => "Invalid execution transition: " ++ s.text ++ " -> " ++ d.text
  | cannotFailTerminal e             => "Cannot fail terminal execution: " ++ e
  | unsupportedQueue q               => "Unsupported execution queue: " ++ q
  | executionIdRequired              => "executionId is required"
  | unknownExecution e               => "Unknown execution: " ++ e
  | stillRequiresApproval e          =>
    "Execution still requires approval and must not be dispatched: " ++ e
  | enqueue text                     => text
  | database .uniqueViolation        => "duplicate key value violates unique constraint"
  | database .foreignKeyViolation    => "insert or update violates foreign key constraint"
  | database .invalidTimestamp       => "invalid input syntax for type timestamp with time zone"
  | database .invalidByteSequence    => "invalid byte sequence for encoding \"UTF8\": 0x00"
  | database .untranslatableCharacter => "unsupported Unicode escape sequence"
  | database (.other text)           => text

-- The code that a `LogonError` carries. Other errors carry none.
def code : KernelError → Option String
  | idempotencyConflict _          => some "IDEMPOTENCY_CONFLICT"
  | approvalExpired _              => some "APPROVAL_EXPIRED"
  | approvalExecutionMismatch _ _  => some "APPROVAL_EXECUTION_MISMATCH"
  | approvalNotPending _           => some "APPROVAL_NOT_PENDING"
  | invalidExecutionTransition _ _ => some "INVALID_TRANSITION"
  | executionNotFound _            => some "EXECUTION_NOT_FOUND"
  | approvalNotFound _             => some "APPROVAL_NOT_FOUND"
  | _                              => none

end KernelError
end Logon
