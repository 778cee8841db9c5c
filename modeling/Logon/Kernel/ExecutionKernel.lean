import Mathlib.Logic.Function.Basic
import Logon.Kernel.Types

-- The kernel that keeps everything in memory.

namespace Logon

-- A map of which only lookups and insertions matter. An execution without events has no entry.
structure InMemoryEventLog where
  events : String → List ExecutionEvent

namespace InMemoryEventLog

def empty : InMemoryEventLog where
  events := fun _ => []

-- The event comes without its sequence.
def append (log : InMemoryEventLog) (event : ExecutionEvent) : ExecutionEvent × InMemoryEventLog :=
  let current := log.events event.executionId
  let stored := { event with sequence := current.length + 1 }
  (stored, { events := Function.update log.events event.executionId (current ++ [stored]) })

def list (log : InMemoryEventLog) (executionId : String) : List ExecutionEvent :=
  log.events executionId

def latestStatus (log : InMemoryEventLog) (executionId : String) : Option ExecutionStatus :=
  (log.list executionId).getLast?.map (·.status)

end InMemoryEventLog

def InMemoryAuditLog.listByExecution (records : List AuditRecord) (executionId : String) : List AuditRecord :=
  records.filter (·.executionId = executionId)

structure ExecutionKernel where
  events : InMemoryEventLog
  audit  : List AuditRecord

namespace ExecutionKernel

def new : ExecutionKernel where
  events := .empty
  audit  := []

inductive Error
  | invalidRequest
  | invalidTransition (src dst : ExecutionStatus)

-- What a method does. What it has done stays done if it throws.
abbrev Method := ExceptT Error (StateM ExecutionKernel)

-- What the runtime generates for a call.
structure Moment where
  auditId   : String
  auditedAt : Time
  now       : Time

def append (moment : Moment) (status : ExecutionStatus) (executionId actorId : String) (payload : Payload) :
    Method ExecutionEvent := do
  let kernel ← get
  let (stored, events) := kernel.events.append {
    executionId := executionId
    status      := status
    type        := "EXECUTION_" ++ status.text
    timestamp   := .iso moment.now
    actorId     := actorId
    payload     := payload
    sequence    := 0
  }
  set { kernel with events := events }
  return stored

def transition (moment : Moment) (executionId : String) (status : ExecutionStatus) (actorId : String)
    (payload : Payload) : Method ExecutionEvent := do
  match (← get).events.latestStatus executionId with
  | some current =>
    if current.canTransition status then
      append moment status executionId actorId payload
    else
      throw (.invalidTransition current status)
  | none => append moment status executionId actorId payload

def start (moment : Moment) (request : ExecutionRequest) : Method ExecutionEvent := do
  if request.Valid then
    let decision := evaluateExecutionPolicy request
    modify fun kernel => { kernel with
      audit := kernel.audit ++ [{
        auditId     := moment.auditId
        executionId := request.identity.executionId
        tenantId    := request.identity.tenantId
        action      := "EXECUTION_POLICY_CHECK"
        actorId     := request.identity.actorId
        allowed     := decision.allowed
        reason      := decision.reason
        createdAt   := .iso moment.auditedAt
      }] }
    if !decision.allowed then
      transition moment request.identity.executionId .rejected request.identity.actorId [
        ("reason", .string decision.reason)
      ]
    else
      append moment .intake request.identity.executionId request.identity.actorId [
        ("objective", .string request.objective),
        ("agentId", .string request.identity.agentId),
        ("agentVersion", .string request.identity.agentVersion)
      ]
  else
    throw .invalidRequest

def fail (moment : Moment) (executionId actorId reason : String) : Method ExecutionEvent := do
  match (← get).events.latestStatus executionId with
  | some current =>
    if ¬current.Terminal then
      transition moment executionId .failed actorId [("reason", .string reason)]
    else
      append moment .failed executionId actorId [("reason", .string reason)]
  | none => append moment .failed executionId actorId [("reason", .string reason)]

end ExecutionKernel

-- The calls that both kernels offer.
inductive KernelCall
  | start (request : ExecutionRequest)
  | transition (executionId : String) (status : ExecutionStatus) (actorId : String) (payload : Payload)
  | fail (executionId actorId reason : String)

namespace KernelCall

def method (moment : ExecutionKernel.Moment) : KernelCall → ExecutionKernel.Method ExecutionEvent
  | start request                       => ExecutionKernel.start moment request
  | transition e status actorId payload => ExecutionKernel.transition moment e status actorId payload
  | fail e actorId reason               => ExecutionKernel.fail moment e actorId reason

-- What a call returns or throws, and the kernel after it.
def result (c : KernelCall) (moment : ExecutionKernel.Moment) (kernel : ExecutionKernel) :
    Except ExecutionKernel.Error ExecutionEvent :=
  ((c.method moment).run.run kernel).fst

def apply (c : KernelCall) (moment : ExecutionKernel.Moment) (kernel : ExecutionKernel) : ExecutionKernel :=
  ((c.method moment).run.run kernel).snd

end KernelCall

namespace ExecutionKernel

def list (kernel : ExecutionKernel) (executionId : String) : List ExecutionEvent :=
  kernel.events.list executionId

def latestStatus (kernel : ExecutionKernel) (executionId : String) : Option ExecutionStatus :=
  kernel.events.latestStatus executionId

-- The kernel with one event more.
def add (kernel : ExecutionKernel) (event : ExecutionEvent) : ExecutionKernel :=
  { kernel with events := (kernel.events.append event).snd }

-- The event as it is stored.
def stored (kernel : ExecutionKernel) (event : ExecutionEvent) : ExecutionEvent :=
  (kernel.events.append event).fst

def event (moment : Moment) (status : ExecutionStatus) (executionId actorId : String) (payload : Payload) :
    ExecutionEvent where
  executionId := executionId
  status      := status
  type        := "EXECUTION_" ++ status.text
  timestamp   := .iso moment.now
  actorId     := actorId
  payload     := payload
  sequence    := 0

variable {kernel : ExecutionKernel} {moment : Moment}

theorem append_run : (append moment status e actorId payload).run.run kernel =
    (.ok (kernel.stored (event moment status e actorId payload)), kernel.add (event moment status e actorId payload)) :=
  rfl

theorem transition_run : (transition moment e status actorId payload).run.run kernel =
    match kernel.latestStatus e with
    | some current =>
      if current.canTransition status then
        (append moment status e actorId payload).run.run kernel
      else
        (.error (.invalidTransition current status), kernel)
    | none => (append moment status e actorId payload).run.run kernel := by
  change (match kernel.latestStatus e with
    | some current =>
      if current.canTransition status then append moment status e actorId payload
      else throw (Error.invalidTransition current status)
    | none => append moment status e actorId payload : Method ExecutionEvent).run.run kernel = _
  split
  case h_1 => split <;> rfl
  case h_2 => rfl

-- However an execution is doing, it gets an event of its failure.
theorem fail_run : (fail moment e actorId reason).run.run kernel =
    (append moment .failed e actorId [("reason", .string reason)]).run.run kernel := by
  change (match kernel.latestStatus e with
    | some current =>
      if ¬current.Terminal then transition moment e .failed actorId [("reason", .string reason)]
      else append moment .failed e actorId [("reason", .string reason)]
    | none => append moment .failed e actorId [("reason", .string reason)] : Method ExecutionEvent).run.run kernel = _
  split
  case h_2 => rfl
  case h_1 current h =>
    split
    case isTrue ht =>
      have hc := ExecutionStatus.canTransition_failed_iff.mpr ht
      simp only [transition_run, h, hc, if_true]
    case isFalse => rfl

-- The kernel with the audit record of a started execution.
def audited (kernel : ExecutionKernel) (moment : Moment) (request : ExecutionRequest) : ExecutionKernel :=
  { kernel with
    audit := kernel.audit ++ [{
      auditId     := moment.auditId
      executionId := request.identity.executionId
      tenantId    := request.identity.tenantId
      action      := "EXECUTION_POLICY_CHECK"
      actorId     := request.identity.actorId
      allowed     := (evaluateExecutionPolicy request).allowed
      reason      := (evaluateExecutionPolicy request).reason
      createdAt   := .iso moment.auditedAt
    }] }

theorem start_run_invalid {request : ExecutionRequest} (h : ¬request.Valid) :
    (start moment request).run.run kernel = (.error .invalidRequest, kernel) := by
  rw [start, if_neg h]
  rfl

theorem start_run {request : ExecutionRequest} (h : request.Valid) :
    (start moment request).run.run kernel =
    if (evaluateExecutionPolicy request).allowed then
      (append moment .intake request.identity.executionId request.identity.actorId [
        ("objective", .string request.objective),
        ("agentId", .string request.identity.agentId),
        ("agentVersion", .string request.identity.agentVersion)
      ]).run.run (kernel.audited moment request)
    else
      (transition moment request.identity.executionId .rejected request.identity.actorId [
        ("reason", .string (evaluateExecutionPolicy request).reason)
      ]).run.run (kernel.audited moment request) := by
  rw [start, if_pos h]
  change (if !(evaluateExecutionPolicy request).allowed then
      transition moment request.identity.executionId .rejected request.identity.actorId [
        ("reason", .string (evaluateExecutionPolicy request).reason)
      ]
    else
      append moment .intake request.identity.executionId request.identity.actorId [
        ("objective", .string request.objective),
        ("agentId", .string request.identity.agentId),
        ("agentVersion", .string request.identity.agentVersion)
      ] : Method ExecutionEvent).run.run (kernel.audited moment request) = _
  cases (evaluateExecutionPolicy request).allowed <;> rfl

end ExecutionKernel
end Logon
