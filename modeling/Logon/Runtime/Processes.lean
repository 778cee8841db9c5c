import Logon.Runtime.Platform

namespace Logon

-- Functions of the JavaScript runtime.
structure Host where
  sha256        : String → String
  localeCompare : String → String → Ordering

namespace PostgresExecutionService

def requestHash (host : Host) (request : ExecutionRequest) : Option String :=
  (request.toJs.canonicalJson host.localeCompare).map host.sha256

namespace Process

def start (host : Host) (rawRequest : ExecutionRequest) (options : StartExecutionOptions) :
    Process StartExecutionResult :=
  if rawRequest.Valid then
    match requestHash host rawRequest with
    | none      => throw .cannotCanonicalize
    | some hash => transaction (.start rawRequest hash options)
  else
    throw .invalidRequest

def decideApproval (decision : ApprovalDecision) : Process ApprovalDecision := do
  let outcome ← transaction (.decideApproval decision)
  match outcome.expiredError, outcome.result with
  | some error, _           => throw error
  | none,       none        => throw .decisionWithoutResult
  | none,       some result => return result

def expireApprovalsOnce (limit : Int) : Process ExpireApprovalsResult :=
  transaction (.expireApprovalsOnce limit)

def transition (executionId : String) (status : ExecutionStatus) (actorId : String)
    (payload : Payload) : Process ExecutionEvent :=
  transaction (.transition executionId status actorId payload)

def fail (executionId actorId reason : String) : Process ExecutionEvent :=
  transaction (.fail executionId actorId reason)

end Process
end PostgresExecutionService

def EXECUTION_QUEUE_NAME : String :=
  "logon.execution"

-- `ExecutionQueue.enqueue`
def enqueue (executionId : String) : Process Unit :=
  if blank executionId then
    throw .executionIdRequired
  else
    perform (.add { jobId := executionId, executionId := executionId })

structure ExecutionOutboxPublisherOptions where
  batchSize : Option Int
  leaseMs   : Option Int

structure ExecutionOutboxPublisher where
  batchSize : Int
  leaseMs   : Int

namespace ExecutionOutboxPublisher

def new (options : ExecutionOutboxPublisherOptions) : ExecutionOutboxPublisher where
  batchSize := clamp (options.batchSize.getD 20) 1 100
  leaseMs   := clamp (options.leaseMs.getD 30000) 1000 300000

-- Processes one claim. The result is whether it was dispatched.
def publish (claim : DispatchClaim) : Process Bool :=
  Program.tryCatch (do
    if claim.queueName ≠ EXECUTION_QUEUE_NAME then
      throw (.unsupportedQueue claim.queueName)
    else
      enqueue claim.executionId
      transaction (.markDispatchSucceeded claim)
      return true)
  fun error => do
    transaction (.markDispatchFailed claim error.message)
    return false

def publishAll : List DispatchClaim → Nat → Nat → Process (Nat × Nat)
  | [],              dispatched, failed => return (dispatched, failed)
  | claim :: claims, dispatched, failed => do
    if ← publish claim then
      publishAll claims (dispatched + 1) failed
    else
      publishAll claims dispatched (failed + 1)

def publishOnce (publisher : ExecutionOutboxPublisher) : Process ExecutionOutboxPublishResult := do
  let claims ← transaction (.claimDispatches publisher.batchSize publisher.leaseMs)
  let (dispatched, failed) ← publishAll claims 0 0
  return { claimed := claims.length, dispatched := dispatched, failed := failed }

end ExecutionOutboxPublisher

open PostgresExecutionService in
-- `createControlledExecutionHandler`
def controlledExecutionHandler (actorId : String) (executionId : String) : Process Unit := do
  if blank executionId then
    throw .executionIdRequired
  else
    match ← perform (.latestEvent executionId) with
    | none => throw (.unknownExecution executionId)
    | some latest =>
      if latest.status.Terminal then
        return
      else if latest.status = .approval then
        throw (.stillRequiresApproval executionId)
      else if latest.status = .intake then
        Program.tryCatch (do
          let _ ← Process.transition executionId .context actorId [
            ("source", .string "controlled-execution-handler"),
            ("reason", .string "Worker accepted execution and advanced controlled lifecycle")
          ])
          fun
            | .invalidExecutionTransition src dst => do
              let afterRace ← perform (.latestEvent executionId)
              if afterRace.map (·.status) ≠ some .context then
                throw (.invalidExecutionTransition src dst)
            | error => throw error
      else
        return

end Logon
