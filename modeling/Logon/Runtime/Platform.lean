import Logon.Database.Isolation
import Logon.Kernel.Service

namespace Logon

-- The transactions of the service and the publisher. A publisher marks the claim it has processed,
-- although all that is used of it is the execution's id.
inductive Call
  | start (request : ExecutionRequest) (requestHash : String) (options : StartExecutionOptions)
  | decideApproval (decision : ApprovalDecision)
  | expireApprovalsOnce (limit : Int)
  | transition (executionId : String) (status : ExecutionStatus) (actorId : String) (payload : Payload)
  | fail (executionId actorId reason : String)
  | claimDispatches (limit leaseMs : Int)
  | markDispatchSucceeded (claim : DispatchClaim)
  | markDispatchFailed (claim : DispatchClaim) (error : String)

namespace Call

abbrev Result : Call → Type
  | start _ _ _             => StartExecutionResult
  | decideApproval _        => DecideApprovalOutcome
  | expireApprovalsOnce _   => ExpireApprovalsResult
  | transition _ _ _ _      => ExecutionEvent
  | fail _ _ _              => ExecutionEvent
  | claimDispatches _ _     => List DispatchClaim
  | markDispatchSucceeded _ => Unit
  | markDispatchFailed _ _  => Unit

def body : (c : Call) → Tx c.Result
  | start request requestHash options => PostgresExecutionService.start request requestHash options
  | decideApproval decision           => PostgresExecutionService.decideApproval decision
  | expireApprovalsOnce limit         => PostgresExecutionService.expireApprovalsOnce limit
  | transition e status actor payload => PostgresExecutionService.transition e status actor payload
  | fail e actor reason               => PostgresExecutionService.fail e actor reason
  | claimDispatches limit leaseMs     => PgExecutionStore.claimDispatches limit leaseMs
  | markDispatchSucceeded claim       => PgExecutionStore.markDispatchSucceeded claim.executionId
  | markDispatchFailed claim error    => PgExecutionStore.markDispatchFailed claim.executionId error

end Call

structure Job where
  jobId       : String
  executionId : String
  deriving DecidableEq

-- The jobs in the queue. None is ever removed, as jobs are retained when they are done.
structure Queue where
  jobs : List Job

namespace Queue

def empty : Queue where
  jobs := []

def Has (q : Queue) (jobId : String) : Prop :=
  ∃ job ∈ q.jobs, job.jobId = jobId

instance (q : Queue) (jobId : String) : Decidable (q.Has jobId) :=
  inferInstanceAs (Decidable (∃ job ∈ q.jobs, _))

-- BullMQ ignores a job whose id is in use.
def add (q : Queue) (job : Job) : Queue :=
  if q.Has job.jobId then q else { jobs := q.jobs ++ [job] }

end Queue

-- What processes do besides transactions. A transaction that consists of a single `select` sees one
-- state of the database and writes nothing, so it is an action.
inductive Action
  | latestEvent (executionId : String)
  | add (job : Job)

namespace Action

abbrev Answer : Action → Type
  | latestEvent _ => Option ExecutionEvent
  | add _         => Unit

-- A failing `add` may have reached the queue nevertheless.
def act : (a : Action) → Ambient → Db → Queue → Except KernelError a.Answer × Queue
  | latestEvent e, amb, db, queue =>
    match amb.failure with
    | none      => (.ok ((db.latestEvent e).map .of), queue)
    | some text => (.error (.database (.other text)), queue)
  | add job, amb, _, queue =>
    match amb.failure with
    | none      => (.ok (), queue.add job)
    | some text => (.error (.enqueue text), if amb.added then queue.add job else queue)

end Action

structure ExecutionOutboxPublishResult where
  claimed    : Nat
  dispatched : Nat
  failed     : Nat
  deriving DecidableEq

-- What the processes of the platform return.
inductive Outcome
  | started (result : StartExecutionResult)
  | decided (decision : ApprovalDecision)
  | swept (result : ExpireApprovalsResult)
  | moved (event : ExecutionEvent)
  | published (result : ExecutionOutboxPublishResult)
  | handled

-- The service, publishers and workers, on one database and one queue.
def platform : System sql Db Resource Ambient KernelError where
  toEngine := engine
  Call     := Call
  Result   := Call.Result
  body     := Call.body
  Action   := Action
  Answer   := Action.Answer
  World    := Queue
  act      := Action.act
  Outcome  := Outcome

abbrev Process := Program platform.outer KernelError

-- `withTransaction`
def transaction (c : Call) : Process c.Result := do
  .ofExcept (← @Program.perform platform.outer KernelError (.inl c))

def perform (a : Action) : Process a.Answer := do
  .ofExcept (← @Program.perform platform.outer KernelError (.inr a))

end Logon
