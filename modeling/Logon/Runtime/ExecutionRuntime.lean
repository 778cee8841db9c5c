import Logon.Runtime.Polling

-- The runtime owns a dispatcher, a sweeper and a worker, and stops them one after the other.

namespace Logon

structure ExecutionRuntimeOptions where
  pollIntervalMs          : Option Int
  maxBackoffMs            : Option Int
  approvalSweepIntervalMs : Option Int
  approvalSweepBatchSize  : Option Int
  enableApprovalSweeper   : Option Bool

namespace ExecutionRuntimeOptions

variable (options : ExecutionRuntimeOptions)

def dispatcher : ExecutionOutboxDispatcher :=
  .new ⟨options.pollIntervalMs, options.maxBackoffMs⟩

def approvalSweeper : ApprovalExpirySweeper :=
  .new ⟨options.approvalSweepIntervalMs, options.approvalSweepBatchSize⟩

end ExecutionRuntimeOptions

-- What `stop` waits for
inductive Stage
  | approvalSweeper
  | dispatcher
  | worker
  | publisher
  deriving DecidableEq, Repr

-- A call of `stop` that has not ended.
structure Stopping where
  stage : Stage
  -- Whether its stage has been resolved
  done  : Bool
  -- The stages that follow
  rest  : List Stage
  deriving DecidableEq, Repr

-- What is going on in the dispatcher and in the sweeper when the queue is closed, and what has begun by then.
structure Closing where
  running  : Bool
  inFlight : Nat
  sweeps   : Nat
  begun    : Nat
  deriving DecidableEq, Repr

structure ExecutionRuntime where
  started         : Bool
  dispatcher      : Poller Int
  approvalSweeper : Option (Poller Unit)
  stops           : List Stopping
  -- History: the calls of `publisher.close`
  closings        : List Closing
  -- History: how many publishes and sweeps had begun when the first `stop` since the last `start` ended
  resolved        : Option Nat

namespace ExecutionRuntime

def new (options : ExecutionRuntimeOptions) : ExecutionRuntime where
  started         := false
  dispatcher      := .new 0
  approvalSweeper := if options.enableApprovalSweeper ≠ some false then some <| .new () else none
  stops           := []
  closings        := []
  resolved        := none

def begun (r : ExecutionRuntime) : Nat :=
  r.dispatcher.begun + (r.approvalSweeper.map (·.begun)).getD 0

-- The sweeps in progress
def sweeps (r : ExecutionRuntime) : Nat :=
  (r.approvalSweeper.map (·.inFlight)).getD 0

def start (r : ExecutionRuntime) : ExecutionRuntime :=
  if r.started then
    { r with resolved := none }
  else
    { r with
      started         := true
      dispatcher      := r.dispatcher.start
      approvalSweeper := r.approvalSweeper.map Poller.start
      resolved        := none }

-- What happens as soon as `stop` comes to a stage. Closing the worker does not touch anything else.
def enter (r : ExecutionRuntime) : Stage → ExecutionRuntime
  | .approvalSweeper => { r with approvalSweeper := r.approvalSweeper.map Poller.halt }
  | .dispatcher      => { r with dispatcher := r.dispatcher.halt }
  | .worker          => r
  | .publisher       => { r with closings := r.closings ++ [⟨r.dispatcher.running, r.dispatcher.inFlight, r.sweeps, r.begun⟩] }

-- What `stop` does from one `await` to the next.
def await (r : ExecutionRuntime) (stage : Stage) (rest : List Stage) : ExecutionRuntime :=
  { r.enter stage with stops := r.stops ++ [⟨stage, false, rest⟩] }

def stop (r : ExecutionRuntime) : ExecutionRuntime :=
  if r.started then
    { r with started := false }.await .approvalSweeper [.dispatcher, .worker, .publisher]
  else
    r.await .approvalSweeper [.worker, .publisher]

-- The dispatcher and the sweeper let `stop` wait until they are not busy.
def Resolves (r : ExecutionRuntime) : Stage → Prop
  | .approvalSweeper => ∀ p ∈ r.approvalSweeper, p.busy = false
  | .dispatcher      => r.dispatcher.busy = false
  | .worker          => True
  | .publisher       => True

inductive Use
  | start
  | stop
  deriving DecidableEq, Repr

def use : Use → ExecutionRuntime → ExecutionRuntime
  | .start, r => r.start
  | .stop,  r => r.stop

-- What can happen next, if the users of the runtime are as careful as required. Closing the worker or
-- the queue can fail.
inductive Step (options : ExecutionRuntimeOptions) (Careful : ExecutionRuntime → Use → Prop) (r : ExecutionRuntime) :
    ExecutionRuntime → Prop
  | use (u : Use) : Careful r u → Step options Careful r (r.use u)
  | publish {p : Poller Int} :
    r.dispatcher.Turn options.dispatcher.next p → Step options Careful r { r with dispatcher := p }
  | sweep {p p' : Poller Unit} :
    r.approvalSweeper = some p → p.Turn options.approvalSweeper.next p' →
    Step options Careful r { r with approvalSweeper := some p' }
  | resolve {l₁ l₂ : List Stopping} {stage : Stage} {rest : List Stage} :
    r.stops = l₁ ++ ⟨stage, false, rest⟩ :: l₂ → r.Resolves stage →
    Step options Careful r { r with stops := l₁ ++ ⟨stage, true, rest⟩ :: l₂ }
  | fail {l₁ l₂ : List Stopping} {stage : Stage} {rest : List Stage} :
    r.stops = l₁ ++ ⟨stage, false, rest⟩ :: l₂ → stage = .worker ∨ stage = .publisher →
    Step options Careful r { r with stops := l₁ ++ l₂ }
  | proceed {l₁ l₂ : List Stopping} {stage next : Stage} {rest : List Stage} :
    r.stops = l₁ ++ ⟨stage, true, next :: rest⟩ :: l₂ →
    Step options Careful r (await { r with stops := l₁ ++ l₂ } next rest)
  | finish {l₁ l₂ : List Stopping} {stage : Stage} :
    r.stops = l₁ ++ ⟨stage, true, []⟩ :: l₂ →
    Step options Careful r { r with stops := l₁ ++ l₂, resolved := some <| r.resolved.getD r.begun }

abbrev Steps (options : ExecutionRuntimeOptions) (Careful : ExecutionRuntime → Use → Prop) :
    ExecutionRuntime → ExecutionRuntime → Prop :=
  Relation.ReflTransGen (Step options Careful)

end ExecutionRuntime
end Logon
