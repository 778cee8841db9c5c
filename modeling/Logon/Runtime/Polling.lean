import Mathlib.Logic.Relation
import Logon.Kernel.Store

-- The two objects that do something again and again: the dispatcher publishes, the sweeper sweeps.

namespace Logon

-- How a call of `publishOnce` or `expireApprovalsOnce` ends. A sweep has no failures.
inductive TickOutcome
  | result (failed : Nat)
  | thrown
  deriving DecidableEq, Repr

-- Where an asynchronous call of `runOnce` has come to.
inductive Phase
  -- It waits for its publish or sweep.
  | working
  -- Its publish or sweep has ended, and `finally` comes next.
  | settled (outcome : TickOutcome)
  -- It has returned, and its caller comes next.
  | returned (outcome : TickOutcome)
  deriving DecidableEq, Repr

structure Activity where
  -- Whether the caller is a tick
  tick  : Bool
  phase : Phase
  deriving DecidableEq, Repr

structure Timer where
  handle  : Nat
  delayMs : Int
  deriving DecidableEq, Repr

-- The fields of a dispatcher or a sweeper, whose `busy` is called `publishing` or `sweeping`, and what
-- the event loop holds for it.
structure Poller (β : Type) where
  running : Bool
  busy    : Bool
  timer   : Option Nat
  backoff : β
  -- The timers that have been set, and have neither fired nor been cleared.
  armed   : List Timer
  handles : Nat
  -- The calls of `runOnce` that have not ended.
  calls   : List Activity
  -- How many publishes or sweeps have begun
  begun   : Nat
  deriving DecidableEq, Repr

namespace Poller

variable {β : Type}

def new (backoff : β) : Poller β where
  running := false
  busy    := false
  timer   := none
  backoff := backoff
  armed   := []
  handles := 0
  calls   := []
  begun   := 0

def schedule (p : Poller β) (delayMs : Int) : Poller β :=
  if p.running then
    { p with
      timer   := some p.handles
      armed   := p.armed ++ [⟨p.handles, delayMs⟩]
      handles := p.handles + 1 }
  else p

def start (p : Poller β) : Poller β :=
  if p.running then p else { p with running := true }.schedule 0

-- What `stop` does before it waits until the poller is not busy any more.
def halt (p : Poller β) : Poller β :=
  match p.timer with
  | none        => { p with running := false }
  | some handle =>
    { p with
      running := false
      timer   := none
      armed   := p.armed.filter (·.handle ≠ handle) }

-- The first part of `runOnce`, which returns at once if the poller is busy.
def runOnce (p : Poller β) (tick : Bool) : Poller β :=
  if p.busy then
    { p with calls := p.calls ++ [⟨tick, .returned (.result 0)⟩] }
  else
    { p with
      busy  := true
      calls := p.calls ++ [⟨tick, .working⟩]
      begun := p.begun + 1 }

-- The first part of `tick`.
def tick (p : Poller β) : Poller β :=
  let p := { p with timer := none }
  if p.running then p.runOnce true else p

-- The last part of `tick`. What comes next depends on how its publish or sweep has ended.
def tock (next : β → TickOutcome → β × Int) (p : Poller β) (outcome : TickOutcome) : Poller β :=
  { p with backoff := (next p.backoff outcome).fst }.schedule (next p.backoff outcome).snd

-- What the event loop does, in any order: timers fire, and asynchronous calls go on.
inductive Turn (next : β → TickOutcome → β × Int) (p : Poller β) : Poller β → Prop
  | fire {l₁ l₂ timer} :
    p.armed = l₁ ++ timer :: l₂ → Turn next p { p with armed := l₁ ++ l₂ }.tick
  | settle {l₁ l₂ tick outcome} :
    p.calls = l₁ ++ ⟨tick, .working⟩ :: l₂ →
    Turn next p { p with calls := l₁ ++ ⟨tick, .settled outcome⟩ :: l₂ }
  | finish {l₁ l₂ tick outcome} :
    p.calls = l₁ ++ ⟨tick, .settled outcome⟩ :: l₂ →
    Turn next p { p with busy := false, calls := l₁ ++ ⟨tick, .returned outcome⟩ :: l₂ }
  | resume {l₁ l₂ outcome} :
    p.calls = l₁ ++ ⟨true, .returned outcome⟩ :: l₂ →
    Turn next p ({ p with calls := l₁ ++ l₂ }.tock next outcome)
  | leave {l₁ l₂ outcome} :
    p.calls = l₁ ++ ⟨false, .returned outcome⟩ :: l₂ → Turn next p { p with calls := l₁ ++ l₂ }

-- What the users of a poller do.
inductive Use
  | start
  | stop
  | runOnce
  deriving DecidableEq, Repr

def use : Use → Poller β → Poller β
  | .start,   p => p.start
  | .stop,    p => p.halt
  | .runOnce, p => p.runOnce false

-- The timers that are armed and the ticks in progress
def outstanding (p : Poller β) : Nat :=
  p.armed.length + p.calls.countP (·.tick)

-- The publishes or sweeps in progress
def inFlight (p : Poller β) : Nat :=
  p.calls.countP (·.phase = .working)

end Poller

structure ExecutionOutboxDispatcherOptions where
  pollIntervalMs : Option Int
  maxBackoffMs   : Option Int

structure ExecutionOutboxDispatcher where
  pollIntervalMs : Int
  maxBackoffMs   : Int

namespace ExecutionOutboxDispatcher

def new (options : ExecutionOutboxDispatcherOptions) : ExecutionOutboxDispatcher :=
  let pollIntervalMs := clamp (options.pollIntervalMs.getD 1000) 100 60000
  { pollIntervalMs := pollIntervalMs
    maxBackoffMs   := clamp (options.maxBackoffMs.getD 30000) pollIntervalMs 300000 }

variable (d : ExecutionOutboxDispatcher)

def failureBackoff (failureBackoffMs : Int) : Int :=
  if failureBackoffMs = 0 then d.pollIntervalMs * 2 else min d.maxBackoffMs (failureBackoffMs * 2)

-- The new `failureBackoffMs` and the delay after a tick
def next (failureBackoffMs : Int) : TickOutcome → Int × Int
  | .result failed =>
    if failed > 0 then
      (d.failureBackoff failureBackoffMs, d.failureBackoff failureBackoffMs)
    else
      (0, d.pollIntervalMs)
  | .thrown => (d.failureBackoff failureBackoffMs, d.failureBackoff failureBackoffMs)

end ExecutionOutboxDispatcher

structure ApprovalExpirySweeperOptions where
  pollIntervalMs : Option Int
  batchSize      : Option Int

structure ApprovalExpirySweeper where
  pollIntervalMs : Int
  batchSize      : Int

namespace ApprovalExpirySweeper

def new (options : ApprovalExpirySweeperOptions) : ApprovalExpirySweeper where
  pollIntervalMs := clamp (options.pollIntervalMs.getD 5000) 500 300000
  batchSize      := clamp (options.batchSize.getD 50) 1 100

-- The sweeper always waits for its poll interval.
def next (s : ApprovalExpirySweeper) (_ : Unit) : TickOutcome → Unit × Int
  | .result _ => ((), s.pollIntervalMs)
  | .thrown   => ((), s.pollIntervalMs)

end ApprovalExpirySweeper
end Logon
