import Logon.ControlPlane.Auth
import Logon.Runtime.ExecutionRuntime

-- The process that runs the runtime until it gets a signal.

namespace Logon

def requireDatabaseUrl (env : ControlPlane.ProcessEnv) : Except String String :=
  match (env.lookup "LOGON_DATABASE_URL").or (env.lookup "DATABASE_URL") with
  | none     => .error "LOGON_DATABASE_URL or DATABASE_URL is required to start the execution runtime"
  | some url =>
    if blank url then
      .error "LOGON_DATABASE_URL or DATABASE_URL is required to start the execution runtime"
    else
      .ok url

inductive Signal
  | sigint
  | sigterm
  deriving DecidableEq, Repr

-- Where the process has come to. Its calls of `shutdown` that return at once do not matter.
inductive Course
  | running
  -- `runtime.stop` is awaited.
  | stopping
  -- `runtime.stop` has been resolved.
  | stopped
  -- `pool.end` is awaited.
  | ending
  | exited (code : Nat)
  -- A signal to which nobody listens any more ends the process.
  | killed
  deriving DecidableEq, Repr

-- What is going on when the pool is ended.
structure Ending where
  publishes : Nat
  sweeps    : Nat
  begun     : Nat
  deriving DecidableEq, Repr

structure Main where
  runtime   : ExecutionRuntime
  -- The signals that have a listener
  listeners : List Signal
  stopping  : Bool
  course    : Course
  -- History: the calls of `pool.end`
  endings   : List Ending

namespace Main

-- The runtime is constructed without options.
def options : ExecutionRuntimeOptions :=
  ⟨none, none, none, none, none⟩

-- The state in which `main` returns. Nothing happens before, as it awaits nothing.
def started : Main where
  runtime   := (ExecutionRuntime.new options).start
  listeners := [.sigint, .sigterm]
  stopping  := false
  course    := .running
  endings   := []

-- `main`, up to the errors of constructors
def start (env : ControlPlane.ProcessEnv) : Except String Main := do
  let _ ← requireDatabaseUrl env
  return started

variable (m : Main)

-- What `shutdown` does up to its first `await`.
def shutdown : Main :=
  if m.stopping then m else { m with stopping := true, runtime := m.runtime.stop, course := .stopping }

-- The runtime goes on. If this ends the call of `stop`, of which there is only one, then `shutdown` goes on as well.
def observe (r : ExecutionRuntime) : Main :=
  { m with
    runtime := r
    course  :=
      if m.course = .stopping ∧ r.stops = [] then
        if r.resolved.isSome then .stopped else .exited 1
      else m.course }

def ending : Ending where
  publishes := m.runtime.dispatcher.inFlight
  sweeps    := m.runtime.sweeps
  begun     := m.runtime.begun

def Alive : Prop :=
  m.course ≠ .killed ∧ ∀ code, m.course ≠ .exited code

-- What can happen next. Listeners are only called once.
inductive Step : Main → Prop
  | signal {s : Signal} :
    m.Alive → s ∈ m.listeners → Step { m.shutdown with listeners := m.listeners.erase s }
  | unheard {s : Signal} :
    m.Alive → s ∉ m.listeners → Step { m with course := .killed }
  | run {r : ExecutionRuntime} :
    m.Alive → ExecutionRuntime.Step options (fun _ _ => False) m.runtime r → Step (m.observe r)
  | endPool :
    m.course = .stopped → Step { m with course := .ending, endings := m.endings ++ [m.ending] }
  | ended :
    m.course = .ending → Step { m with course := .exited 0 }
  | rejected :
    m.course = .ending → Step { m with course := .exited 1 }

abbrev Steps : Main → Main → Prop :=
  Relation.ReflTransGen Step

end Main
end Logon
