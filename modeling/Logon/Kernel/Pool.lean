import Mathlib.Logic.Function.Basic
import Mathlib.Logic.Relation
import Mathlib.Tactic.Simps.Basic
import Logon.Library.Program

-- The pool of connections, and the transactions that use them.

namespace Logon
namespace Pool

abbrev Client := Nat

-- The number of a call of `withTransaction`
abbrev CallId := Nat

-- `S` are statements other than those that begin and end transactions.
inductive Command (S : Type)
  | begin
  | statement (s : S)
  | commit
  | rollback

-- What the server knows about a connection: whether a transaction is open on it, and if so, which
-- statements it has executed. They are recorded with the call that has issued them.
inductive Session (S : Type)
  | idle
  | started (pending : List (CallId × S))
  -- Ignores everything until it is ended.
  | aborted
  deriving DecidableEq

def Session.pending {S : Type} : Session S → List (CallId × S)
  | started pending => pending
  | _               => []

-- What becomes of a command, and what its promise is settled with.
inductive Fate (R ε : Type)
  | answered (r : R)
  -- The server reports an error.
  | refused (e : ε)
  -- The promise is rejected, and the server never gets the command.
  | unsent (e : ε)
  -- The promise is rejected, but the server gets the command.
  | unanswered (refused : Bool) (e : ε)

section
variable {S R ε T : Type}

namespace Session

-- The server refuses all other commands in a transaction that has failed.
def refuses : Session S → Command S → Bool
  | aborted, .begin       => true
  | aborted, .statement _ => true
  | _,       _            => false

-- The connection after the server gets a command, and what the command makes durable. A `BEGIN`
-- inside a transaction opens no other one, and a statement outside of a transaction is one of its own.
def execute (id : CallId) (refused : Bool) : Command S → Session S → Session S × List (CallId × S)
  | .begin,       idle            => (if refused then idle else started [], [])
  | .begin,       started pending => (if refused then aborted else started pending, [])
  | .begin,       aborted         => (aborted, [])
  | .statement s, idle            => (idle, if refused then [] else [(id, s)])
  | .statement s, started pending => (if refused then aborted else started (pending ++ [(id, s)]), [])
  | .statement _, aborted         => (aborted, [])
  | .commit,      started pending => (idle, if refused then [] else pending)
  | .commit,      _               => (idle, [])
  | .rollback,    _               => (idle, [])

end Session

namespace Fate

def reply : Fate R ε → Except ε R
  | answered r     => .ok r
  | refused e      => .error e
  | unsent e       => .error e
  | unanswered _ e => .error e

def execute (fate : Fate R ε) (id : CallId) (command : Command S) (session : Session S) :
    Session S × List (CallId × S) :=
  match fate with
  | answered _     => session.execute id false command
  | refused _      => session.execute id true command
  | unsent _       => (session, [])
  | unanswered b _ => session.execute id b command

-- The server gets the command.
def reaches : Fate R ε → Bool
  | unsent _ => false
  | _        => true

-- The server does not answer what it refuses.
def possible (command : Command S) (session : Session S) : Fate R ε → Bool
  | answered _ => !session.refuses command
  | _          => true

end Fate

-- What a call does with the pool, and with its client.
inductive Op (S : Type)
  | connect
  | query (client : Client) (command : Command S)
  | release (client : Client)

-- Rejected promises are answers, too.
abbrev ops (S R ε : Type) : Signature where
  Op := Op S
  Reply
    | .connect   => Except ε Client
    | .query _ _ => Except ε R
    | .release _ => Unit

abbrev statements (S R ε : Type) : Signature where
  Op      := S
  Reply _ := Except ε R

abbrev Code (S R ε T : Type) := Program (ops S R ε) ε T

-- What is done inside of a transaction. It may go on if a statement is rejected.
abbrev Work (S R ε T : Type) := Program (statements S R ε) ε T

def perform (o : Op S) : Code S R ε ((ops S R ε).Reply o) :=
  @Program.perform (ops S R ε) ε o

def query (client : Client) (command : Command S) : Code S R ε R := do
  .ofExcept (← perform (.query client command))

-- Issues the statements of some work on a client.
def onClient (client : Client) : Work S R ε T → Code S R ε T
  | .pure a  => .pure a
  | .throw e => .throw e
  | .op s k  => .op (.query client (.statement s)) fun r => onClient client (k r)

def withTransaction (work : Work S R ε T) : Code S R ε T := do
  let client ← (do .ofExcept (← perform .connect) : Code S R ε Client)
  Program.tryFinally
    (Program.tryCatch (do
      let _ ← query client .begin
      let result ← onClient client work
      let _ ← query client .commit
      return result)
    fun error => do
      Program.tryCatch (do let _ ← query client .rollback) fun _ => return ()
      throw error)
    (perform (.release client))

end

-- The pool, the server, and the calls of `withTransaction` so far. A client that nobody has connected
-- to is idle, no matter whether the pool has created it already.
structure State (S R ε T : Type) where
  calls    : CallId → Option (Code S R ε T)
  holder   : Client → Option CallId
  sessions : Client → Session S
  -- The statements whose writes are durable.
  durable  : List (CallId × S)
  -- The clients that a call has been connected to, and those that it has released, and when.
  connected : CallId → List Client
  released  : CallId → List (Client × Session S)
  -- The calls that have issued their `COMMIT`.
  committing : List CallId

namespace State

variable {S R ε T : Type}

def initial : State S R ε T where
  calls      := fun _ => none
  holder     := fun _ => none
  sessions   := fun _ => .idle
  durable    := []
  connected  := fun _ => []
  released   := fun _ => []
  committing := []

@[simps]
def setCall (s : State S R ε T) (id : CallId) (code : Code S R ε T) : State S R ε T :=
  { s with calls := Function.update s.calls id (some code) }

-- A call gets a client, and goes on with some code.
@[simps]
def connect (s : State S R ε T) (id : CallId) (client : Client) (code : Code S R ε T) : State S R ε T :=
  { s with
    calls     := Function.update s.calls id (some code)
    holder    := Function.update s.holder client (some id)
    connected := Function.update s.connected id (s.connected id ++ [client]) }

@[simps]
def query (s : State S R ε T) (id : CallId) (client : Client) (command : Command S) (fate : Fate R ε)
    (code : Code S R ε T) : State S R ε T :=
  { s with
    calls      := Function.update s.calls id (some code)
    sessions   := Function.update s.sessions client (fate.execute id command (s.sessions client)).fst
    durable    := s.durable ++ (fate.execute id command (s.sessions client)).snd
    committing :=
      match command with
      | .commit => s.committing ++ [id]
      | _       => s.committing }

@[simps]
def release (s : State S R ε T) (id : CallId) (client : Client) (code : Code S R ε T) : State S R ε T :=
  { s with
    calls    := Function.update s.calls id (some code)
    holder   := Function.update s.holder client none
    released := Function.update s.released id (s.released id ++ [(client, s.sessions client)]) }

end State

inductive Label (S R ε T : Type)
  | call (id : CallId) (work : Work S R ε T)
  | connect (id : CallId) (outcome : Except ε Client)
  | query (id : CallId) (fate : Fate R ε)
  | release (id : CallId)

variable {S R ε T : Type}

def step : Label S R ε T → State S R ε T → Option (State S R ε T)
  | .call id work, s =>
    match s.calls id with
    | none   => some <| s.setCall id (withTransaction work)
    | some _ => none
  | .connect id outcome, s =>
    match s.calls id, outcome with
    | some (.op .connect k), .error e => some <| s.setCall id (k (.error e))
    | some (.op .connect k), .ok client =>
      -- The pool hands out a client that is not in use.
      if s.holder client = none then some <| s.connect id client (k (.ok client)) else none
    | _, _ => none
  | .query id fate, s =>
    match s.calls id with
    | some (.op (.query client command) k) =>
      if fate.possible command (s.sessions client) then
        some <| s.query id client command fate (k fate.reply)
      else
        none
    | _ => none
  | .release id, s =>
    match s.calls id with
    | some (.op (.release client) k) => some <| s.release id client (k ())
    | _ => none

-- A step whose label meets a condition
def Step (G : Label S R ε T → State S R ε T → Prop) (s s' : State S R ε T) : Prop :=
  ∃ l, G l s ∧ step l s = some s'

abbrev Steps (G : Label S R ε T → State S R ε T → Prop) : State S R ε T → State S R ε T → Prop :=
  Relation.ReflTransGen (Step G)

end Pool
end Logon
