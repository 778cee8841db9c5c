import Logon.Database.Constraints
import Logon.Runtime.Locking
import Logon.Runtime.Processes
import Logon.Runtime.Runs

-- The states that the platform reaches from an empty database.

namespace Logon

open System

-- What may happen next.
abbrev Guard := platform.Label → platform.State → Prop

def Guard.any : Guard :=
  fun _ _ => True

-- Which processes a guard admits, what it tells about replies, and which transactions may commit.
structure Guard.Meets (G : Guard) (P : Premise) (spawnable : platform.Code → platform.Global → Prop)
    (may : Call → platform.Global → Prop) : Prop where
  stable : P.Stable
  spawn  : ∀ {pid code s}, G (.spawn pid code) s → spawnable code s.toGlobal
  stmt   : ∀ {pid amb c k tr now} {s : platform.State} {o : Statement} {k' : o.Reply → Tx c.Result} {r : o.Reply},
           G (.stmt pid amb) s → s.procs pid = some (.inside c ⟨.op o k', tr, now⟩ k) →
           o.reply now amb (engine.replay tr s.db) = .ok r → P now o (engine.replay tr s.db) r
  commit : ∀ {pid c t k} {s : platform.State}, G (.commit pid) s → s.procs pid = some (.inside c t k) →
           may c s.toGlobal

theorem Guard.meets_none (G : Guard) : G.Meets .none (fun _ _ => True) fun _ _ => True where
  stable := Premise.none_stable
  spawn  := fun _ => trivial
  stmt   := fun _ _ _ => trivial
  commit := fun _ _ => trivial

-- A guard under which statements reply as a premise tells, and only some transactions commit.
def Guard.of (P : Premise) (may : Call → platform.Global → Prop) : Guard
  | .stmt pid amb, s =>
    ∀ c o k' tr now k r, s.procs pid = some (.inside c ⟨.op o k', tr, now⟩ k) →
    Statement.reply o now amb (engine.replay tr s.db) = .ok r → P now o (engine.replay tr s.db) r
  | .commit pid, s => ∀ c t k, s.procs pid = some (.inside c t k) → may c s.toGlobal
  | _, _ => True

theorem Guard.of_meets {P : Premise} (h : P.Stable) (may : Call → platform.Global → Prop) :
    (Guard.of P may).Meets P (fun _ _ => True) may where
  stable := h
  spawn  := fun _ => trivial
  stmt   := fun hg => hg _ _ _ _ _ _ _
  commit := fun hg => hg _ _ _

-- Evaluates such a guard.
def Guard.check (P : Premise) [∀ now o db r, Decidable (P now o db r)] (may : Call → platform.Global → Prop)
    [∀ c g, Decidable (may c g)] : platform.Label → platform.State → Bool
  | .stmt pid amb, s =>
    match s.procs pid with
    | some (.inside _ ⟨.op o _, tr, now⟩ _) =>
      match Statement.reply o now amb (engine.replay tr s.db) with
      | .ok r    => P now o (engine.replay tr s.db) r
      | .error _ => true
    | _ => true
  | .commit pid, s =>
    match s.procs pid with
    | some (.inside (c : Call) _ _) => may c s.toGlobal
    | _ => true
  | _, _ => true

theorem Guard.of_check {P : Premise} [∀ now o db r, Decidable (P now o db r)] {may : Call → platform.Global → Prop}
    [∀ c g, Decidable (may c g)] {l : platform.Label} {s : platform.State} (h : Guard.check P may l s) :
    Guard.of P may l s := by
  cases l
  case stmt   => intro c o k' tr now k r hp hr; simpa [Guard.check, hp, hr] using h
  case commit => intro c t k hp; simpa [Guard.check, hp] using h
  all_goals trivial

def Reachable (G : Guard) (s : platform.State) : Prop :=
  ∃ clock, Steps G (System.initial Db.empty Queue.empty clock) s

-- The system whose transactions run in one step.
abbrev AtomicSteps (P : Premise) (spawnable : platform.Code → platform.Global → Prop)
    (may : Call → platform.Global → Prop) : platform.Atomic → platform.Atomic → Prop :=
  Atomic.Steps (loose platform P.answer may) spawnable

def AtomicallyReachable (P : Premise) (spawnable : platform.Code → platform.Global → Prop)
    (may : Call → platform.Global → Prop) (s : platform.Atomic) : Prop :=
  ∃ clock, AtomicSteps P spawnable may (System.initial Db.empty Queue.empty clock : platform.State).atomic s

variable {G : Guard} {P : Premise} {spawnable : platform.Code → platform.Global → Prop}
  {may : Call → platform.Global → Prop}

theorem Guard.Meets.justified (h : G.Meets P spawnable may) : Justified P.answer spawnable may G where
  spawn  := h.spawn
  stmt   := fun hg hp hr => ⟨Statement.told_of_reply hr, h.stmt hg hp hr⟩
  commit := h.commit

namespace Reachable

theorem allSound {s : platform.State} (h : Reachable G s) (hm : G.Meets P spawnable may) :
    s.AllSound (discipline P hm.stable) ∧ AtomicallyReachable P spawnable may s.atomic := by
  have ⟨clock, hs⟩ := h
  have hi : (System.initial Db.empty Queue.empty clock : platform.State).AllSound (discipline P hm.stable) :=
    State.AllSound.initial _ _ _
  have ⟨ha, hr⟩ := hs.refines hm.justified (fun c => c.keeps.guarded) hi
  exact ⟨ha, clock, hr⟩

theorem atomic {s : platform.State} (h : Reachable G s) (hm : G.Meets P spawnable may) :
    AtomicallyReachable P spawnable may s.atomic :=
  (h.allSound hm).right

theorem atomicSteps {s s' : platform.State} (h : Reachable G s) (hs : Steps G s s') (hm : G.Meets P spawnable may) :
    AtomicSteps P spawnable may s.atomic s'.atomic :=
  (hs.refines hm.justified (fun c => c.keeps.guarded) (h.allSound hm).left).right

theorem trans {s s' : platform.State} (h : Reachable G s) (hs : Steps G s s') : Reachable G s' :=
  have ⟨clock, hi⟩ := h
  ⟨clock, hi.trans hs⟩

theorem mono {G' : Guard} {s : platform.State} (h : Reachable G s) (hg : ∀ l s, G l s → G' l s) : Reachable G' s :=
  have ⟨clock, hi⟩ := h
  ⟨clock, hi.mono hg⟩

-- A step that changes the database commits a transaction, which makes its changes at once.
theorem commits {l : platform.Label} {s s' : platform.State} (h : Reachable G s) (hs : step l s = some s') :
    s'.db = s.db ∧ s'.log = s.log ∨
    ∃ pid, ∃ c : Call, ∃ r now, s'.log = s.log ++ [⟨pid, c, r, now⟩] ∧ c.Commits .none now s.db r s'.db := by
  obtain h' | ⟨pid, c, t, k, r, hp, hr, hd, hl⟩ := step_changes hs
  case inl => exact .inl h'
  case inr =>
    have hsteps := ((h.allSound G.meets_none).left _ _ _ _ hp).now
    rw [hr] at hsteps
    exact .inr ⟨pid, c, r, t.startedAt, hl, hd ▸ Call.commits c (hsteps.runs ⟨rfl, rfl⟩)⟩

end Reachable

-- What is preserved by the passing of time, additions to the queue, and commits, is preserved.
theorem AtomicSteps.invariant {s s' : platform.Atomic} {Q : platform.Global → Prop}
    (h : AtomicSteps P spawnable may s s') (hi : Q s.toGlobal)
    (ht : ∀ g t, g.clock ≤ t → Q g → Q { g with clock := t })
    (ha : ∀ g (a : Action) (amb : Ambient), Q g → Q { g with world := (a.act amb g.db g.world).snd })
    (hc : ∀ (g : platform.Global) pid c r now db', may c g → now ≤ g.clock → c.Commits P now g.db r db' →
      g.db.Grows db' → Q g → Q { g with db := db', log := g.log ++ [⟨pid, c, r, now⟩] }) :
    Q s'.toGlobal := by
  refine Atomic.Steps.invariant h hi ht ?_
  intro pid o g r g' hd hq
  cases hd
  case commit c r now db' hm hn hr => exact hc g pid c r now db' hm hn (c.commits hr) (c.grows hr) hq
  case throw                       => exact hq
  case fault                       => exact hq
  case act a amb _                 => exact ha g a amb hq

-- The same for properties of what is committed.
theorem AtomicSteps.log_invariant {s s' : platform.Atomic} {Q : Db → List platform.Commit → Prop}
    (h : AtomicSteps P spawnable may s s') (hi : Q s.db s.log)
    (hc : ∀ (g : platform.Global) pid c r now db', may c g → c.Commits P now g.db r db' → g.db.Grows db' →
      Q g.db g.log → Q db' (g.log ++ [⟨pid, c, r, now⟩])) :
    Q s'.db s'.log :=
  AtomicSteps.invariant h hi (fun _ _ _ => id) (fun _ _ _ => id) fun _ _ _ _ _ _ hm _ => hc _ _ _ _ _ _ hm

theorem AtomicSteps.db_invariant {s s' : platform.Atomic} {Q : Db → Prop} (h : AtomicSteps P spawnable may s s')
    (hi : Q s.db) (hc : ∀ db (c : Call) r now db', c.Commits P now db r db' → db.Grows db' → Q db → Q db') :
    Q s'.db :=
  AtomicSteps.invariant h hi (fun _ _ _ => id) (fun _ _ _ => id) fun _ _ _ _ _ _ _ _ => hc _ _ _ _ _

-- Nothing is ever removed from the database.
theorem AtomicSteps.grows {s s' : platform.Atomic} (h : AtomicSteps P spawnable may s s') : s.db.Grows s'.db :=
  AtomicSteps.db_invariant h (.refl s.db) fun _ _ _ _ _ _ hg hs => hs.trans hg

-- Statements check the rows that they write.
abbrev Premise.checked : Premise :=
  fun _ o db r => o.Checked db r

theorem Guard.meets_checked (G : Guard) : G.Meets .checked (fun _ _ => True) fun _ _ => True where
  stable := fun _ _ _ _ _ hg _ h => h.mono hg
  spawn  := fun _ => trivial
  stmt   := fun _ _ hr => Statement.checked_of_reply hr
  commit := fun _ _ => trivial

theorem Db.Constraints.runs {p : Tx α} {res : Except KernelError α} (hk : db.Constraints)
    (h : p.Runs (Premise.checked.sem now) db res db') : db'.Constraints := by
  refine h.preserves ?_ hk
  rintro o db r _ ⟨⟨_, hr⟩, rfl⟩ hk
  exact hk.effect hr

theorem Reachable.constraints {s : platform.State} (h : Reachable G s) : s.db.Constraints := by
  have ⟨_, hs⟩ := h.atomic G.meets_checked
  refine @Atomic.Steps.invariant _ _ _ _ _ _ _ _ (fun g => g.db.Constraints) _ _ hs Db.Constraints.empty (fun _ _ _ => id) ?_
  intro pid o g r g' hd hk
  cases hd
  case commit hr => exact hk.runs hr
  case throw     => exact hk
  case fault     => exact hk
  case act       => exact hk

theorem Reachable.foreignKeys {s : platform.State} (h : Reachable G s) : s.db.ForeignKeys :=
  h.constraints.foreignKeys

-- Follows a schedule if all its steps pass a check.
def follow (check : platform.Label → platform.State → Bool) (ls : List platform.Label) (s : platform.State) :
    platform.State :=
  (run check ls s).getD s

theorem follow_steps {check : platform.Label → platform.State → Bool} {ls : List platform.Label}
    {s : platform.State} (hg : ∀ l ∈ ls, ∀ s, check l s → G l s) : Steps G s (follow check ls s) := by
  unfold follow
  cases h : run check ls s
  case none => exact .refl
  case some => exact Steps.of_run hg h

def reach (check : platform.Label → platform.State → Bool) (ls : List platform.Label) : platform.State :=
  follow check ls (System.initial Db.empty Queue.empty 0)

theorem reach_reachable {check : platform.Label → platform.State → Bool} {ls : List platform.Label}
    (hg : ∀ l ∈ ls, ∀ s, check l s → G l s) : Reachable G (reach check ls) :=
  ⟨0, follow_steps hg⟩

-- Requests and schedules for examples.
namespace Sample

def unchecked : platform.Label → platform.State → Bool :=
  fun _ _ => true

def request (requiresApproval : Bool) : ExecutionRequest where
  identity         := ⟨"e", "t", "u", "g", "1"⟩
  objective        := "pay"
  context          := []
  policySet        := []
  requestedTools   := []
  requiresApproval := requiresApproval
  evidenceRequired := false
  createdAt        := .iso 0

def ambient (now : Time) (uuid : String) : Ambient where
  dateNow := now
  uuid    := uuid
  rank    := fun _ => 0
  skip    := false
  failure := none
  added   := false

def started (requiresApproval : Bool) (key : Option String) : platform.Code := do
  return .started (← transaction (.start (request requiresApproval) "h" ⟨key⟩))

-- A process that runs a transaction of `n` statements.
def transact (pid : Pid) (code : platform.Code) (now : Time) (uuid : String) (n : Nat) : List platform.Label :=
  [.spawn pid code, .begin pid] ++ List.replicate n (.stmt pid (ambient now uuid)) ++ [.commit pid]

-- A client starts an execution that waits for the approval `a`.
def gated : List platform.Label :=
  transact 0 (started true none) 0 "a" 11

def decision : ApprovalDecision where
  approvalId  := "a"
  executionId := "e"
  status      := .approved
  decidedBy   := "boss"
  decidedAt   := .iso 1
  reason      := none

def decided : platform.Code := do
  return .decided (← PostgresExecutionService.Process.decideApproval decision)

def swept : platform.Code := do
  return .swept (← PostgresExecutionService.Process.expireApprovalsOnce 50)

end Sample
end Logon
