import Mathlib.Logic.Function.Basic
import Mathlib.Logic.Relation
import Logon.Library.Program

-- An instant, in milliseconds since an epoch.
abbrev Time := Int

-- A process number.
abbrev Pid := Nat

-- A transactional server. `S` are its statements, `σ` its databases, `ρ` the things it locks, `ω` is
-- what decides a statement whose outcome the database leaves open, and `ε` are errors.
structure Engine (S : Signature) (σ ρ ω ε : Type) where
  -- What a statement of a transaction that began at a given time answers when it sees a database.
  reply  : (o : S.Op) → Time → ω → σ → Except ε (S.Reply o)
  -- The writes of a statement that gave a certain reply.
  effect : (o : S.Op) → S.Reply o → σ → σ
  -- The locks a statement takes, and its transaction keeps to its end.
  locks  : (o : S.Op) → S.Reply o → List ρ
  -- What may not be locked by another transaction while the statement runs.
  awaits : S.Op → List ρ
  -- What must be locked by another transaction for the statement to give this reply.
  skips  : (o : S.Op) → S.Reply o → List ρ
  -- The errors with which the server may end a transaction at any time.
  fault  : ε → Bool

namespace Engine

variable {S : Signature} {σ ρ ω ε : Type}

-- A statement that was executed, and its reply.
abbrev Entry (S : Signature) := (o : S.Op) × S.Reply o

-- The database after the writes of some executed statements.
def replay (E : Engine S σ ρ ω ε) (tr : List (Entry S)) (s : σ) : σ :=
  tr.foldl (fun s e => E.effect e.fst e.snd s) s

-- A transaction that runs alone: it gets the replies the server gives, and never skips a lock.
-- `allow` limits the circumstances under which statements run.
def alone (E : Engine S σ ρ ω ε) (allow : σ → ω → Prop) (now : Time) : Semantics S σ ε where
  step o s r s' := (∃ amb, allow s amb ∧ E.reply o now amb s = .ok r) ∧ E.skips o r = [] ∧ s' = E.effect o r s
  fails o s e   := ∃ amb, allow s amb ∧ E.reply o now amb s = .error e

-- A transaction whose statements are only known to give replies with a certain property.
def loose (E : Engine S σ ρ ω ε) (answer : (o : S.Op) → σ → S.Reply o → Prop) : Semantics S σ ε where
  step o s r s' := answer o s r ∧ s' = E.effect o r s
  fails _ _ e   := E.fault e

end Engine

-- A server together with the processes that use it. A process is a program which runs transactions
-- of a fixed range, and performs other actions which only read the database.
structure System (S : Signature) (σ ρ ω ε : Type) extends Engine S σ ρ ω ε where
  Call    : Type
  Result  : Call → Type
  body    : (c : Call) → Program S ε (Result c)
  Action  : Type
  Answer  : Action → Type
  World   : Type
  act     : (a : Action) → ω → σ → World → Except ε (Answer a) × World
  Outcome : Type

namespace System

variable {S : Signature} {σ ρ ω ε : Type}

abbrev outer (Y : System S σ ρ ω ε) : Signature where
  Op := Y.Call ⊕ Y.Action
  Reply
    | .inl c => Except ε (Y.Result c)
    | .inr a => Except ε (Y.Answer a)

abbrev Code (Y : System S σ ρ ω ε) :=
  Program Y.outer ε Y.Outcome

variable (Y : System S σ ρ ω ε)

structure Commit where
  pid       : Pid
  call      : Y.Call
  result    : Y.Result call
  startedAt : Time

-- What processes share. The log of commits only serves to state properties.
structure Global where
  db    : σ
  world : Y.World
  clock : Time
  log   : List Y.Commit

-- The state of a transaction: what is left of its body, and the statements executed so far.
structure Session (c : Y.Call) where
  residual  : Program S ε (Y.Result c)
  trace     : List (Engine.Entry S)
  startedAt : Time

inductive Process
  | outside (code : Y.Code)
  | inside (c : Y.Call) (t : Y.Session c) (k : Except ε (Y.Result c) → Y.Code)

-- A transaction's writes only reach `db` when it commits. Up to then they are part of its session's
-- trace, where no other transaction sees them.
structure State extends Global Y where
  procs  : Pid → Option Y.Process
  holder : ρ → Option Pid

inductive Label
  | spawn (pid : Pid) (code : Y.Code)
  | tick (t : Time)
  | begin (pid : Pid)
  | act (pid : Pid) (amb : ω)
  | stmt (pid : Pid) (amb : ω)
  | commit (pid : Pid)
  | rollback (pid : Pid)
  | abort (pid : Pid) (e : ε)

variable {Y}

def initial (db : σ) (world : Y.World) (clock : Time) : Y.State where
  db     := db
  world  := world
  clock  := clock
  log    := []
  procs  := fun _ => none
  holder := fun _ => none

namespace State

def setProc (s : Y.State) (pid : Pid) (p : Y.Process) : Y.State :=
  { s with procs := Function.update s.procs pid (some p) }

-- Ends a transaction, which releases its locks.
def finish (s : Y.State) (pid : Pid) (code : Y.Code) : Y.State :=
  { s.setProc pid (.outside code) with
    holder := fun x => if s.holder x = some pid then none else s.holder x }

def Free (s : Y.State) (pid : Pid) (x : ρ) : Prop :=
  s.holder x = none ∨ s.holder x = some pid

instance (s : Y.State) (pid : Pid) (x : ρ) : Decidable (s.Free pid x) :=
  inferInstanceAs (Decidable (_ ∨ _))

def acquire [DecidableEq ρ] (s : Y.State) (pid : Pid) (xs : List ρ) : Y.State :=
  { s with holder := fun x => if x ∈ xs then some pid else s.holder x }

end State

variable [DecidableEq ρ]

-- One statement of a transaction. It sees the database as it is committed now plus the writes of its
-- own transaction (`READ COMMITTED`), and is blocked while another transaction has a lock it needs.
def execute (s : Y.State) (pid : Pid) (amb : ω) (c : Y.Call) (t : Y.Session c)
    (k : Except ε (Y.Result c) → Y.Code) : Option Y.State :=
  match t.residual with
  | .op o k' =>
    match Y.reply o t.startedAt amb (Y.replay t.trace s.db) with
    | .error e => some <| s.finish pid (k (.error e))
    | .ok r =>
      if (∀ x ∈ Y.locks o r ++ Y.awaits o, s.Free pid x) ∧ ∀ x ∈ Y.skips o r, ¬s.Free pid x then
        let t' : Y.Session c := { t with residual := k' r, trace := t.trace ++ [⟨o, r⟩] }
        some <| (s.setProc pid (.inside c t' k)).acquire pid (Y.locks o r)
      else
        none
  | _ => none

def step : Y.Label → Y.State → Option Y.State
  | .spawn pid code, s =>
    match s.procs pid with
    | none   => some <| s.setProc pid (.outside code)
    | some _ => none
  | .tick t, s =>
    if s.clock ≤ t then some { s with clock := t } else none
  | .begin pid, s =>
    match s.procs pid with
    | some (.outside (.op (.inl c) k)) => some <| s.setProc pid (.inside c ⟨Y.body c, [], s.clock⟩ k)
    | _ => none
  | .act pid amb, s =>
    match s.procs pid with
    | some (.outside (.op (.inr a) k)) =>
      some { s.setProc pid (.outside (k (Y.act a amb s.db s.world).fst)) with
             world := (Y.act a amb s.db s.world).snd }
    | _ => none
  | .stmt pid amb, s =>
    match s.procs pid with
    | some (.inside c t k) => execute s pid amb c t k
    | _ => none
  | .commit pid, s =>
    match s.procs pid with
    | some (.inside c ⟨.pure a, tr, now⟩ k) =>
      some { s.finish pid (k (.ok a)) with
             db  := Y.replay tr s.db
             log := s.log ++ [⟨pid, c, a, now⟩] }
    | _ => none
  | .rollback pid, s =>
    match s.procs pid with
    | some (.inside _ ⟨.throw e, _, _⟩ k) => some <| s.finish pid (k (.error e))
    | _ => none
  | .abort pid e, s =>
    match s.procs pid with
    | some (.inside _ _ k) => if Y.fault e then some <| s.finish pid (k (.error e)) else none
    | _ => none

-- A step whose label meets a condition.
def Step (G : Y.Label → Y.State → Prop) (s s' : Y.State) : Prop :=
  ∃ l, G l s ∧ step l s = some s'

abbrev Steps (G : Y.Label → Y.State → Prop) : Y.State → Y.State → Prop :=
  Relation.ReflTransGen (Step G)

theorem Steps.mono {G G' : Y.Label → Y.State → Prop} {s s' : Y.State} (h : Steps G s s')
    (hg : ∀ l s, G l s → G' l s) : Steps G' s s' := by
  induction h
  case refl => exact .refl
  case tail e ih =>
    have ⟨l, hl, he⟩ := e
    exact ih.tail ⟨l, hg _ _ hl, he⟩

-- How a transaction can have come to be where it is.
theorem step_inside {l : Y.Label} {s s' : Y.State} {c : Y.Call} {t : Y.Session c}
    {k : Except ε (Y.Result c) → Y.Code} (h : step l s = some s')
    (hp : s'.procs pid = some (.inside c t k)) :
    s.procs pid = some (.inside c t k) ∨ t.trace = [] ∨
    ∃ amb o k' tr r, s.procs pid = some (.inside c ⟨.op o k', tr, t.startedAt⟩ k) ∧
      Y.reply o t.startedAt amb (Y.replay tr s.db) = .ok r ∧ t.trace = tr ++ [⟨o, r⟩] := by
  have other {pid' : Pid} {p : Y.Process} (hp : Function.update s.procs pid' (some p) pid = some (.inside c t k))
      (hn : pid = pid' → p ≠ .inside c t k) : s.procs pid = some (.inside c t k) := by
    by_cases he : pid = pid'
    case pos =>
      subst he
      exact absurd (by simpa using hp) (hn rfl)
    case neg => rwa [Function.update_of_ne he] at hp
  cases l <;> simp only [step] at h
  case spawn pid' code =>
    split at h <;> cases h
    exact .inl <| other hp nofun
  case tick =>
    split at h <;> cases h
    exact .inl hp
  case begin pid' =>
    split at h <;> cases h
    by_cases he : pid = pid'
    case pos =>
      subst he
      simp only [State.setProc, Function.update_self, Option.some.injEq] at hp
      cases hp
      exact .inr <| .inl rfl
    case neg => exact .inl <| other hp fun he' => absurd he' he
  case act pid' amb =>
    split at h <;> cases h
    exact .inl <| other hp nofun
  case stmt pid' amb =>
    split at h
    case h_2 => cases h
    case h_1 c' t' k'' hp' =>
      obtain ⟨residual, tr, now⟩ := t'
      simp only [execute] at h
      split at h
      case h_2 => cases h
      case h_1 o k' =>
        split at h
        case h_1 =>
          cases h
          exact .inl <| other hp nofun
        case h_2 r hr =>
          split at h <;> cases h
          by_cases he : pid = pid'
          case neg => exact .inl <| other hp fun he' => absurd he' he
          case pos =>
            subst he
            simp only [State.acquire, State.setProc, Function.update_self, Option.some.injEq] at hp
            cases hp
            exact .inr <| .inr ⟨amb, o, k', tr, r, hp', hr, rfl⟩
  case commit pid' =>
    split at h <;> cases h
    exact .inl <| other hp nofun
  case rollback pid' =>
    split at h <;> cases h
    exact .inl <| other hp nofun
  case abort pid' e =>
    split at h
    case h_2 => cases h
    case h_1 =>
      split at h <;> cases h
      exact .inl <| other hp nofun

-- A transaction ends by committing, or without having done anything.
theorem step_ends {l : Y.Label} {s s' : Y.State} {c : Y.Call} {t : Y.Session c} {k : Except ε (Y.Result c) → Y.Code}
    (h : step l s = some s') (hp : s.procs pid = some (.inside c t k)) (hp' : s'.procs pid = some (.outside code)) :
    (∃ a, t.residual = .pure a ∧ code = k (.ok a) ∧ s'.db = Y.replay t.trace s.db ∧
      s'.log = s.log ++ [⟨pid, c, a, t.startedAt⟩]) ∨
    ∃ e, code = k (.error e) ∧ s'.db = s.db ∧ s'.log = s.log := by
  have same {pid' : Pid} {p : Y.Process} (hs : Function.update s.procs pid' (some p) pid = some (.outside code)) :
      pid = pid' ∧ p = .outside code := by
    by_cases he : pid = pid'
    case pos =>
      subst he
      exact ⟨rfl, by simpa using hs⟩
    case neg =>
      rw [Function.update_of_ne he, hp] at hs
      cases hs
  cases l <;> simp only [step] at h
  case spawn pid' code' =>
    split at h <;> cases h
    case h_1 hn =>
      have ⟨he, _⟩ := same hp'
      cases hp.symm.trans (he ▸ hn)
  case tick =>
    split at h <;> cases h
    cases hp.symm.trans hp'
  case begin pid' =>
    split at h <;> cases h
    cases (same hp').right
  case act pid' amb =>
    split at h <;> cases h
    case h_1 hn =>
      have ⟨he, _⟩ := same hp'
      cases hp.symm.trans (he ▸ hn)
  case stmt pid' amb =>
    split at h
    case h_2 => cases h
    case h_1 c' t' k'' hn =>
      obtain ⟨residual, tr, now⟩ := t'
      simp only [execute] at h
      split at h
      case h_2 => cases h
      case h_1 =>
        split at h
        case h_2 =>
          split at h <;> cases h
          cases (same hp').right
        case h_1 e _ =>
          cases h
          have ⟨he, hc⟩ := same hp'
          cases hp.symm.trans (he ▸ hn)
          cases hc
          exact .inr ⟨e, rfl, rfl, rfl⟩
  case commit pid' =>
    split at h <;> cases h
    case h_1 c' a tr now k' hn =>
      have ⟨he, hc⟩ := same hp'
      subst he
      cases hp.symm.trans hn
      cases hc
      exact .inl ⟨a, rfl, rfl, rfl, rfl⟩
  case rollback pid' =>
    split at h <;> cases h
    case h_1 c' e tr now k' hn =>
      have ⟨he, hc⟩ := same hp'
      cases hp.symm.trans (he ▸ hn)
      cases hc
      exact .inr ⟨e, rfl, rfl, rfl⟩
  case abort pid' e =>
    split at h
    case h_2 => cases h
    case h_1 hn =>
      split at h <;> cases h
      have ⟨he, hc⟩ := same hp'
      cases hp.symm.trans (he ▸ hn)
      cases hc
      exact .inr ⟨e, rfl, rfl, rfl⟩

-- Only commits change the database, and all of them are logged.
theorem step_changes {l : Y.Label} {s s' : Y.State} (h : step l s = some s') :
    s'.db = s.db ∧ s'.log = s.log ∨
    ∃ pid c, ∃ t : Y.Session c, ∃ k a, s.procs pid = some (.inside c t k) ∧ t.residual = .pure a ∧
      s'.db = Y.replay t.trace s.db ∧ s'.log = s.log ++ [⟨pid, c, a, t.startedAt⟩] := by
  cases l <;> simp only [step] at h
  case commit pid =>
    split at h <;> cases h
    case h_1 c a tr now k hp => exact .inr ⟨pid, c, _, k, a, hp, rfl, rfl, rfl⟩
  case stmt pid amb =>
    split at h
    case h_2 => cases h
    case h_1 =>
      unfold execute at h
      split at h
      case h_2 => cases h
      case h_1 =>
        split at h
        case h_1 =>
          cases h
          exact .inl ⟨rfl, rfl⟩
        case h_2 =>
          split at h <;> cases h
          exact .inl ⟨rfl, rfl⟩
  case abort pid e =>
    split at h
    case h_2 => cases h
    case h_1 =>
      split at h <;> cases h
      exact .inl ⟨rfl, rfl⟩
  all_goals
    split at h <;> cases h
    exact .inl ⟨rfl, rfl⟩

-- Every statement of a transaction has been answered by a state that the system has been in.
theorem Steps.replied {G : Y.Label → Y.State → Prop} {s₀ s : Y.State} {c : Y.Call} {t : Y.Session c}
    {k : Except ε (Y.Result c) → Y.Code} (h : Steps G s₀ s) (hi : ∀ pid, s₀.procs pid = none) (hp : s.procs pid = some (.inside c t k))
    (ht : t.trace = tr ++ ⟨o, r⟩ :: tr') :
    ∃ s₁ k' amb, Steps G s₀ s₁ ∧ Steps G s₁ s ∧ s₁.procs pid = some (.inside c ⟨.op o k', tr, t.startedAt⟩ k) ∧
      Y.reply o t.startedAt amb (Y.replay tr s₁.db) = .ok r := by
  induction h generalizing t tr'
  case refl => exact nomatch (hi pid).symm.trans hp
  case tail s₁ s₂ hs e ih =>
    have ⟨_, _, he⟩ := e
    obtain hp | hn | ⟨amb, o', k', tr₁, r', hp, hr, hn⟩ := step_inside he hp
    case inl =>
      have ⟨s₃, k', amb, h₁, h₂, h₃⟩ := ih hp ht
      exact ⟨s₃, k', amb, h₁, h₂.tail e, h₃⟩
    case inr.inl =>
      rw [hn] at ht
      simp at ht
    case inr.inr =>
      rw [hn] at ht
      obtain rfl | ⟨tr', a, rfl⟩ := List.eq_nil_or_concat tr'
      case inl =>
        have ⟨htr, he⟩ := List.append_inj' ht rfl
        cases htr
        cases he
        exact ⟨s₁, k', amb, hs, .single e, hp, hr⟩
      case inr =>
        rw [List.concat_eq_append, ← List.cons_append, ← List.append_assoc] at ht
        have ⟨htr, _⟩ := List.append_inj' ht rfl
        have ⟨s₃, k', amb, h₁, h₂, h₃⟩ := ih hp htr
        exact ⟨s₃, k', amb, h₁, h₂.tail e, h₃⟩

-- Runs a schedule, all of whose steps have to pass a check.
def run (check : Y.Label → Y.State → Bool) : List Y.Label → Y.State → Option Y.State
  | [],      s => some s
  | l :: ls, s => if check l s then (step l s).bind (run check ls) else none

theorem Steps.of_run {G : Y.Label → Y.State → Prop} {check : Y.Label → Y.State → Bool} {ls : List Y.Label}
    {s s' : Y.State} (hg : ∀ l ∈ ls, ∀ s, check l s → G l s) (h : run check ls s = some s') : Steps G s s' := by
  induction ls generalizing s
  case nil =>
    cases h
    exact .refl
  case cons l ls ih =>
    rw [run] at h
    split at h
    case isFalse => cases h
    case isTrue hc =>
      have ⟨s₁, h₁, h₂⟩ := Option.bind_eq_some_iff.mp h
      exact .head ⟨l, hg l (by simp) s hc, h₁⟩ <| ih (fun l hl => hg l (by simp [hl])) h₂

end System
