import Logon.Library.System

-- Transactions that lock what they rely on take effect at one instant, namely when they commit. This
-- module makes that precise: a system of interleaved statements refines a system whose transactions
-- run in one step.

namespace Program

variable {S : Signature} {σ ε α : Type}

-- The executed part of a program whose operations have a deterministic effect.
inductive Steps (answer : (o : S.Op) → σ → S.Reply o → Prop) (effect : (o : S.Op) → S.Reply o → σ → σ) :
    Program S ε α → σ → List (Engine.Entry S) → Program S ε α → Prop
  | nil  : Steps answer effect p s [] p
  | cons : answer o s r → Steps answer effect (k r) (effect o r s) tr p →
           Steps answer effect (.op o k) s (⟨o, r⟩ :: tr) p

variable {ρ ω : Type} {E : Engine S σ ρ ω ε} {answer : (o : S.Op) → σ → S.Reply o → Prop}

theorem Steps.snoc {p : Program S ε α} {k : S.Reply o → Program S ε α}
    (h : Steps answer E.effect p s tr (.op o k)) (ha : answer o (E.replay tr s) r) :
    Steps answer E.effect p s (tr ++ [⟨o, r⟩]) (k r) := by
  generalize hq : Program.op o k = q at h
  induction h
  case nil              => exact hq ▸ .cons ha .nil
  case cons ha' _ ih => exact .cons ha' <| ih ha hq

-- A program that was executed to its end has run.
theorem Steps.runs {p q : Program S ε α} (h : Steps answer E.effect p s tr q)
    (hq : q.Runs (E.loose answer) (E.replay tr s) res s') : p.Runs (E.loose answer) s res s' := by
  induction h
  case nil              => exact hq
  case cons ha _ ih => exact .inl ⟨_, _, ⟨ha, rfl⟩, ih hq⟩

theorem steps_pure {a : α} {q : Program S ε α} (h : Steps answer E.effect (pure a) s tr q) :
    tr = [] ∧ q = pure a := by
  cases h
  exact ⟨rfl, rfl⟩

theorem steps_throw {e : ε} {q : Program S ε α} (h : Steps answer E.effect (throw e) s tr q) :
    tr = [] ∧ q = throw e := by
  cases h
  exact ⟨rfl, rfl⟩

theorem steps_op {k : S.Reply o → Program S ε α} {q : Program S ε α}
    (h : Steps answer E.effect (op o k) s tr q) :
    tr = [] ∧ q = op o k ∨
    ∃ r tr', tr = ⟨o, r⟩ :: tr' ∧ answer o s r ∧ Steps answer E.effect (k r) (E.effect o r s) tr' q := by
  cases h
  case nil          => exact .inl ⟨rfl, rfl⟩
  case cons ha hk => exact .inr ⟨_, _, rfl, ha, hk⟩

-- A sequence of two programs is either still in its first part, or past it.
theorem steps_bind {p : Program S ε α} {f : α → Program S ε β} {q : Program S ε β}
    (h : Steps answer E.effect (p.bind f) s tr q) :
    (∃ o k, Steps answer E.effect p s tr (op o k) ∧ q = op o fun r => (k r).bind f) ∨
    (∃ e, Steps answer E.effect p s tr (throw e) ∧ q = throw e) ∨
    ∃ a tr₁ tr₂, tr = tr₁ ++ tr₂ ∧ Steps answer E.effect p s tr₁ (pure a) ∧
      Steps answer E.effect (f a) (E.replay tr₁ s) tr₂ q := by
  induction p generalizing s tr
  case pure a  => exact .inr <| .inr ⟨a, [], tr, rfl, .nil, h⟩
  case throw e =>
    have ⟨ht, hq⟩ := steps_throw h
    exact .inr <| .inl ⟨e, ht ▸ .nil, hq⟩
  case op o k ih =>
    obtain ⟨rfl, rfl⟩ | ⟨r, tr', rfl, ha, hk⟩ := steps_op h
    case inl => exact .inl ⟨o, k, .nil, rfl⟩
    case inr =>
      obtain ⟨o', k', hs, hq⟩ | ⟨e, hs, hq⟩ | ⟨a, tr₁, tr₂, rfl, h₁, h₂⟩ := ih r hk
      · exact .inl ⟨o', k', .cons ha hs, hq⟩
      · exact .inr <| .inl ⟨e, .cons ha hs, hq⟩
      · exact .inr <| .inr ⟨a, ⟨o, r⟩ :: tr₁, tr₂, rfl, .cons ha h₁, h₂⟩

-- What is executed, and what is left to be executed, is of the kind that the program uses.
theorem Steps.uses {A : S.Op → Prop} {p q : Program S ε α} (h : Steps answer E.effect p s tr q) (hu : p.Uses A) :
    (∀ e ∈ tr, A e.fst) ∧ q.Uses A := by
  induction h
  case nil           => exact ⟨nofun, hu⟩
  case cons _ _ ih =>
    have ⟨ht, hq⟩ := ih <| hu.right _
    exact ⟨List.forall_mem_cons.mpr ⟨hu.left, ht⟩, hq⟩

end Program

namespace Engine

variable {S : Signature} {σ ρ ω ε : Type}

-- Which slice of the database each lock protects.
--
-- `Same x s s'` says that the slice protected by the lock `x` is the same in `s` and `s'`. A
-- statement with reply `r` reads and writes only the slices in its `footprint`, except for what it
-- learns from facts which are preserved as the database `Grows`.
structure Discipline (E : Engine S σ ρ ω ε) (footprint : (o : S.Op) → S.Reply o → List ρ)
    (answer : Time → (o : S.Op) → σ → S.Reply o → Prop) where
  Same        : ρ → σ → σ → Prop
  Grows       : σ → σ → Prop
  same        : ∀ x, Equivalence (Same x)
  grows_refl  : ∀ s, Grows s s
  grows_trans : ∀ {s₁ s₂ s₃}, Grows s₁ s₂ → Grows s₂ s₃ → Grows s₁ s₃
  grows       : ∀ o r s, Grows s (E.effect o r s)
  frame       : ∀ {o r x} s, x ∉ footprint o r → Same x s (E.effect o r s)
  congr_grows : ∀ {o r s s'}, Grows s s' → (∀ x ∈ footprint o r, Same x s s') →
                Grows (E.effect o r s) (E.effect o r s')
  congr_same  : ∀ {o r s s'}, Grows s s' → (∀ x ∈ footprint o r, Same x s s') →
                ∀ x ∈ footprint o r, Same x (E.effect o r s) (E.effect o r s')
  stable      : ∀ {now o r s s'}, Grows s s' → (∀ x ∈ footprint o r, Same x s s') →
                answer now o s r → answer now o s' r
  faults      : ∀ {o now amb s e}, E.reply o now amb s = .error e → E.fault e

section
variable (E : Engine S σ ρ ω ε) (footprint : (o : S.Op) → S.Reply o → List ρ)

-- A program which, from given locks on, holds the locks of every slice its statements use. The
-- postcondition `Q` is about the result and the locks that are then held.
def Guarded : Program S ε α → (ρ → Prop) → (Except ε α → (ρ → Prop) → Prop) → Prop
  | .pure a,  H, Q => Q (.ok a) H
  | .throw e, H, Q => Q (.error e) H
  | .op o k,  H, Q => ∀ r, (∀ x ∈ footprint o r, H x ∨ x ∈ E.locks o r) ∧
                      Guarded (k r) (fun x => H x ∨ x ∈ E.locks o r) Q

end

variable {E : Engine S σ ρ ω ε} {footprint : (o : S.Op) → S.Reply o → List ρ}

theorem Guarded.mono {p : Program S ε α} {H H' : ρ → Prop} {Q Q' : Except ε α → (ρ → Prop) → Prop}
    (hh : ∀ x, H x → H' x) (hq : ∀ res K K', (∀ x, K x → K' x) → Q res K → Q' res K')
    (h : E.Guarded footprint p H Q) : E.Guarded footprint p H' Q' := by
  induction p generalizing H H'
  case pure  => exact hq _ _ _ hh h
  case throw => exact hq _ _ _ hh h
  case op ih =>
    intro r
    exact ⟨fun x hx => (h r).left x hx |>.imp_left (hh x), ih _ (fun x => Or.imp_left (hh x)) (h r).right⟩

theorem Guarded.bind {p : Program S ε α} {f : α → Program S ε β} {H : ρ → Prop}
    {Q : Except ε β → (ρ → Prop) → Prop}
    (h : E.Guarded footprint p H fun
      | .ok a, K    => E.Guarded footprint (f a) K Q
      | .error e, K => Q (.error e) K) :
    E.Guarded footprint (p.bind f) H Q := by
  induction p generalizing H
  case pure  => exact h
  case throw => exact h
  case op ih => exact fun r => ⟨(h r).left, ih _ (h r).right⟩

theorem Guarded.tryCatch {p : Program S ε α} {f : ε → Program S ε α} {H : ρ → Prop}
    {Q : Except ε α → (ρ → Prop) → Prop}
    (h : E.Guarded footprint p H fun
      | .ok a, K    => Q (.ok a) K
      | .error e, K => E.Guarded footprint (f e) K Q) :
    E.Guarded footprint (p.tryCatch f) H Q := by
  induction p generalizing H
  case pure  => exact h
  case throw => exact h
  case op ih => exact fun r => ⟨(h r).left, ih _ (h r).right⟩

-- A guarded program only throws what its postcondition allows, and the faults of the server.
theorem Guarded.throws {answer : (o : S.Op) → σ → S.Reply o → Prop} {p : Program S ε α} {H : ρ → Prop}
    {Q : Except ε α → (ρ → Prop) → Prop} (h : E.Guarded footprint p H Q)
    (hr : p.Runs (E.loose answer) s (.error e) s') : (∃ K, Q (.error e) K) ∨ E.fault e := by
  induction p generalizing H s
  case pure => cases hr.left
  case throw =>
    cases hr.left
    exact .inl ⟨H, h⟩
  case op ih =>
    cases hr
    case inl hr =>
      have ⟨r, _, _, hr⟩ := hr
      exact ih r (h r).right hr
    case inr hr =>
      have ⟨_, hf, he, _⟩ := hr
      cases he
      exact .inr hf

namespace Discipline

variable {answer : Time → (o : S.Op) → σ → S.Reply o → Prop} {D : Discipline E footprint answer}

theorem replay_grows (tr : List (Entry S)) (s : σ) : D.Grows s (E.replay tr s) := by
  induction tr generalizing s
  case nil          => exact D.grows_refl s
  case cons e tr ih => exact D.grows_trans (D.grows e.fst e.snd s) (ih _)

theorem replay_frame {tr : List (Entry S)} (s : σ) (h : ∀ e ∈ tr, x ∉ footprint e.fst e.snd) :
    D.Same x s (E.replay tr s) := by
  induction tr generalizing s
  case nil          => exact (D.same x).refl s
  case cons e tr ih =>
    exact (D.same x).trans (D.frame s <| h e (by simp)) (ih _ fun e he => h e (by simp [he]))

theorem effect_same {s s' : σ} (hg : D.Grows s s') (hf : ∀ x ∈ footprint o r, D.Same x s s')
    (h : D.Same x s s') : D.Same x (E.effect o r s) (E.effect o r s') := by
  by_cases hx : x ∈ footprint o r
  case pos => exact D.congr_same hg hf x hx
  case neg => exact (D.same x).trans ((D.same x).symm <| D.frame s hx) <| (D.same x).trans h (D.frame s' hx)

-- Statements take databases that agree on their footprint to databases that agree just as much.
theorem replay_agree {tr : List (Entry S)} {s s' : σ} (hg : D.Grows s s')
    (hf : ∀ e ∈ tr, ∀ x ∈ footprint e.fst e.snd, D.Same x s s') :
    D.Grows (E.replay tr s) (E.replay tr s') ∧
    ∀ x, D.Same x s s' → D.Same x (E.replay tr s) (E.replay tr s') := by
  induction tr generalizing s s'
  case nil          => exact ⟨hg, fun _ => id⟩
  case cons e tr ih =>
    have he := hf e (by simp)
    have hs {x} (h : D.Same x s s') := effect_same hg he h
    have ⟨hg', hs'⟩ := ih (D.congr_grows hg he) fun e' he' x hx => hs <| hf e' (by simp [he']) x hx
    exact ⟨hg', fun x h => hs' x (hs h)⟩

end Discipline

end Engine

namespace System

variable {S : Signature} {σ ρ ω ε : Type}

-- The system in which a transaction is a single step. A regime says what a transaction and an action
-- can do in that step, and which transactions may take it.
structure Regime (Y : System S σ ρ ω ε) where
  tx      : Time → Semantics S σ ε
  fault   : ε → Prop
  ambient : (a : Y.Action) → ω → Prop
  may     : Y.Call → Y.Global → Prop

variable {Y : System S σ ρ ω ε}

-- A transaction or an action of the process `pid`, in one step.
inductive Do (R : Regime Y) (pid : Pid) : (o : Y.outer.Op) → Y.Global → Y.outer.Reply o → Y.Global → Prop
  | commit {c a now db'} {g : Y.Global} :
    R.may c g → now ≤ g.clock → (Y.body c).Runs (R.tx now) g.db (.ok a) db' →
    Do R pid (.inl c) g (.ok a) { g with db := db', log := g.log ++ [⟨pid, c, a, now⟩] }
  | throw {c e now db'} {g : Y.Global} :
    now ≤ g.clock → (Y.body c).Runs (R.tx now) g.db (.error e) db' → Do R pid (.inl c) g (.error e) g
  | fault {c e} {g : Y.Global} :
    R.fault e → Do R pid (.inl c) g (.error e) g
  | act {a amb} {g : Y.Global} :
    R.ambient a amb →
    Do R pid (.inr a) g (Y.act a amb g.db g.world).fst { g with world := (Y.act a amb g.db g.world).snd }

-- The big-step meaning of a process that is run without interruption.
def Regime.semantics (R : Regime Y) (pid : Pid) : Semantics Y.outer Y.Global ε where
  step  := Do R pid
  fails := fun _ _ _ => False

variable (Y) in
structure Atomic extends Global Y where
  codes : Pid → Option Y.Code

namespace Atomic

inductive Step (R : Regime Y) (spawnable : Y.Code → Y.Global → Prop) : Y.Atomic → Y.Atomic → Prop
  | spawn {s : Y.Atomic} {pid code} :
    s.codes pid = none → spawnable code s.toGlobal →
    Step R spawnable s { s with codes := Function.update s.codes pid (some code) }
  | tick {s : Y.Atomic} {t} :
    s.clock ≤ t → Step R spawnable s { s with clock := t }
  | op {s : Y.Atomic} {pid o k r g} :
    s.codes pid = some (.op o k) → Do R pid o s.toGlobal r g →
    Step R spawnable s { toGlobal := g, codes := Function.update s.codes pid (some (k r)) }

abbrev Steps (R : Regime Y) (spawnable : Y.Code → Y.Global → Prop) : Y.Atomic → Y.Atomic → Prop :=
  Relation.ReflTransGen (Step R spawnable)

-- What every transaction and action preserves holds in every state.
theorem Steps.invariant {R : Regime Y} {spawnable : Y.Code → Y.Global → Prop} {P : Y.Global → Prop}
    {s s' : Y.Atomic} (h : Steps R spawnable s s') (hp : P s.toGlobal)
    (ht : ∀ g t, g.clock ≤ t → P g → P { g with clock := t })
    (hd : ∀ pid o g r g', Do R pid o g r g' → P g → P g') : P s'.toGlobal := by
  induction h
  case refl => exact hp
  case tail e ih =>
    cases e
    case spawn   => exact ih
    case tick h  => exact ht _ _ h ih
    case op h hd' => exact hd _ _ _ _ _ hd' ih

end Atomic

-- The atomic system that a discipline with the given knowledge about replies justifies.
def loose (Y : System S σ ρ ω ε) (answer : Time → (o : S.Op) → σ → S.Reply o → Prop)
    (may : Y.Call → Y.Global → Prop) : Regime Y where
  tx      := fun now => Y.toEngine.loose (answer now)
  fault   := fun e => Y.fault e
  ambient := fun _ _ => True
  may     := may

def Process.code : Y.Process → Y.Code
  | .outside code => code
  | .inside c _ k => .op (.inl c) k

namespace State

-- A transaction that has not committed yet has done nothing yet.
def atomic (s : Y.State) : Y.Atomic where
  toGlobal := s.toGlobal
  codes    := fun pid => (s.procs pid).map Process.code

def Holds (s : Y.State) (pid : Pid) (x : ρ) : Prop :=
  s.holder x = some pid

theorem setProc_atomic (s : Y.State) (pid : Pid) (p : Y.Process) :
    (s.setProc pid p).atomic =
    { s.atomic with codes := Function.update s.atomic.codes pid (some p.code) } := by
  simp only [atomic, setProc, Atomic.mk.injEq, true_and]
  funext pid'
  by_cases h : pid' = pid
  · subst h; simp
  · simp [h]

theorem setProc_atomic_eq {s : Y.State} {p q : Y.Process}
    (h : s.procs pid = some p) (hc : q.code = p.code) : (s.setProc pid q).atomic = s.atomic := by
  simp only [setProc_atomic, hc]
  congr
  exact Function.update_eq_self_iff.mpr <| by simp [atomic, h]

theorem finish_atomic (s : Y.State) (pid : Pid) (code : Y.Code) :
    (s.finish pid code).atomic =
    { s.atomic with codes := Function.update s.atomic.codes pid (some code) } :=
  setProc_atomic s pid (.outside code)

theorem atomic_codes {s : Y.State} {p : Y.Process} (h : s.procs pid = some p) :
    s.atomic.codes pid = some p.code := by
  simp [atomic, h]

variable {footprint : (o : S.Op) → S.Reply o → List ρ}
  {answer : Time → (o : S.Op) → σ → S.Reply o → Prop} {D : Y.Discipline footprint answer}

-- Executing a transaction's statements so far at once, on any database to which the other
-- transactions could turn the current one, gives the same replies.
structure Sound (D : Y.Discipline footprint answer) (s : Y.State) (pid : Pid) {c : Y.Call} (t : Y.Session c) :
    Prop where
  guarded : Y.Guarded footprint t.residual (s.Holds pid) fun _ _ => True
  covered : ∀ e ∈ t.trace, ∀ x ∈ footprint e.fst e.snd, s.Holds pid x
  steps   : ∀ db, D.Grows s.db db → (∀ x, s.Holds pid x → D.Same x s.db db) →
            Program.Steps (answer t.startedAt) Y.effect (Y.body c) db t.trace t.residual
  started : t.startedAt ≤ s.clock

theorem Sound.transfer {s s' : Y.State} {c : Y.Call} {t : Y.Session c} (h : s.Sound D pid t)
    (hh : ∀ x, s.Holds pid x → s'.Holds pid x) (hg : D.Grows s.db s'.db)
    (hd : ∀ x, s.Holds pid x → D.Same x s.db s'.db) (hc : s.clock ≤ s'.clock) :
    s'.Sound D pid t where
  guarded := h.guarded.mono hh fun _ _ _ _ => id
  covered := fun e he x hx => hh x <| h.covered e he x hx
  steps   := fun db hg' hd' =>
    h.steps db (D.grows_trans hg hg') fun x hx => (D.same x).trans (hd x hx) (hd' x <| hh x hx)
  started := Int.le_trans h.started hc

theorem Sound.begin (hb : Y.Guarded footprint (Y.body c) (fun _ => False) fun _ _ => True) (s : Y.State) :
    s.Sound D pid (⟨Y.body c, [], s.clock⟩ : Y.Session c) where
  guarded := hb.mono nofun fun _ _ _ _ => id
  covered := by simp
  steps   := fun _ _ _ => .nil
  started := Int.le_refl _

def AllSound (D : Y.Discipline footprint answer) (s : Y.State) : Prop :=
  ∀ pid c t k, s.procs pid = some (.inside c t k) → s.Sound D pid t

-- Establishes soundness of a state in which only one process has moved, provided that the other
-- processes' locks have not been touched.
theorem AllSound.move {s s' : Y.State} (h : s.AllSound D) (p : Y.Process)
    (hp : s'.procs = Function.update s.procs pid (some p))
    (hh : ∀ pid' x, pid' ≠ pid → s.Holds pid' x → s'.Holds pid' x) (hg : D.Grows s.db s'.db)
    (hd : ∀ pid' x, pid' ≠ pid → s.Holds pid' x → D.Same x s.db s'.db) (hc : s.clock ≤ s'.clock)
    (hs : ∀ c t k, p = .inside c t k → s'.Sound D pid t) : s'.AllSound D := by
  intro pid' c t k hk
  by_cases he : pid' = pid
  case pos =>
    subst he
    simp only [hp, Function.update_self, Option.some.injEq] at hk
    exact hs c t k hk
  case neg =>
    rw [hp, Function.update_of_ne he] at hk
    exact h pid' c t k hk |>.transfer (fun x => hh pid' x he) hg (fun x => hd pid' x he) hc

theorem AllSound.finish {s : Y.State} (h : s.AllSound D) (pid : Pid) (code : Y.Code) :
    (s.finish pid code).AllSound D := by
  refine h.move (.outside code) rfl ?_ (D.grows_refl _) (fun _ x _ _ => (D.same x).refl _) (Int.le_refl _) nofun
  intro pid' x hn hx
  simp only [Holds, State.finish] at hx ⊢
  simp [hx, hn]

end State

variable {footprint : (o : S.Op) → S.Reply o → List ρ}
  {answer : Time → (o : S.Op) → σ → S.Reply o → Prop} {D : Y.Discipline footprint answer}

-- A statement keeps its own transaction sound.
theorem State.Sound.execute [DecidableEq ρ] {s : Y.State} {c : Y.Call} {tr : List (Engine.Entry S)}
    {k' : S.Reply o → Program S ε (Y.Result c)} {k : Except ε (Y.Result c) → Y.Code}
    (h : s.Sound D pid ⟨.op o k', tr, now⟩) (ha : answer now o (Y.replay tr s.db) r) :
    ((s.setProc pid (.inside c ⟨k' r, tr ++ [⟨o, r⟩], now⟩ k)).acquire pid (Y.locks o r)).Sound D pid
      (⟨k' r, tr ++ [⟨o, r⟩], now⟩ : Y.Session c) := by
  have hh {x} : ((s.setProc pid (.inside c ⟨k' r, tr ++ [⟨o, r⟩], now⟩ k)).acquire pid
      (Y.locks o r)).Holds pid x ↔ s.Holds pid x ∨ x ∈ Y.locks o r := by
    simp only [Holds, acquire, setProc]
    split <;> simp_all
  obtain ⟨hf, hg⟩ := h.guarded r
  constructor
  case guarded => exact hg.mono (fun x => hh.mpr) fun _ _ _ _ => id
  case covered =>
    intro e he x hx
    rw [List.mem_append] at he
    cases he
    case inl he => exact hh.mpr <| .inl <| h.covered e he x hx
    case inr he =>
      cases List.mem_singleton.mp he
      exact hh.mpr <| hf x hx
  case steps =>
    intro db hg hd
    have hd {x} (hx : s.Holds pid x ∨ x ∈ Y.locks o r) : D.Same x s.db db := hd x <| hh.mpr hx
    apply (h.steps db hg fun x hx => hd <| .inl hx).snoc
    obtain ⟨hg', hs⟩ := D.replay_agree hg fun e he x hx => hd <| .inl <| h.covered e he x hx
    exact D.stable hg' (fun x hx => hs x <| hd <| hf x hx) ha
  case started => exact h.started

-- The effect of a whole transaction respects the locks of the others.
theorem State.Sound.frame {s : Y.State} {c : Y.Call} {t : Y.Session c} (h : s.Sound D pid t)
    (hn : pid' ≠ pid) (hx : s.Holds pid' x) : D.Same x s.db (Y.replay t.trace s.db) := by
  apply D.replay_frame
  intro e he hm
  have := h.covered e he x hm
  simp_all [Holds]

theorem State.Sound.now {s : Y.State} {c : Y.Call} {t : Y.Session c} (h : s.Sound D pid t) :
    Program.Steps (answer t.startedAt) Y.effect (Y.body c) s.db t.trace t.residual :=
  h.steps s.db (D.grows_refl _) fun x _ => (D.same x).refl _

-- A step of the interleaved system is a step of the atomic system, or none that it can see.
theorem step_refines [DecidableEq ρ] {spawnable : Y.Code → Y.Global → Prop} {may : Y.Call → Y.Global → Prop}
    {l : Y.Label} {s s' : Y.State}
    (hb : ∀ c, Y.Guarded footprint (Y.body c) (fun _ => False) fun _ _ => True)
    (hspawn : ∀ pid code, l = .spawn pid code → spawnable code s.toGlobal)
    (hstmt : ∀ pid amb c o k' tr now k r, l = .stmt pid amb →
      s.procs pid = some (.inside c ⟨.op o k', tr, now⟩ k) →
      Y.reply o now amb (Y.replay tr s.db) = .ok r → answer now o (Y.replay tr s.db) r)
    (hcommit : ∀ pid c t k, l = .commit pid → s.procs pid = some (.inside c t k) → may c s.toGlobal)
    (hs : s.AllSound D) (h : step l s = some s') :
    s'.AllSound D ∧ (s'.atomic = s.atomic ∨ Atomic.Step (loose Y answer may) spawnable s.atomic s'.atomic) := by
  cases l <;> simp only [step] at h
  case spawn pid code =>
    split at h <;> cases h
    case h_1 hp =>
      constructor
      · exact hs.move _ rfl (fun _ _ _ => id) (D.grows_refl _) (fun _ x _ _ => (D.same x).refl _)
          (Int.le_refl _) (by simp)
      · rw [State.setProc_atomic]
        exact .inr <| .spawn (by simp [State.atomic, hp]) (hspawn pid code rfl)
  case tick t =>
    split at h <;> cases h
    case isTrue ht =>
      constructor
      · intro pid c t' k hk
        exact hs pid c t' k hk |>.transfer (fun _ => id) (D.grows_refl _) (fun x _ => (D.same x).refl _) ht
      · exact .inr <| .tick ht
  case begin pid =>
    split at h <;> cases h
    case h_1 c k hp =>
      constructor
      · refine hs.move _ rfl (fun _ _ _ => id) (D.grows_refl _) (fun _ x _ _ => (D.same x).refl _)
          (Int.le_refl _) ?_
        intro c t k hk
        cases hk
        exact .begin (hb c) _
      · exact .inl <| State.setProc_atomic_eq hp rfl
  case act pid amb =>
    split at h <;> cases h
    case h_1 a k hp =>
      constructor
      · exact hs.move (.outside (k (Y.act a amb s.db s.world).fst)) rfl (fun _ _ _ => id)
          (D.grows_refl _) (fun _ x _ _ => (D.same x).refl _) (Int.le_refl _) (by simp)
      · have he := congrArg Atomic.codes <| s.setProc_atomic pid (.outside (k (Y.act a amb s.db s.world).fst))
        simp only [State.atomic] at he
        simp only [State.atomic, State.setProc] at he ⊢
        rw [he]
        exact .inr <| .op (State.atomic_codes hp) (.act trivial)
  case stmt pid amb =>
    split at h
    case h_2 => cases h
    case h_1 c t k hp =>
      obtain ⟨residual, tr, now⟩ := t
      simp only [System.execute] at h
      split at h
      case h_2 => cases h
      case h_1 o k' =>
        split at h
        case h_1 e he =>
          cases h
          constructor
          · exact hs.finish _ _
          · rw [State.finish_atomic]
            exact .inr <| .op (State.atomic_codes hp) (Do.fault <| D.faults he)
        case h_2 r hr =>
          split at h <;> cases h
          case isTrue hl =>
            constructor
            · refine hs.move _ rfl ?_ (D.grows_refl _) (fun _ x _ _ => (D.same x).refl _) (Int.le_refl _) ?_
              · intro pid' x hn hx
                simp only [State.Holds, State.acquire, State.setProc] at hx ⊢
                split
                case isFalse => exact hx
                case isTrue hm =>
                  -- A statement cannot take a lock which is held by another transaction.
                  have := hl.left x (by simp [hm])
                  simp [State.Free, hx, hn] at this
              · intro c t k hk
                cases hk
                exact (hs _ _ _ _ hp).execute <| hstmt _ _ _ _ _ _ _ _ _ rfl hp hr
            · exact .inl <| State.setProc_atomic_eq hp rfl
  case commit pid =>
    split at h <;> cases h
    case h_1 c a tr now k hp =>
      have hp' := hs _ _ _ _ hp
      constructor
      · refine hs.move (.outside (k (.ok a))) rfl ?_ (D.replay_grows ..) ?_ (Int.le_refl _) (by simp)
        · intro pid' x hn hx
          simp only [State.Holds, State.finish] at hx ⊢
          simp [hx, hn]
        · intro pid' x hn hx
          exact hp'.frame hn hx
      · have he := congrArg Atomic.codes <| s.finish_atomic pid (k (.ok a))
        simp only [State.atomic] at he ⊢
        rw [he]
        exact .inr <| .op (State.atomic_codes hp) (Do.commit (hcommit _ _ _ _ rfl hp) hp'.started <|
          hp'.now.runs ⟨rfl, rfl⟩)
  case rollback pid =>
    split at h <;> cases h
    case h_1 c e tr now k hp =>
      have hp' := hs _ _ _ _ hp
      constructor
      · exact hs.finish _ _
      · rw [State.finish_atomic]
        exact .inr <| .op (State.atomic_codes hp) (Do.throw hp'.started <| hp'.now.runs ⟨rfl, rfl⟩)
  case abort pid e =>
    split at h
    case h_2 => cases h
    case h_1 c t k hp =>
      split at h <;> cases h
      case isTrue hf =>
        constructor
        · exact hs.finish _ _
        · rw [State.finish_atomic]
          exact .inr <| .op (State.atomic_codes hp) (Do.fault hf)

-- A condition on steps that admits only certain processes and commits, and under which statements only
-- give replies with the properties that a discipline relies on.
structure Justified (answer : Time → (o : S.Op) → σ → S.Reply o → Prop)
    (spawnable : Y.Code → Y.Global → Prop) (may : Y.Call → Y.Global → Prop) (G : Y.Label → Y.State → Prop) :
    Prop where
  spawn  : ∀ {pid code s}, G (.spawn pid code) s → spawnable code s.toGlobal
  stmt   : ∀ {pid amb s c o k' tr now k r}, G (.stmt pid amb) s →
           s.procs pid = some (.inside c ⟨.op o k', tr, now⟩ k) →
           Y.reply o now amb (Y.replay tr s.db) = .ok r → answer now o (Y.replay tr s.db) r
  commit : ∀ {pid s c t k}, G (.commit pid) s → s.procs pid = some (.inside c t k) → may c s.toGlobal

theorem State.AllSound.initial (db : σ) (world : Y.World) (clock : Time) :
    (System.initial db world clock).AllSound D :=
  nofun

theorem Steps.refines [DecidableEq ρ] {spawnable : Y.Code → Y.Global → Prop} {may : Y.Call → Y.Global → Prop}
    {G : Y.Label → Y.State → Prop} {s s' : Y.State} (h : Steps G s s') (j : Justified answer spawnable may G)
    (hb : ∀ c, Y.Guarded footprint (Y.body c) (fun _ => False) fun _ _ => True) (hs : s.AllSound D) :
    s'.AllSound D ∧ Atomic.Steps (loose Y answer may) spawnable s.atomic s'.atomic := by
  induction h
  case refl => exact ⟨hs, .refl⟩
  case tail s₁ s₂ _ e ih =>
    have ⟨hs₁, ha⟩ := ih
    have ⟨l, hl, e⟩ := e
    have ⟨hs₂, h⟩ := step_refines hb (fun _ _ he => j.spawn (he ▸ hl))
      (fun _ _ _ _ _ _ _ _ _ he => j.stmt (he ▸ hl)) (fun _ _ _ _ he => j.commit (he ▸ hl)) hs₁ e
    cases h
    case inl h => exact ⟨hs₂, h ▸ ha⟩
    case inr h => exact ⟨hs₂, ha.tail h⟩

end System
