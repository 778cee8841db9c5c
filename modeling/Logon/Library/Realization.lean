import Mathlib.Tactic.Push
import Logon.Library.Waiting

-- Where no locks are held, a process can be run to its end. So what atomic steps can do, the system can do as well.

namespace System

variable {S : Signature} {σ ρ ω ε : Type} {Y : System S σ ρ ω ε}

-- What is shared after a transaction has ended.
def Global.after (g : Y.Global) (pid : Pid) (c : Y.Call) (now : Time) (db : σ) : Except ε (Y.Result c) → Y.Global
  | .ok a    => { g with db := db, log := g.log ++ [⟨pid, c, a, now⟩] }
  | .error _ => g

-- A regime whose transactions, if they begin at a given time, get replies that the server can give to a transaction
-- that runs alone. There always are some, and so it is for actions.
structure Regime.Realizable (R : Regime Y) (now : Time) : Prop where
  step    : ∀ {o db r db'}, (R.tx now).step o db r db' →
            ∃ amb, Y.reply o now amb db = .ok r ∧ Y.skips o r = [] ∧ db' = Y.effect o r db
  fails   : ∀ {o db e}, (R.tx now).fails o db e → ∃ amb, Y.reply o now amb db = .error e
  replies : ∀ o db, (∃ r db', (R.tx now).step o db r db') ∨ ∃ e, (R.tx now).fails o db e
  ambient : ∀ a, ∃ amb, R.ambient a amb
  may     : ∀ c g, R.may c g

theorem Do.clock {R : Regime Y} {g g' : Y.Global} (h : Do R pid o g r g') : g'.clock = g.clock := by
  cases h <;> rfl

theorem Regime.Realizable.exists_runs {R : Regime Y} (h : R.Realizable now) (p : Program S ε α) (db : σ) :
    ∃ res db', p.Runs (R.tx now) db res db' := by
  apply Program.exists_runs (Q := fun _ => True) _ p trivial
  intro o db _
  obtain ⟨r, db', hr⟩ | hf := h.replies o db
  · exact .inl ⟨r, db', hr, trivial⟩
  · exact .inr hf

namespace State

def Unlocked (s : Y.State) : Prop :=
  ∀ x, s.holder x = none

-- Only finitely many processes have been started.
def Bounded (s : Y.State) : Prop :=
  ∃ n : Nat, ∀ pid : Nat, n ≤ pid → s.procs pid = none

theorem Unlocked.free {s : Y.State} (h : s.Unlocked) (pid : Pid) (x : ρ) : s.Free pid x :=
  .inl (h x)

-- A transaction that is the only one to hold locks leaves none behind.
theorem unlocked_finish {s : Y.State} (h : ∀ x, s.Free pid x) (code : Y.Code) : (s.finish pid code).Unlocked := by
  intro x
  simp only [finish]
  split
  case isTrue     => rfl
  case isFalse hn => exact (h x).resolve_right hn

theorem free_acquire [DecidableEq ρ] {s : Y.State} (h : ∀ x, s.Free pid x) (xs : List ρ) (x : ρ) :
    (s.acquire pid xs).Free pid x := by
  by_cases hm : x ∈ xs
  · exact .inr <| if_pos hm
  · simpa [Free, acquire, hm] using h x

theorem Bounded.initial (db : σ) (world : Y.World) (clock : Time) : (System.initial db world clock).Bounded :=
  ⟨0, fun _ _ => rfl⟩

theorem Bounded.fresh {s : Y.State} (h : s.Bounded) : ∃ pid, s.procs pid = none :=
  have ⟨n, hn⟩ := h
  ⟨n, hn n (Nat.le_refl n)⟩

theorem Bounded.update {s s' : Y.State} (h : s.Bounded) (pid : Pid) (hp : ∀ pid' ≠ pid, s'.procs pid' = s.procs pid') :
    s'.Bounded := by
  obtain ⟨n, hn⟩ := h
  refine ⟨max n (pid + 1), fun pid' hle => ?_⟩
  rw [hp pid' <| Nat.ne_of_gt <| Nat.le_trans (Nat.le_max_right ..) hle]
  exact hn pid' <| Nat.le_trans (Nat.le_max_left ..) hle

end State

variable [DecidableEq ρ]

-- A step only concerns one process.
theorem step_procs {l : Y.Label} {s s' : Y.State} (h : step l s = some s') :
    ∃ pid, ∀ pid' ≠ pid, s'.procs pid' = s.procs pid' := by
  cases l <;> simp only [step] at h
  case spawn pid code =>
    split at h <;> cases h
    exact ⟨pid, fun pid' hn => Function.update_of_ne hn ..⟩
  case tick =>
    split at h <;> cases h
    exact ⟨0, fun _ _ => rfl⟩
  case begin pid =>
    split at h <;> cases h
    exact ⟨pid, fun pid' hn => Function.update_of_ne hn ..⟩
  case act pid amb =>
    split at h <;> cases h
    exact ⟨pid, fun pid' hn => Function.update_of_ne hn ..⟩
  case stmt pid amb =>
    split at h
    case h_2 => cases h
    case h_1 =>
      unfold execute at h
      split at h
      case h_2 => cases h
      case h_1 =>
        split at h
        case h_1 =>
          cases h
          exact ⟨pid, fun pid' hn => Function.update_of_ne hn ..⟩
        case h_2 =>
          split at h <;> cases h
          exact ⟨pid, fun pid' hn => Function.update_of_ne hn ..⟩
  case commit pid =>
    split at h <;> cases h
    exact ⟨pid, fun pid' hn => Function.update_of_ne hn ..⟩
  case rollback pid =>
    split at h <;> cases h
    exact ⟨pid, fun pid' hn => Function.update_of_ne hn ..⟩
  case abort pid e =>
    split at h
    case h_2 => cases h
    case h_1 =>
      split at h <;> cases h
      exact ⟨pid, fun pid' hn => Function.update_of_ne hn ..⟩

namespace State

variable {G : Y.Label → Y.State → Prop} {s s' : Y.State}

theorem Bounded.steps (h : s.Bounded) (hs : Steps G s s') : s'.Bounded := by
  induction hs
  case refl => exact h
  case tail e ih =>
    have ⟨_, _, e⟩ := e
    have ⟨pid, hp⟩ := step_procs e
    exact ih.update pid hp

section
variable (hG : ∀ l s, (∀ pid code, l ≠ .spawn pid code) → G l s)
include hG

-- The transactions of some processes can be ended.
theorem Owned.exists_outside {e : ε} (h : s.Owned) (hf : Y.fault e) (n : Nat) :
    ∃ s', Steps G s s' ∧ s'.Owned ∧ s'.toGlobal = s.toGlobal ∧ (∀ pid : Nat, n ≤ pid → s'.procs pid = s.procs pid) ∧
      ∀ pid : Nat, pid < n → ∀ c t k, s'.procs pid ≠ some (.inside c t k) := by
  induction n
  case zero => exact ⟨s, .refl, h, rfl, fun _ _ => rfl, fun _ hn => absurd hn (Nat.not_lt_zero _)⟩
  case succ n ih =>
    obtain ⟨s₁, hs, ho, hg, hp, hn⟩ := ih
    by_cases hi : ∃ c t k, s₁.procs n = some (.inside c t k)
    case neg =>
      push Not at hi
      refine ⟨s₁, hs, ho, hg, fun pid hge => hp pid (by omega), fun pid hlt => ?_⟩
      by_cases he : pid = n
      · exact he ▸ hi
      · exact hn pid (by omega)
    case pos =>
      obtain ⟨c, t, k, hpn⟩ := hi
      have hst : System.step (.abort n e) s₁ = some (s₁.finish n (k (.error e))) := by
        simp [System.step, hpn, hf]
      have hne {pid : Nat} (he : pid ≠ n) : (s₁.finish n (k (.error e))).procs pid = s₁.procs pid :=
        Function.update_of_ne he ..
      refine ⟨_, hs.tail ⟨_, hG _ _ (by simp), hst⟩, ho.step hst, hg, fun pid hge => ?_, fun pid hlt => ?_⟩
      · rw [hne (by omega)]
        exact hp pid (by omega)
      · by_cases he : pid = n
        case pos =>
          have hps : (s₁.finish n (k (.error e))).procs n = some (.outside (k (.error e))) := Function.update_self ..
          simp [he, hps]
        case neg =>
          rw [hne he]
          exact hn pid (by omega)

-- So no locks have to stay.
theorem Owned.exists_unlocked {e : ε} (h : s.Owned) (hb : s.Bounded) (hf : Y.fault e) :
    ∃ s', Steps G s s' ∧ s'.toGlobal = s.toGlobal ∧ s'.Unlocked := by
  obtain ⟨n, hn⟩ := hb
  obtain ⟨s', hs, ho, hg, hp, hi⟩ := h.exists_outside hG hf n
  refine ⟨s', hs, hg, fun x => ?_⟩
  cases hx : s'.holder x
  case none => rfl
  case some pid =>
    refine absurd hx <| ho.not_holds fun c t k => ?_
    by_cases hlt : pid < n
    case pos => exact hi pid hlt c t k
    case neg => simp [hp pid (Nat.le_of_not_lt hlt), hn pid (Nat.le_of_not_lt hlt)]

variable {R : Regime Y} {now : Time} (hR : R.Realizable now)
include hR

-- The rest of a transaction can be executed.
theorem exists_ended {c : Y.Call} {k : Except ε (Y.Result c) → Y.Code} {p : Program S ε (Y.Result c)}
    {res : Except ε (Y.Result c)} (hp : s.procs pid = some (.inside c ⟨p, tr, now⟩ k)) (hf : ∀ x, s.Free pid x)
    (hr : p.Runs (R.tx now) (Y.replay tr s.db) res db) :
    ∃ s', Steps G s s' ∧ s'.Unlocked ∧ s'.toGlobal = s.after pid c now db res ∧
      s'.procs = Function.update s.procs pid (some (.outside (k res))) := by
  induction p generalizing s tr
  case pure a =>
    obtain ⟨rfl, rfl⟩ := hr
    have hst : System.step (.commit pid) s = some { s.finish pid (k (.ok a)) with
        db := Y.replay tr s.db, log := s.log ++ [⟨pid, c, a, now⟩] } := by
      simp only [System.step, hp]
    exact ⟨_, .single ⟨_, hG _ _ (by simp), hst⟩, fun x => unlocked_finish hf (k (.ok a)) x, rfl, rfl⟩
  case throw e =>
    obtain ⟨rfl, rfl⟩ := hr
    exact ⟨_, .single ⟨.rollback pid, hG _ _ (by simp), by simp only [System.step, hp]⟩, unlocked_finish hf _, rfl, rfl⟩
  case op o k' ih =>
    obtain ⟨r, db₁, hst, hr⟩ | ⟨e, hfail, rfl, rfl⟩ := hr
    case inr =>
      obtain ⟨amb, he⟩ := hR.fails hfail
      refine ⟨_, .single ⟨.stmt pid amb, hG _ _ (by simp), ?_⟩, unlocked_finish hf _, rfl, rfl⟩
      simp only [System.step, hp, execute, he]
    case inl =>
      obtain ⟨amb, he, hs, rfl⟩ := hR.step hst
      let t : Y.Session c := ⟨k' r, tr ++ [⟨o, r⟩], now⟩
      have e : System.step (.stmt pid amb) s = some ((s.setProc pid (.inside c t k)).acquire pid (Y.locks o r)) := by
        simp only [System.step, hp, execute, he]
        exact if_pos ⟨fun x _ => hf x, by simp [hs]⟩
      have hp₁ : ((s.setProc pid (.inside c t k)).acquire pid (Y.locks o r)).procs pid = some (.inside c t k) :=
        Function.update_self ..
      have hr : (k' r).Runs (R.tx now) (Y.replay (tr ++ [⟨o, r⟩]) s.db) res db := by
        simpa [Engine.replay] using hr
      obtain ⟨s', hs', hu, hg, hps⟩ := ih r hp₁ (free_acquire hf _) hr
      refine ⟨s', .head ⟨_, hG _ _ (by simp), e⟩ hs', hu, hg, hps.trans ?_⟩
      exact Function.update_idem ..

-- An operation of a process can be executed.
theorem Unlocked.exists_op {o : Y.outer.Op} {k : Y.outer.Reply o → Y.Code} (h : s.Unlocked) (hc : now = s.clock)
    (hp : s.procs pid = some (.outside (.op o k))) :
    ∃ r s', Steps G s s' ∧ Do R pid o s.toGlobal r s'.toGlobal ∧ s'.Unlocked ∧
      s'.procs = Function.update s.procs pid (some (.outside (k r))) := by
  cases o
  case inr a =>
    obtain ⟨amb, ha⟩ := hR.ambient a
    let p : Y.Process := .outside (k (Y.act a amb s.db s.world).fst)
    have hst : System.step (.act pid amb) s = some { s.setProc pid p with world := (Y.act a amb s.db s.world).snd } := by
      simp only [System.step, hp, p]
    exact ⟨_, _, .single ⟨_, hG _ _ (by simp), hst⟩, .act ha, fun x => h x, rfl⟩
  case inl c =>
    obtain ⟨res, db, hr⟩ := hR.exists_runs (Y.body c) s.db
    have e : System.step (.begin pid) s = some (s.setProc pid (.inside c ⟨Y.body c, [], now⟩ k)) := by
      simp only [System.step, hp, hc]
    have hp₁ : (s.setProc pid (.inside c ⟨Y.body c, [], now⟩ k)).procs pid = some (.inside c ⟨Y.body c, [], now⟩ k) :=
      Function.update_self ..
    obtain ⟨s', hs', hu, hg, hps⟩ := exists_ended hG hR hp₁ (fun x => h.free pid x) hr
    refine ⟨res, s', .head ⟨_, hG _ _ (by simp), e⟩ hs', ?_, hu, hps.trans <| Function.update_idem ..⟩
    rw [hg]
    cases res
    case ok    => exact .commit (hR.may _ _) (Int.le_of_eq hc) hr
    case error => exact .throw (Int.le_of_eq hc) hr

-- A process can be run to its end.
theorem Unlocked.exists_runs (h : s.Unlocked) (hc : now = s.clock) (p : Y.Code) (hp : s.procs pid = some (.outside p)) :
    ∃ res s', Steps G s s' ∧ p.Runs (R.semantics pid) s.toGlobal res s'.toGlobal ∧ s'.Unlocked := by
  induction p generalizing s
  case pure a  => exact ⟨.ok a, s, .refl, ⟨rfl, rfl⟩, h⟩
  case throw e => exact ⟨.error e, s, .refl, ⟨rfl, rfl⟩, h⟩
  case op o k ih =>
    obtain ⟨r, s₁, hs, hd, hu, hps⟩ := h.exists_op hG hR hc hp
    obtain ⟨res, s', hs', hr, hu'⟩ := ih r hu (hc.trans hd.clock.symm) (by simp [hps])
    exact ⟨res, s', hs.trans hs', .inl ⟨r, s₁.toGlobal, hd, hr⟩, hu'⟩

end
end State
end System
