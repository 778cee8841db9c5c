import Logon.Delivery
import Logon.Library.Realization
import Logon.Outbox
import Logon.Progress

-- However processes have been interrupted, what is released can still be delivered.

namespace Logon

open System Program PostgresExecutionService ExecutionOutboxPublisher

variable {host : Host} {G : Guard} {s s' : platform.State}

theorem Reachable.owned (h : Reachable G s) : s.Owned :=
  have ⟨_, hs⟩ := h
  (State.Owned.initial _ _ _).steps hs

theorem Reachable.bounded (h : Reachable G s) : s.Bounded :=
  have ⟨_, hs⟩ := h
  (State.Bounded.initial _ _ _).steps hs

-- All dispatches are for the one queue that there is.
theorem Reachable.queueName (h : Reachable G s) (hf : s.db.dispatches.find e = some row) :
    row.queueName = EXECUTION_QUEUE_NAME := by
  have ⟨_, hs⟩ := h.atomic G.meets_none
  refine @AtomicSteps.log_invariant _ _ _ _ _ (fun db _ => ∀ e row, db.dispatches.find e = some row →
    row.queueName = EXECUTION_QUEUE_NAME) hs (fun _ _ hf => (by cases hf)) ?_ e row hf
  intro g pid c r now db' _ hc _ ih e row hf
  have ht : Touches ⟨pid, c, r, now⟩ e (g.db.dispatches.find e) (db'.dispatches.find e) := hc.touches
  rw [hf] at ht
  generalize ho : g.db.dispatches.find e = old at ht
  cases ht
  case same    => exact ih e row ho
  case created => rfl
  all_goals
    have hq := ih e _ ho
    exact hq

theorem alone_realizable {allow : Time → Db → Ambient → Prop} {ambient : (a : Action) → Ambient → Prop} {now : Time}
    (ha : ∀ db, ∃ amb, allow now db amb ∧ amb.skip = false) (hb : ∀ a, ∃ amb, ambient a amb) :
    (alone allow ambient).Realizable now where
  step h    := by
    obtain ⟨⟨amb, _, hr⟩, hs, hd⟩ := h
    exact ⟨amb, hr, hs, hd⟩
  fails h   := by
    obtain ⟨amb, _, hr⟩ := h
    exact ⟨amb, hr⟩
  replies o db := by
    have ⟨amb, ha, hs⟩ := ha db
    cases hr : Statement.reply o now amb db
    case ok r    => exact .inl ⟨r, o.effect r db, ⟨amb, ha, hr⟩, Statement.skips_of_reply hr hs, rfl⟩
    case error e => exact .inr ⟨e, amb, ha, hr⟩
  ambient   := hb
  may _ _   := trivial

-- The queue takes all jobs.
abbrev serving (now : Time) : Regime platform :=
  publishing (fun _ => false) now

-- A state in which no transaction is in the way of others.
structure Resting (host : Host) (s : platform.State) : Prop where
  reachable : Reachable (Guard.clients host) s
  unlocked  : s.Unlocked

theorem Guard.clients_of_ne_spawn (l : platform.Label) (s : platform.State) (h : ∀ pid code, l ≠ .spawn pid code) :
    Guard.clients host l s := by
  cases l
  case spawn pid code => exact absurd rfl (h pid code)
  all_goals trivial

-- Transactions in progress can be ended.
theorem Reachable.exists_resting (h : Reachable (Guard.clients host) s) :
    ∃ s', Steps (Guard.clients host) s s' ∧ Resting host s' ∧ s'.toGlobal = s.toGlobal := by
  have hf : platform.fault (.database (.other "")) := rfl
  obtain ⟨s', hs, hg, hu⟩ := h.owned.exists_unlocked Guard.clients_of_ne_spawn h.bounded hf
  exact ⟨s', hs, ⟨h.trans hs, hu⟩, hg⟩

namespace Resting

variable (h : Resting host s)
include h

theorem exists_spawned (hc : Client host code) :
    ∃ pid s', Steps (Guard.clients host) s s' ∧ Resting host s' ∧ s'.toGlobal = s.toGlobal ∧
      s'.procs pid = some (.outside code) := by
  have ⟨pid, hp⟩ := h.reachable.bounded.fresh
  have hs : Steps (Guard.clients host) s (s.setProc pid (.outside code)) := by
    refine .single ⟨.spawn pid code, hc, ?_⟩
    simp only [System.step, hp]
  exact ⟨pid, _, hs, ⟨h.reachable.trans hs, fun x => h.unlocked x⟩, rfl, Function.update_self ..⟩

theorem exists_later (ht : s.clock ≤ t) :
    ∃ s', Steps (Guard.clients host) s s' ∧ Resting host s' ∧ s'.toGlobal = { s.toGlobal with clock := t } := by
  have hs : Steps (Guard.clients host) s { s with clock := t } := .single ⟨.tick t, trivial, if_pos ht⟩
  exact ⟨_, hs, ⟨h.reachable.trans hs, fun x => h.unlocked x⟩, rfl⟩

-- What a process does where nobody is in its way
theorem exists_finished {R : Regime platform} (hR : R.Realizable s.clock) (hp : s.procs pid = some (.outside code)) :
    ∃ res s', Steps (Guard.clients host) s s' ∧ Resting host s' ∧
      code.Runs (R.semantics pid) s.toGlobal res s'.toGlobal := by
  obtain ⟨res, s', hs, hr, hu⟩ := h.unlocked.exists_runs Guard.clients_of_ne_spawn hR rfl code hp
  exact ⟨res, s', hs, ⟨h.reachable.trans hs, hu⟩, hr⟩

-- What a client does where nobody is in its way
theorem exists_run {R : Regime platform} {p : Process α} {f : α → Outcome} (hR : R.Realizable s.clock)
    (hc : Client host (do return f (← p))) :
    ∃ pid res s', Steps (Guard.clients host) s s' ∧ Resting host s' ∧ p.Runs (R.semantics pid) s.toGlobal res s'.toGlobal := by
  obtain ⟨pid, s₁, hs₁, h₁, hg, hp⟩ := h.exists_spawned hc
  have hc₁ : s₁.clock = s.clock := congrArg (·.clock) hg
  obtain ⟨_, s₂, hs₂, h₂, hr⟩ := h₁.exists_finished (hc₁ ▸ hR) hp
  rw [hg] at hr
  obtain ⟨_, _, hr, _, rfl⟩ | ⟨_, _, hr⟩ := runs_bind hr
  all_goals exact ⟨pid, _, s₂, hs₁.trans hs₂, h₂, hr⟩

end Resting

-- A publisher that takes one dispatch at a time.
def single : ExecutionOutboxPublisher :=
  .new ⟨some 1, none⟩

-- What is left for a publisher to do once it has claimed
def settle (claims : List DispatchClaim) : Process ExecutionOutboxPublishResult := do
  let (dispatched, failed) ← publishAll claims 0 0
  return { claimed := claims.length, dispatched := dispatched, failed := failed }

-- What has been claimed is not claimable at that time.
theorem Claim.waiting {limit leaseMs : Int} (h : Claim P now limit leaseMs db claims db') :
    Logon.waiting now db' = Logon.waiting now db \ (claims.map (·.executionId)).toFinset := by
  obtain ⟨htook, hsame, -⟩ := h.took
  ext e
  rw [Finset.mem_sdiff, List.mem_toFinset]
  by_cases hm : e ∈ claims.map (·.executionId)
  case neg => simp only [mem_waiting, hsame e hm, hm, not_false_eq_true, and_true]
  case pos =>
    refine iff_of_false (fun hw => ?_) fun hn => hn.right hm
    obtain ⟨row', hf', hc⟩ := mem_waiting.mp hw
    obtain ⟨claim, hcl, rfl⟩ := List.mem_map.mp hm
    obtain ⟨row, -, ht⟩ := htook claim hcl
    cases ht.find'.symm.trans hf'
    simp only [DispatchRow.Claimable, reduceCtorEq, false_or, true_and, Option.mem_def, Option.some.injEq,
      exists_eq_left'] at hc
    have hl : 0 ≤ clamp leaseMs 1000 300000 := by
      unfold clamp
      omega
    exact absurd hc <| Int.not_lt.mpr <| Int.le_add_of_nonneg_right hl

-- What becomes of an execution when its job is handled: `INTAKE` ends, and any other status stays.
def ExecutionStatus.accepted (status : ExecutionStatus) : ExecutionStatus :=
  if status = .intake then .context else status

section
variable {g g' : platform.Global} {res : Except KernelError Unit}

end

namespace Sample

end Sample

end Logon
