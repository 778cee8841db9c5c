import Logon.Approvals

-- An execution only passes the approval gate with an approval, unless a transition carries it through.

namespace Logon

open System

theorem mem_of_sublist_append {l l' : List α} (h : List.Sublist [a, b] (l ++ l')) (hn : ¬List.Sublist [a, b] l) :
    b ∈ l' ∧ (a ∈ l ∨ a ∈ l') := by
  refine ⟨?_, List.mem_append.mp <| h.subset (by simp)⟩
  obtain ⟨l₁, l₂, he, h₁, h₂⟩ := List.sublist_append_iff.mp h
  obtain rfl | ⟨l₂, c, rfl⟩ := List.eq_nil_or_concat l₂
  case inl => exact absurd (by simpa [he] using h₁) hn
  case inr =>
    have hc : b = c := by simpa using congrArg List.getLast? he
    exact hc ▸ h₂.subset (by simp)

-- Clocks of processes are not behind that of the database.
abbrev Premise.punctual : Premise := .of fun now o _ r =>
  match o, r with
  | .dateNow, t => now ≤ t
  | _,        _ => true

theorem Premise.punctual_stable : punctual.Stable := by
  intro now o r db db' _ _ hp
  cases o <;> exact hp

-- No transition carries an execution from `APPROVAL` to `EXECUTION`.
def Call.heedsGate (g : platform.Global) : Call → Bool
  | .transition e .execution _ _ => (g.db.executions.find e).all (·.status ≠ .approval)
  | _                            => true

-- A decision has granted an approval of the execution before it expired, and has moved the execution.
structure Granted (db : Db) (log : List platform.Commit) (e : String) (pid : Pid) (decision : ApprovalDecision)
    (decidedAt : Time) : Prop where
  committed : ⟨pid, .decideApproval decision, ⟨some decision, none⟩, decidedAt⟩ ∈ log
  execution : decision.executionId = e
  approved  : decision.status = .approved
  moved     : ∃ n t, db.events.find (e, n) = some (.of (decisionEvent decision n) t)
  approval  : ∃ row execution, db.approvals.find decision.approvalId = some row ∧ row.executionId = e ∧
              db.executions.find e = some execution ∧ row.tenantId = execution.tenantId ∧
              ∀ x ∈ row.expiresAt, decidedAt < x

theorem Granted.later {decision : ApprovalDecision} (hl : log ⊆ log') (hg : db.Grows db')
    (h : Granted db log e pid decision decidedAt) : Granted db' log' e pid decision decidedAt where
  committed := hl h.committed
  execution := h.execution
  approved  := h.approved
  moved     := by
    have ⟨n, t, hf⟩ := h.moved
    exact ⟨n, t, hg.findEvent hf⟩
  approval  := by
    have ⟨row, execution, ha, he, hx, ht, hd⟩ := h.approval
    have ⟨row', ha', hs⟩ := hg.approvals _ _ ha
    have ⟨execution', hx', ht'⟩ := hg.executions _ _ hx
    refine ⟨row', execution', ha', hs.executionId.trans he, hx', ?_, by rwa [hs.expiresAt]⟩
    rw [hs.tenantId, ht, ht'.tenantId]

-- The execution was in `APPROVAL` before it came to `EXECUTION`.
def Db.PassedGate (db : Db) (e : String) : Prop :=
  List.Sublist [.approval, .execution] (db.statuses e)

instance (db : Db) (e : String) : Decidable (db.PassedGate e) :=
  inferInstanceAs (Decidable (List.Sublist _ _))

theorem Db.Appends.passedGate {kind : ExecutionStatus → Prop} (h : Db.Appends db db' e kind)
    (hp : db'.PassedGate e) (hn : ¬db.PassedGate e) : kind .execution ∧ (.approval ∈ db.statuses e ∨ kind .approval) := by
  have ⟨l, hl, hk⟩ := h
  rw [PassedGate, hl] at hp
  have ⟨hx, ha⟩ := mem_of_sublist_append hp hn
  exact ⟨hk _ hx, ha.imp_right (hk _)⟩

theorem Decide.granted {decision : ApprovalDecision} (h : Decide .punctual now decision db outcome db')
    (hg : db.Grows db') (hp : db'.PassedGate e) (hn : ¬db.PassedGate e) :
    Granted db' (log ++ [⟨pid, .decideApproval decision, outcome, now⟩]) e pid decision now := by
  cases h
  case expired hr =>
    have ⟨⟨_, hx⟩, _⟩ := hr.appends.passedGate hp hn
    cases hx
  case decided execution row n db₁ db₂ db₃ ho hx hd hv hs hu =>
    subst hd
    have hp : db₂.PassedGate e := by
      cases hu
      obtain ⟨-, rfl⟩ | ⟨-, -, rfl⟩ | ⟨-, -, rfl⟩ := hs <;> exact hp
    have ⟨⟨he, hx'⟩, _⟩ := hv.appends.passedGate hp hn
    have ha : decision.status = .approved := by
      cases hd : decision.status
      case approved => rfl
      case rejected => simp [decisionEvent, hd, PostgresExecutionService.nextStatus] at hx'
    replace he : e = decision.executionId := he
    subst he
    constructor
    case committed => simp
    case execution => rfl
    case approved  => exact ha
    case moved     =>
      have ⟨t, ht⟩ := hv.find
      refine ⟨n, t, ?_⟩
      cases hu
      obtain ⟨-, rfl⟩ | ⟨-, -, rfl⟩ | ⟨-, -, rfl⟩ := hs <;> exact ht
    case approval  =>
      have ⟨row', hr, hs⟩ := hg.approvals _ _ ho.findApproval
      have ⟨execution', hr', ht⟩ := hg.executions _ _ ho.findExecution
      refine ⟨row', execution', hr, hs.executionId.trans ho.bound, hr', ?_, ?_⟩
      · rw [hs.tenantId, ho.tenant, ht.tenantId]
      · rw [hs.expiresAt]
        intro x hm
        have ⟨t, hn, ht⟩ := hx x hm
        replace hn : now ≤ t := by simpa [Premise.of] using hn
        exact Int.lt_of_le_of_lt hn ht

-- Whoever has passed the gate has an approval.
def Gated (db : Db) (log : List platform.Commit) : Prop :=
  ∀ e, db.PassedGate e → ∃ pid decision decidedAt, Granted db log e pid decision decidedAt

theorem Gated.commit {g : platform.Global} {c : Call} {r : c.Result} (hm : c.heedsGate g)
    (hc : c.Commits .punctual now g.db r db') (hg : g.db.Grows db') (hl : g.db.Ledger) (h : Gated g.db g.log) :
    Gated db' (g.log ++ [⟨pid, c, r, now⟩]) := by
  intro e hp
  by_cases hn : g.db.PassedGate e
  case pos =>
    obtain ⟨pid, decision, decidedAt, hd⟩ := h e hn
    exact ⟨pid, decision, decidedAt, hd.later (by simp) hg⟩
  case neg =>
    cases c
    case decideApproval decision => exact ⟨pid, decision, now, Decide.granted hc hg hp hn⟩
    case transition e' status actor payload =>
      obtain ⟨⟨he, hs⟩, ha⟩ := hc.appends.passedGate hp hn
      subst he hs
      obtain ⟨⟨n, t, rfl⟩, hv⟩ := hc
      cases hv
      case mk row c hf ht _ _ _ =>
        have hacc := hl.accounts hf
        have ha : .approval ∈ g.db.statuses e := ha.resolve_right fun hk => by cases hk.right
        have hs := hacc.lifecycle.approval_of_canTransition_execution hacc.current ha ht
        simp [Call.heedsGate, hf, hs] at hm
    -- The other transactions do not move executions to `EXECUTION`.
    case start =>
      obtain ⟨⟨_, hi⟩, _⟩ := hc.appends.passedGate hp hn
      exact absurd hi (by decide)
    case fail                  => cases (hc.appends.passedGate hp hn).left.right
    case expireApprovalsOnce   => cases (hc.appends.passedGate hp hn).left
    case claimDispatches       => cases (hc.appends.passedGate hp hn).left
    case markDispatchSucceeded => cases (hc.appends.passedGate hp hn).left
    case markDispatchFailed    => cases (hc.appends.passedGate hp hn).left

structure GateInvariant (db : Db) (log : List platform.Commit) : Prop where
  ledger : db.Ledger
  gated  : Gated db log

-- In every run in which transitions heed the gate, whoever passes it has an approval.
theorem gate_needs_approval {s : platform.State}
    (h : Reachable (Guard.of .punctual fun c g => c.heedsGate g) s) (hp : s.db.PassedGate e) :
    ∃ pid decision decidedAt, Granted s.db s.log e pid decision decidedAt := by
  have ⟨clock, hs⟩ := h.atomic <| Guard.of_meets Premise.punctual_stable fun c g => c.heedsGate g
  have hi : GateInvariant Db.empty [] := ⟨.empty, fun _ hp => nomatch hp⟩
  have hg : GateInvariant s.db s.log := AtomicSteps.log_invariant hs hi fun _ _ _ _ _ _ hm hc hg hi =>
    ⟨hc.ledger hi.ledger, hi.gated.commit hm hc hg hi.ledger⟩
  exact hg.gated e hp

open Sample in
theorem gate_needs_approval_decided :
    let s := reach (Guard.check .punctual fun c g => c.heedsGate g) (gated ++ transact 1 decided 5 "y" 11)
    s.db.PassedGate "e" ∧ ∃ pid decision decidedAt, Granted s.db s.log "e" pid decision decidedAt :=
  have hp : (reach (Guard.check .punctual fun c g => c.heedsGate g) (gated ++ transact 1 decided 5 "y" 11)).db.PassedGate "e" := by
    decide +kernel
  ⟨hp, gate_needs_approval (reach_reachable fun _ _ _ => Guard.of_check) hp⟩

def Sample.moved (status : ExecutionStatus) : platform.Code := do
  return .moved (← PostgresExecutionService.Process.transition "e" status "worker" [])

def Call.isDecision : Call → Bool
  | .decideApproval _ => true
  | _                 => false

open Sample in
-- A transition carries an execution through the gate while its approval is still pending.
theorem gate_does_not_need_approval :
    ∃ s : platform.State, Reachable (Guard.of .punctual fun _ _ => True) s ∧ s.db.PassedGate "e" ∧
      s.db.approvals.rows.map (fun row => (row.executionId, row.status)) = [("e", .pending)] ∧
      ¬∃ pid decision decidedAt, Granted s.db s.log "e" pid decision decidedAt := by
  let s := reach (Guard.check .punctual fun _ _ => True) (gated ++ transact 1 (moved .execution) 5 "" 5)
  refine ⟨s, reach_reachable fun _ _ _ => Guard.of_check, by decide +kernel, by decide +kernel, ?_⟩
  intro ⟨pid, decision, decidedAt, h⟩
  have hl : s.log.map (fun c => c.call.isDecision) = [false, false] := by decide +kernel
  have hm : true ∈ s.log.map (fun c => c.call.isDecision) := List.mem_map.mpr ⟨_, h.committed, rfl⟩
  simp [hl] at hm

end Logon
