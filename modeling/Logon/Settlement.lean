import Logon.Expiry
import Logon.Recovery
import Logon.Refinement
import Logon.Sweeping

-- Whatever has happened, an approval that is waited for can be decided until it expires, and then it can expire.

namespace Logon

open System Program PostgresExecutionService

section
variable {P : Premise} {now : Time} {db db' : Db}

-- All approvals expire some time.
def Db.Dated (db : Db) : Prop :=
  ∀ row ∈ db.approvals.rows, row.expiresAt.isSome

namespace Db.Dated

theorem empty : Db.empty.Dated :=
  List.forall_mem_nil _

theorem congr (h : db.Dated) (ha : db'.approvals = db.approvals) : db'.Dated := by
  rw [Db.Dated, ha]
  exact h

theorem of_find (h : db.Dated) (hg : db.Grows db')
    (hf : ∀ {a row}, db'.approvals.find a = some row → (db.approvals.find a).isSome) : db'.Dated := by
  intro row hm
  have hr := Table.find_of_mem hm
  obtain ⟨old, ho⟩ := Option.isSome_iff_exists.mp <| hf hr
  obtain ⟨row', hr', hs⟩ := hg.approvals _ _ ho
  cases hr.symm.trans hr'
  rw [hs.expiresAt]
  exact h old <| Table.mem_of_find ho

theorem create {request : ExecutionRequest} (h : db.Dated) (hc : Create P now request db event db') : db'.Dated := by
  cases hc
  case mk ha hu =>
    cases hu
    cases ha
    case approval => exact Table.forall_insert h rfl
    all_goals exact h

theorem commit {c : Call} {r : c.Result} (h : db.Dated) (hc : c.Commits P now db r db') (hg : db.Grows db') :
    db'.Dated := by
  cases c
  case start request _ _ =>
    have hw : (db.withTenant request.identity.tenantId).Dated := h
    cases hc
    case unkeyed hc => exact hw.create hc
    case reused     => exact hw
    case keyed hc   => exact (hw.create hc).congr rfl
  case decideApproval =>
    obtain ⟨row, status, decidedBy, t, hf, -, -, ha⟩ := Decide.approvals hc
    refine h.of_find hg fun {a row'} hf' => ?_
    rw [ha, Db.setApproval_approvals] at hf'
    have hs := congrArg Option.isSome hf'
    rwa [Table.isSome_find_modify] at hs
  case expireApprovalsOnce =>
    cases hc
    case mk hx hr =>
      refine h.of_find hg fun {a row} hf => ?_
      rw [hr.unchanged Db.approvals Reject.approvals] at hf
      obtain ⟨old, ho, -⟩ := (Expired.of_collects hx).find hf
      exact Option.isSome_iff_exists.mpr ⟨old, ho⟩
  case transition => exact h.congr hc.right.approvals.left
  case fail       => exact h.congr hc.right.approvals.left
  case claimDispatches =>
    cases hc
    case mk hx => exact h.congr <| hx.unchanged Db.approvals fun _ _ _ _ => ClaimOne.approvals
  case markDispatchSucceeded => cases hc <;> exact h
  case markDispatchFailed    => cases hc <;> exact h

end Db.Dated
end

variable {host : Host} {G : Guard} {s s' : platform.State} {p : ApprovalRow} {execution : ExecutionRow}

theorem Reachable.dated (h : Reachable G s) : s.db.Dated := by
  obtain ⟨_, hs⟩ := h.atomic G.meets_none
  exact AtomicSteps.db_invariant hs .empty fun _ _ _ _ _ hc hg hd => hd.commit hc hg

-- No execution has two approvals.
theorem Reachable.approvals_unique (h : Reachable (Guard.clients host) s) (hp : p ∈ s.db.approvals.rows)
    (hp' : p' ∈ s.db.approvals.rows) (he : p'.executionId = p.executionId) : p' = p := by
  have hl : (s.db.approvalsOf p.executionId).length ≤ 1 := by
    rw [← List.length_map (·.status)]
    exact (h.case_sound p.executionId).shape.verdicts_length
  have hm : p ∈ s.db.approvalsOf p.executionId := List.mem_filter.mpr ⟨hp, by simp⟩
  have hm' : p' ∈ s.db.approvalsOf p.executionId := List.mem_filter.mpr ⟨hp', by simp [he]⟩
  obtain ⟨row, hr⟩ := List.length_eq_one_iff.mp <| Nat.le_antisymm hl <| List.length_pos_of_mem hm
  rw [hr, List.mem_singleton] at hm hm'
  exact hm'.trans hm.symm

-- An approval that is waited for, and what becomes of it and of its execution.
structure Db.Concluded (db : Db) (p : ApprovalRow) (status : ApprovalStatus) (decidedBy : String) (next : ExecutionStatus) :
    Prop where
  approval  : db.Decided p.approvalId status (some decidedBy)
  execution : db.current p.executionId = some next

namespace Resting

variable (h : Resting host s)
include h

theorem current_of_find {row : ExecutionRow} (hf : s.db.executions.find e = some row) : s.db.current e = some row.status :=
  h.reachable.held.ledger.current_eq hf

-- An approval can be decided while it has not expired.
theorem exists_decided (hw : Waits s.db p execution) {decision : ApprovalDecision} (hd : Concerns decision p)
    (hst : decision.Storable) (hx : ∀ x ∈ p.expiresAt, s.clock < x) :
    ∃ s', Steps (Guard.clients host) s s' ∧
      s'.db.Concluded p decision.status.toStatus decision.decidedBy (nextStatus decision.status) ∧
      (decision.status = .approved → (s'.db.dispatches.find p.executionId).isSome) := by
  have hk := h.reachable.constraints
  obtain ⟨c, hc⟩ := Option.isSome_iff_exists.mp hst.decidedAt
  have hR : (aloneAt s.clock).Realizable s.clock :=
    alone_realizable (exists_generated s.clock) fun _ => ⟨.calm, trivial⟩
  obtain ⟨_, _, s', hs, h', hr⟩ := h.exists_run hR (@Client.decideApproval host decision)
  obtain ⟨-, row, u, now, hf, -, hdb⟩ :=
    Process.decideApproval_awaited hr hk ⟨execution, p, hw.opened hk.foreignKeys hd, hx⟩ hst hc
  have ha : s'.db.approvals = (s.db.setApproval decision.approvalId decision.status.toStatus decision.decidedBy c).approvals := by
    rw [hdb, Db.decided, Db.applied]
    split <;> rfl
  have he : s'.db.executions = s.db.executions.modify decision.executionId (·.update (nextStatus decision.status) now) := by
    rw [hdb, Db.decided, Db.applied]
    split <;> rfl
  refine ⟨s', hs, ⟨?approval, ?execution⟩, ?dispatch⟩
  case approval =>
    refine Db.Decided.iff.mpr ⟨p.decide decision.status.toStatus decision.decidedBy c, ?_, rfl, rfl⟩
    rw [ha, Db.setApproval_approvals, hd.approval, Table.find_modify_self, Table.find_of_mem hw.mem]
    rfl
  case execution =>
    have hf' : s'.db.executions.find p.executionId = some (execution.update (nextStatus decision.status) now) := by
      rw [he, hd.execution, Table.find_modify_self, hw.find]
      rfl
    exact h'.current_of_find hf'
  case dispatch =>
    intro hs
    rw [hdb, Db.decided, Db.applied, if_pos hs, ← hd.execution]
    simp [Db.addAudit, Db.addDispatch, Table.isSome_find_insert]

-- A sweep can take place, which is all that commits then.
theorem exists_swept (limit : Int) :
    ∃ s' selected rejections entry, Steps (Guard.clients host) s s' ∧ Resting host s' ∧ s'.clock = s.clock ∧
      s'.log = s.log ++ [entry] ∧ entry.call = .expireApprovalsOnce limit ∧
      Swept (clamp limit 1 100).toNat s.clock selected rejections s.db s'.db := by
  have hR : (sweeping s.clock).Realizable s.clock := by
    apply alone_realizable
    · intro db
      obtain ⟨amb, hg, hskip⟩ := exists_generated 0 db
      exact ⟨amb, ⟨Int.le_refl _, hg.fresh (by decide)⟩, hskip⟩
    · exact fun _ => ⟨.calm, trivial⟩
  obtain ⟨pid, _, s', hs, h', hr⟩ := h.exists_run hR (@Client.expireApprovalsOnce host limit)
  obtain ⟨⟨result, now, selected, rejections, hsw⟩, hc, -⟩ := expireApprovalsOnce_sweeps hr h.reachable.constraints
  obtain rfl := hsw.returns
  obtain ⟨now', _, -, -, hg⟩ := transaction_runs hr
  obtain rfl := Int.le_antisymm hsw.clock hsw.since
  have hl : s'.log = s.log ++ [⟨pid, .expireApprovalsOnce limit, result, now'⟩] := congrArg (·.log) hg
  exact ⟨s', selected, rejections, _, hs, h', hc, hl, rfl, hsw.swept⟩

-- An approval that has expired is marked, once the older ones have been.
theorem exists_lapsed (hw : Waits s.db p execution) (ho : p.Overdue s.clock) (limit : Int) :
    ∃ s' sweeps, Steps (Guard.clients host) s s' ∧ s'.log = s.log ++ sweeps ∧
      (∀ entry ∈ sweeps, entry.call = .expireApprovalsOnce limit) ∧
      s'.db.Concluded p .expired "logon.approval.expiry" .rejected := by
  induction hn : (s.db.overdue s.clock).length using Nat.strong_induction_on generalizing s
  case h n ih =>
    obtain ⟨s₁, selected, rejections, entry, hs₁, h₁, hc₁, hl₁, he₁, hsw⟩ := h.exists_swept limit
    have hrow : (if p.approvalId ∈ selected.map (·.approvalId) then p.expire s.clock else p) ∈ s₁.db.approvals.rows :=
      hsw.approvals ▸ List.mem_map.mpr ⟨p, hw.mem, rfl⟩
    have hexe : (if execution.status = .approval ∧ execution.executionId ∈ selected.map (·.executionId) then
        execution.update .rejected s.clock else execution) ∈ s₁.db.executions.rows :=
      hsw.executions ▸ List.mem_map.mpr ⟨execution, Table.mem_of_find hw.find, rfl⟩
    have hsub {row} (hm : row ∈ selected) : row ∈ s.db.approvals.rows :=
      (List.mem_filter.mp <| hsw.batch.subset hm).left
    have hkey : execution.executionId = p.executionId := Table.key_of_find hw.find
    by_cases hm : p ∈ selected
    case pos =>
      rw [if_pos <| List.mem_map_of_mem hm] at hrow
      rw [if_pos ⟨hw.status, List.mem_map.mpr ⟨p, hm, hkey.symm⟩⟩] at hexe
      have hf : s₁.db.executions.find execution.executionId = some (execution.update .rejected s.clock) :=
        Table.find_of_mem hexe
      rw [hkey] at hf
      refine ⟨s₁, [entry], hs₁, hl₁, by simpa using he₁, ?_, h₁.current_of_find hf⟩
      exact Db.Decided.iff.mpr ⟨p.expire s.clock, Table.find_of_mem hrow, rfl, rfl⟩
    case neg =>
      have hid : p.approvalId ∉ selected.map (·.approvalId) := by
        intro hid
        obtain ⟨row, hr, he⟩ := List.mem_map.mp hid
        have hf := Table.find_of_mem (hsub hr)
        rw [he, Table.find_of_mem hw.mem] at hf
        exact hm <| Option.some.inj hf ▸ hr
      have hne : execution.executionId ∉ selected.map (·.executionId) := by
        intro hne
        obtain ⟨row, hr, he⟩ := List.mem_map.mp hne
        exact hm <| h.reachable.approvals_unique hw.mem (hsub hr) (he.trans hkey) ▸ hr
      rw [if_neg hid] at hrow
      rw [if_neg fun h => hne h.right] at hexe
      have hw₁ : Waits s₁.db p execution := ⟨hrow, hw.pending, hkey ▸ Table.find_of_mem hexe, hw.status⟩
      have hlt : (s₁.db.overdue s₁.clock).length < n := by
        have hlen := hsw.length_overdue (Int.le_refl s.clock)
        have hpos : 0 < (s.db.overdue s.clock).length :=
          List.length_pos_of_mem <| List.mem_filter.mpr ⟨hw.mem, decide_eq_true ho⟩
        have hsize : 0 < (clamp limit 1 100).toNat := by
          simp only [clamp]
          omega
        rw [hc₁, ← hn]
        omega
      obtain ⟨s₂, sweeps, hs₂, hl₂, he₂, hd⟩ := ih _ hlt h₁ hw₁ (hc₁ ▸ ho) rfl
      refine ⟨s₂, entry :: sweeps, hs₁.trans hs₂, ?_, ?_, hd⟩
      · rw [hl₂, hl₁, List.append_assoc, List.singleton_append]
      · exact List.forall_mem_cons.mpr ⟨he₁, he₂⟩

end Resting

-- No state is a trap for an approval: others can hold locks, publish, or fail, and there can be any number of approvals
-- that have expired before.
theorem approvals_can_always_be_settled (h : Reachable (Guard.clients host) s) (hw : Waits s.db p execution) :
    ∃ x, p.expiresAt = some x ∧
      (∀ decision, Concerns decision p → decision.Storable → s.clock < x →
        ∃ s', Steps (Guard.clients host) s s' ∧
          s'.db.Concluded p decision.status.toStatus decision.decidedBy (nextStatus decision.status) ∧
          (decision.status = .approved → (s'.db.dispatches.find p.executionId).isSome)) ∧
      ∀ limit, ∃ s' sweeps, Steps (Guard.clients host) s s' ∧ s'.log = s.log ++ sweeps ∧
        (∀ entry ∈ sweeps, entry.call = .expireApprovalsOnce limit) ∧
        s'.db.Concluded p .expired "logon.approval.expiry" .rejected := by
  obtain ⟨x, hx⟩ := Option.isSome_iff_exists.mp <| h.dated p hw.mem
  obtain ⟨s₀, hs₀, h₀, hg₀⟩ := h.exists_resting
  have hd₀ : s₀.db = s.db := congrArg (·.db) hg₀
  have hc₀ : s₀.clock = s.clock := congrArg (·.clock) hg₀
  refine ⟨x, hx, fun decision hd hst hlt => ?decided, fun limit => ?lapsed⟩
  case decided =>
    have hlt : ∀ x ∈ p.expiresAt, s₀.clock < x := by
      rw [hx, hc₀]
      exact fun _ hm => Option.some.inj hm ▸ hlt
    obtain ⟨s', hs, hr⟩ := h₀.exists_decided (hd₀ ▸ hw) hd hst hlt
    exact ⟨s', hs₀.trans hs, hr⟩
  case lapsed =>
    obtain ⟨s₁, hs₁, h₁, hg₁⟩ := h₀.exists_later (Int.le_max_left s₀.clock x)
    have hd₁ : s₁.db = s.db := (congrArg (·.db) hg₁).trans hd₀
    have hc₁ : s₁.clock = max s₀.clock x := congrArg (·.clock) hg₁
    have hl₁ : s₁.log = s.log := (congrArg (·.log) hg₁).trans <| congrArg (·.log) hg₀
    have ho : p.Overdue s₁.clock := ⟨hw.pending, x, hx, hc₁ ▸ Int.le_max_right ..⟩
    obtain ⟨s', sweeps, hs, hl, hr⟩ := h₁.exists_lapsed (hd₁ ▸ hw) ho limit
    exact ⟨s', sweeps, (hs₀.trans hs₁).trans hs, hl₁ ▸ hl, hr⟩

namespace Sample

-- While an execution waits for its approval, somebody who is about to fail it has locked it.
def contested : List platform.Label :=
  transact 0 (do return .started (← Process.start Sample.host (request true) ⟨none⟩)) 0 "a" 11 ++
  [.spawn 1 (do return .moved (← Process.fail "e" "boss" "late")), .begin 1, .stmt 1 (ambient 0 "")]

theorem contested_client {pid : Pid} {code : platform.Code} (h : .spawn pid code ∈ contested) : Client Sample.host code := by
  simp only [contested, transact, List.mem_append, List.mem_cons, List.mem_replicate, List.not_mem_nil, or_false,
    reduceCtorEq, and_false] at h
  obtain ⟨-, rfl⟩ | ⟨-, rfl⟩ := h
  · exact .start
  · exact .fail

end Sample

open Sample in
theorem approvals_can_always_be_settled_contested :
    ∃ s₁ s₂, Steps (Guard.clients Sample.host) (reach unchecked contested) s₁ ∧ s₁.db.current "e" = some .execution ∧
      Steps (Guard.clients Sample.host) (reach unchecked contested) s₂ ∧ s₂.db.current "e" = some .rejected := by
  have hr : Reachable (Guard.clients Sample.host) (reach unchecked contested) :=
    reach_reachable fun l hl s _ => Guard.clients_of_spawn (fun _ _ => contested_client) hl s
  obtain ⟨p, hm, ha, he, hp, hx⟩ : ∃ p ∈ (reach unchecked contested).db.approvals.rows, p.approvalId = "a" ∧
      p.executionId = "e" ∧ p.status = .pending ∧ ∀ x ∈ p.expiresAt, (reach unchecked contested).clock < x := by decide +kernel
  obtain ⟨execution, hf⟩ := Option.isSome_iff_exists.mp
    (by decide +kernel : ((reach unchecked contested).db.executions.find "e").isSome)
  have hs : ((reach unchecked contested).db.executions.find "e").map (·.status) = some .approval := by decide +kernel
  rw [hf, Option.map_some, Option.some.injEq] at hs
  obtain ⟨x, hex, hd, hl⟩ := approvals_can_always_be_settled hr ⟨hm, hp, he ▸ hf, hs⟩
  obtain ⟨s₁, hs₁, hc₁, -⟩ := hd decision ⟨ha.symm, he.symm⟩ decision_storable (hx x hex)
  obtain ⟨s₂, -, hs₂, -, -, hc₂⟩ := hl 50
  exact ⟨s₁, s₂, hs₁, he ▸ hc₁.execution, hs₂, he ▸ hc₂.execution⟩

end Logon
