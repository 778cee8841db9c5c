import Logon.Sweeping

-- A late decision and a sweep treat an approval in the same way.

namespace Logon

open System Program PgExecutionStore PostgresExecutionService

-- Processes that run alone, while the clocks of the processes and of the database show a given time.
def atInstant (t : Time) : Regime platform :=
  alone (fun now db amb => now = t ∧ Generated t db amb) fun _ _ => True

section
variable {t : Time} {g g' : platform.Global} {db db' : Db} {p : ApprovalRow} {decision : ApprovalDecision}

theorem transaction_at {c : Call} {o : Statement} {k : o.Reply → Tx c.Result} {res : Except KernelError c.Result}
    (hb : c.body = .op o k) (h : (transaction c).Runs ((atInstant t).semantics pid) g res g') :
    ∃ db', c.body.Runs (engine.alone (Generated t) t) g.db res db' ∧ g' = c.settle pid t db' g res := by
  have ⟨now, db', _, hr, hg⟩ := transaction_alone h
  have hn : now = t := by
    have hr' := hb ▸ hr
    obtain ⟨_, _, ⟨⟨_, ha, _⟩, _⟩, _⟩ | ⟨_, ⟨_, ha, _⟩, _⟩ := hr'
    · exact ha.left
    · exact ha.left
  subst hn
  refine ⟨db', hr.mono ?_ ?_, hg⟩
  · intro o s r s' ⟨⟨amb, ha, ho⟩, hs⟩
    exact ⟨⟨amb, ha.right, ho⟩, hs⟩
  · intro o s e ⟨amb, ha, ho⟩
    exact ⟨amb, ha.right, ho⟩

-- A decision about an approval is one about its execution.
structure Concerns (decision : ApprovalDecision) (p : ApprovalRow) : Prop where
  approval  : decision.approvalId = p.approvalId
  execution : decision.executionId = p.executionId

-- An approval that waits for a decision, as does its execution.
structure Waits (db : Db) (p : ApprovalRow) (execution : ExecutionRow) : Prop where
  mem     : p ∈ db.approvals.rows
  pending : p.status = .pending
  find    : db.executions.find p.executionId = some execution
  status  : execution.status = .approval

theorem Waits.opened (h : Waits db p execution) (hk : db.ForeignKeys) (hd : Concerns decision p) :
    Open decision db execution p where
  findExecution := hd.execution ▸ h.find
  status        := h.status
  findApproval  := hd.approval ▸ Table.find_of_mem h.mem
  bound         := hd.execution.symm
  pending       := h.pending
  tenant        := by
    have ⟨row, hf, ht⟩ := hk.approvals p h.mem
    cases hf.symm.trans h.find
    exact ht.symm

theorem Open.missed_iff (ho : Open decision db execution p) (t : Time) : db.Missed decision t ↔ p.Overdue t where
  mp  := fun ⟨_, _, ho', hx⟩ => (ho.unique ho').right ▸ ⟨ho'.pending, hx⟩
  mpr := fun hx => ⟨execution, p, ho, hx.right⟩

theorem ExpiredApprovalClaim.of_mem_iff {rows : List ApprovalRow} (hp : p ∈ db.approvals.rows)
    (hr : rows ⊆ db.approvals.rows) : ExpiredApprovalClaim.of p ∈ rows.map .of ↔ p ∈ rows where
  mpr := List.mem_map_of_mem
  mp  := by
    intro hm
    have ⟨row, hm, he⟩ := List.mem_map.mp hm
    have hk : row.approvalId = p.approvalId := congrArg approvalId he
    have hf := Table.find_of_mem (hr hm)
    rw [hk, Table.find_of_mem hp] at hf
    exact Option.some.inj hf ▸ hm

-- A sweep takes an approval that has expired, unless others that are as old exhaust its limit.
def Permits (db : Db) (t : Time) (limit : Int) (p : ApprovalRow) : Prop :=
  ((db.overdue t).filter fun q => q.approvalId ≠ p.approvalId ∧ q.expiresAt.getD 0 ≤ p.expiresAt.getD 0).length <
    (clamp limit 1 100).toNat

theorem Marked.mem_iff (h : Marked (clamp limit 1 100).toNat t selected db db') (hp : p ∈ db.approvals.rows)
    (hl : Permits db t limit p) : p ∈ selected ↔ p.Overdue t where
  mp hm := by simpa using (List.mem_filter.mp <| h.batch.subset hm).right
  mpr hx := by
    classical
    refine h.batch.mem_of_few (List.mem_filter.mpr ⟨hp, by simpa using hx⟩) <| Nat.lt_of_le_of_lt (Nat.le_of_eq ?_) hl
    rw [Db.overdue]
    congr 1
    refine List.filter_congr fun q hq => ?_
    have hq := (List.mem_filter.mp hq).left
    have hne : q ≠ p ↔ q.approvalId ≠ p.approvalId :=
      not_congr ⟨fun he => he ▸ rfl, fun he => Option.some.inj <| by
        rw [← Table.find_of_mem hq, ← Table.find_of_mem hp, he]⟩
    simp [hne]

namespace PostgresExecutionService

-- What becomes of a decision about an approval that is waited for. If the approval has expired, it is marked, unless
-- PostgreSQL does not read the time of that.
theorem Process.decideApproval_expired_iff
    (h : (Process.decideApproval decision).Runs ((atInstant t).semantics pid) g res g') (hk : g.db.Constraints)
    (ho : Open decision g.db execution p) :
    (res = .error (.approvalExpired p.approvalId) ↔ p.Overdue t ∧ Timestamp.Legible t) ∧
    (p.Overdue t →
      (Timestamp.Legible t → ∃ u, g.db.audit.find u = none ∧ g'.db = g.db.expired decision execution.tenantId u t t) ∧
      (¬Timestamp.Legible t → g' = g)) := by
  have hid : decision.approvalId = p.approvalId := (Table.key_of_find ho.findApproval).symm
  have hb {res g₁} (h : (transaction (.decideApproval decision)).Runs ((atInstant t).semantics pid) g res g₁) :=
    transaction_at rfl h
  by_cases hx : p.Overdue t
  case pos =>
    have hm := (ho.missed_iff t).mpr hx
    by_cases hl : Timestamp.Legible t
    case pos =>
      obtain ⟨outcome, g₁, ht, h⟩ | ⟨e, _, ht⟩ := runs_bind h
      all_goals
        obtain ⟨db', hr, rfl⟩ := hb ht
        obtain ⟨_, he, rfl, u, hu, hd⟩ := PostgresExecutionService.decideApproval_missed hl hr ho hk hm
        cases he
      exact ⟨⟨fun _ => ⟨hx, hl⟩, fun _ => hid ▸ h.left⟩, fun _ => ⟨fun _ => ⟨u, hu, h.right ▸ hd⟩, fun hn => absurd hl hn⟩⟩
    case neg =>
      obtain ⟨outcome, g₁, ht, h⟩ | ⟨e, rfl, ht⟩ := runs_bind h
      all_goals
        obtain ⟨db', hr, rfl⟩ := hb ht
        obtain ⟨_, he, hd⟩ := PostgresExecutionService.decideApproval_untimely hl hr ho hm
        cases he
      refine ⟨iff_of_false (fun he => ?_) fun hn => hl hn.right, fun _ => ⟨fun hn => absurd hn hl, fun _ => rfl⟩⟩
      cases he
      cases hd
  case neg =>
    have hw := (ho.awaits_or_missed t).resolve_right fun hm => hx <| (ho.missed_iff t).mp hm
    refine ⟨iff_of_false (fun he => ?_) fun hx' => hx hx'.left, fun hx' => absurd hx' hx⟩
    by_cases hs : decision.Storable
    case neg =>
      obtain ⟨outcome, g₁, ht, h⟩ | ⟨e, he', ht⟩ := runs_bind h
      all_goals
        obtain ⟨db', hr, rfl⟩ := hb ht
        obtain ⟨_, he₂, hd⟩ := decideApproval_malformed hr ho hk hw hs
        cases he₂
      cases he.symm.trans he'
      cases hd
    case pos =>
      have ⟨c, hc⟩ := Option.isSome_iff_exists.mp hs.decidedAt
      obtain ⟨outcome, g₁, ht, h⟩ | ⟨e, he', ht⟩ := runs_bind h
      all_goals
        obtain ⟨db', hr, rfl⟩ := hb ht
        obtain ⟨_, he₂, rfl, _⟩ := PostgresExecutionService.decideApproval_awaited hr ho hk hw hs hc
        cases he₂
      cases he.symm.trans h.left

-- A sweep takes the only approval that has expired.
theorem claimExpiredApprovals_only {res : Except KernelError (List ExpiredApprovalClaim)}
    (h : (claimExpiredApprovals limit).Runs (engine.alone (Generated t) t) db res db') (hk : db.ForeignKeys)
    (hp : db.overdue t = [p]) :
    ∃ claims, res = .ok claims ∧ claims = [.of p] ∧
      db' = db.setApproval p.approvalId .expired "logon.approval.expiry" t := by
  obtain ⟨_, rfl, _, selected, rfl, hm⟩ := claimExpiredApprovals_alone h hk
  have hs : selected = [p] := by
    have hl := hm.batch.length
    have hsub := hm.batch.subset
    rw [show db.approvals.rows.filter (·.Overdue t) = [p] from hp] at hl hsub
    have hpos : 0 < (clamp limit 1 100).toNat := by
      simp only [clamp]
      omega
    rw [List.length_singleton, Nat.min_eq_right hpos] at hl
    obtain ⟨q, he⟩ := List.length_eq_one_iff.mp hl
    rw [he] at hsub ⊢
    rw [List.mem_singleton.mp <| hsub (.head _)]
  subst hs
  refine ⟨_, rfl, rfl, ?_⟩
  rw [hm.tables]
  have ha : db'.approvals = (db.setApproval p.approvalId .expired "logon.approval.expiry" t).approvals := by
    refine Table.eq_of_rows ?_
    rw [hm.approvals, Db.setApproval_approvals, Table.modify]
    exact List.map_congr_left fun row _ => by simp
  rw [ha]
  rfl

-- It marks it, and rejects its execution.
theorem expireApprovalsOnce_expired (hl : Timestamp.Legible t)
    (h : (expireApprovalsOnce limit).Runs (engine.alone (Generated t) t) db res db') (hk : db.Constraints)
    (hw : Waits db p execution) (hd : Concerns decision p) (hp : db.overdue t = [p]) :
    ∃ result, res = .ok result ∧ ∃ u, db.audit.find u = none ∧ db' = db.expired decision execution.tenantId u t t := by
  obtain ⟨_, _, ⟨rfl, rfl⟩, h⟩ := Runs.after h fun h => claimExpiredApprovals_only h hk.foreignKeys hp
  obtain ⟨counts, db₂, hu, h⟩ := Runs.after (Q := fun _ db₂ => ∃ u, db.audit.find u = none ∧
      db₂ = db.expired decision execution.tenantId u t t) h fun h => by
    obtain ⟨_, _, ⟨rfl, rfl⟩, h⟩ := Runs.after h fun h => lockExecution_alone h hw.find
    rw [if_neg (not_not.mpr hw.status)] at h
    obtain ⟨_, _, ⟨u, hu, rfl⟩, h⟩ := Runs.after h fun h =>
      rejectExpiredExecution_alone hl h (hk.approvalIds p hw.mem) ⟨execution, hw.find, rfl⟩ (hk.foreignKeys.tenant hw.find)
    refine ⟨_, h.left, u, hu, h.right.trans ?_⟩
    rw [Db.expired, hd.approval, hd.execution]
    rfl
  exact ⟨_, h.left, h.right ▸ hu⟩

-- It fails if PostgreSQL does not read the time of the rejection.
theorem expireApprovalsOnce_untimely (hl : ¬Timestamp.Legible t)
    (h : (expireApprovalsOnce limit).Runs (engine.alone (Generated t) t) db res db') (hk : db.Constraints)
    (hw : Waits db p execution) (hp : db.overdue t = [p]) : ∃ e, res = .error e := by
  obtain ⟨_, _, ⟨rfl, rfl⟩, h⟩ := Runs.after h fun h => claimExpiredApprovals_only h hk.foreignKeys hp
  obtain ⟨e, he, _⟩ := Runs.fails (Q := fun e _ => e.isDatabase) h fun h => by
    obtain ⟨_, _, ⟨rfl, rfl⟩, h⟩ := Runs.after h fun h => lockExecution_alone h hw.find
    rw [if_neg (not_not.mpr hw.status)] at h
    exact Runs.fails (Q := fun e _ => e.isDatabase) h fun h => rejectExpiredExecution_fails hl h
  exact ⟨e, he⟩

theorem Process.expireApprovalsOnce_expired
    (h : (Process.expireApprovalsOnce limit).Runs ((atInstant t).semantics pid) g res g') (hk : g.db.Constraints)
    (hw : Waits g.db p execution) (hd : Concerns decision p) (hp : g.db.overdue t = [p]) :
    (Timestamp.Legible t → ∃ u, g.db.audit.find u = none ∧ g'.db = g.db.expired decision execution.tenantId u t t) ∧
    (¬Timestamp.Legible t → g' = g) := by
  obtain ⟨db', hr, rfl⟩ := transaction_at rfl h
  constructor
  case left =>
    intro hl
    have ⟨_, he, hq⟩ := PostgresExecutionService.expireApprovalsOnce_expired hl hr hk hw hd hp
    cases he
    exact hq
  case right =>
    intro hl
    have ⟨_, he⟩ := PostgresExecutionService.expireApprovalsOnce_untimely hl hr hk hw hp
    cases he
    rfl

end PostgresExecutionService

theorem exists_atInstant (p : Process α) (pid : Pid) (ht : t ≤ g.clock) :
    ∃ res g', p.Runs ((atInstant t).semantics pid) g res g' := by
  refine exists_alone p pid ht (fun db => ?_) fun _ => ⟨.calm, trivial⟩
  have ⟨amb, ha, hs⟩ := exists_generated t db
  exact ⟨amb, ⟨rfl, ha⟩, hs⟩

end

-- A decision about an approval finds it expired if and only if a sweep would take it. If no other approval has expired,
-- both have the same effect, apart from the id of the record they leave in the audit. Neither has any while clocks show
-- times that PostgreSQL does not read.
theorem expiry_paths_agree {t : Time} {g : platform.Global} {p : ApprovalRow} {execution : ExecutionRow}
    {decision : ApprovalDecision} (hk : g.db.Constraints) (ht : t ≤ g.clock) (hw : Waits g.db p execution)
    (hd : Concerns decision p) (limit : Int) (pid : Pid) :
    (∃ res g', (Process.decideApproval decision).Runs ((atInstant t).semantics pid) g res g') ∧
    (∃ res g', (Process.expireApprovalsOnce limit).Runs ((atInstant t).semantics pid) g res g') ∧
    (∀ res g' claims db',
      (Process.decideApproval decision).Runs ((atInstant t).semantics pid) g res g' →
      (claimExpiredApprovals limit).Runs (engine.alone (Generated t) t) g.db (.ok claims) db' →
      Permits g.db t limit p →
      (res = .error (.approvalExpired p.approvalId) ↔ .of p ∈ claims ∧ Timestamp.Legible t)) ∧
    ∀ res g₁ res' g₂,
      (Process.decideApproval decision).Runs ((atInstant t).semantics pid) g res g₁ →
      (Process.expireApprovalsOnce limit).Runs ((atInstant t).semantics pid) g res' g₂ →
      g.db.overdue t = [p] →
      (Timestamp.Legible t → ∃ u₁ u₂,
        g₁.db = g.db.expired decision execution.tenantId u₁ t t ∧
        g₂.db = g.db.expired decision execution.tenantId u₂ t t) ∧
      (¬Timestamp.Legible t → g₁ = g ∧ g₂ = g) := by
  refine ⟨exists_atInstant _ pid ht, exists_atInstant _ pid ht, ?agree, ?effect⟩
  case agree =>
    intro res g' claims db' h hc hp
    obtain ⟨_, he, _, selected, rfl, hm⟩ := claimExpiredApprovals_alone hc hk.foreignKeys
    cases he
    have hs : selected ⊆ g.db.approvals.rows := fun q hq => (List.mem_filter.mp <| hm.batch.subset hq).left
    rw [(Process.decideApproval_expired_iff h hk (hw.opened hk.foreignKeys hd)).left, ExpiredApprovalClaim.of_mem_iff hw.mem hs,
      hm.mem_iff hw.mem hp]
  case effect =>
    intro res g₁ res' g₂ h₁ h₂ hp
    have hm : p ∈ g.db.overdue t := hp ▸ List.mem_singleton_self p
    have hx : p.Overdue t := of_decide_eq_true (List.mem_filter.mp hm).right
    have ⟨hd₁, hn₁⟩ := (Process.decideApproval_expired_iff h₁ hk (hw.opened hk.foreignKeys hd)).right hx
    have ⟨hd₂, hn₂⟩ := Process.expireApprovalsOnce_expired h₂ hk hw hd hp
    refine ⟨fun hl => ?_, fun hl => ⟨hn₁ hl, hn₂ hl⟩⟩
    have ⟨u₁, _, hd₁⟩ := hd₁ hl
    have ⟨u₂, _, hd₂⟩ := hd₂ hl
    exact ⟨u₁, u₂, hd₁, hd₂⟩

-- The gated execution, whose approval a decision comes too late for.
theorem expiry_paths_agree_late : ∃ (p : ApprovalRow) (execution : ExecutionRow), ∃ res g₁ res' g₂,
    (Process.decideApproval Sample.decision).Runs ((atInstant 100000000).semantics 0) Sample.late res g₁ ∧
    (Process.expireApprovalsOnce 50).Runs ((atInstant 100000000).semantics 0) Sample.late res' g₂ ∧
    Sample.late.db.overdue 100000000 = [p] ∧ ∃ u₁ u₂,
      g₁.db = Sample.late.db.expired Sample.decision execution.tenantId u₁ 100000000 100000000 ∧
      g₂.db = Sample.late.db.expired Sample.decision execution.tenantId u₂ 100000000 100000000 := by
  have ⟨execution, p, ho, _⟩ := Sample.waiting_awaits (.iso 1)
  have hp : Sample.late.db.overdue 100000000 = [p] := by
    have hf : Sample.late.db.approvals.find Sample.decision.approvalId = some p := ho.findApproval
    have hl : Sample.late.db.overdue 100000000 =
        (Sample.late.db.approvals.find Sample.decision.approvalId).toList := rfl
    rw [hl, hf]
    rfl
  have hw : Waits Sample.late.db p execution :=
    ⟨Table.mem_of_find ho.findApproval, ho.pending, ho.bound ▸ ho.findExecution, ho.status⟩
  have hd : Concerns Sample.decision p := ⟨(Table.key_of_find ho.findApproval).symm, ho.bound.symm⟩
  have ⟨⟨res, g₁, h₁⟩, ⟨res', g₂, h₂⟩, _, ha⟩ :=
    @expiry_paths_agree 100000000 Sample.late p execution _ Sample.waiting_constraints
      (Int.le_refl _) hw hd 50 0
  exact ⟨p, execution, res, g₁, res', g₂, h₁, h₂, hp, (ha res g₁ res' g₂ h₁ h₂ hp).left (by decide)⟩

end Logon
