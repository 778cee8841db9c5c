import Mathlib.Algebra.Order.Floor.Div
import Logon.Decision
import Logon.Progress

-- What a sweep does to the approvals that have expired, and to their executions.

namespace Logon

open System Program PgExecutionStore PostgresExecutionService

theorem claimExpiredApprovals_returns : (claimExpiredApprovals limit).Returns Statement.Infallible := by
  refine ⟨fun _ _ _ => ⟨_, rfl⟩, fun candidates => ?_⟩
  apply (lockCandidates_returns (fun c => query_returns fun _ _ _ => ⟨_, rfl⟩) _ candidates).bind
  intro locked
  refine ⟨fun _ _ _ => ⟨_, rfl⟩, fun approvalIds => ?_⟩
  apply (Returns.collect (fun a => query_returns fun _ _ _ => ⟨_, rfl⟩) approvalIds).bind
  exact fun _ => trivial

section
variable {allow : Time → Db → Ambient → Prop} {now : Time} {db db' : Db}

-- Without others, candidates are there to be locked.
theorem lockExecution_of_exact (hp : Premise.exact allow now (.lockExecution e) db r) : r = .locked := by
  have ⟨⟨amb, _, hr⟩, hs⟩ := hp
  simp only [Statement.reply, Except.ok.injEq] at hr
  split at hr
  case isTrue =>
    subst hr
    simp [Statement.skips] at hs
  case isFalse => exact hr.symm

-- Each approval that is claimed expires.
theorem Expire.all_of_collects (h : Program.Collects (Expire (.exact allow) now) ids db rows db') (hn : ids.Nodup)
    (hf : ∀ a ∈ ids, (db.approvals.find a).isSome) :
    rows = (ids.filterMap db.approvals.find).map (·.expire now) ∧ db' = { db with approvals := db'.approvals } ∧
    db'.approvals.rows = db.approvals.rows.map fun row => if row.approvalId ∈ ids then row.expire now else row := by
  induction h
  case nil => exact ⟨rfl, rfl, by simp⟩
  case cons a db row db₁ ids rows db' hx _ ih =>
    rw [List.nodup_cons] at hn
    obtain ⟨old, ho⟩ := Option.isSome_iff_exists.mp <| hf a (.head _)
    cases hx
    case none hp _ =>
      obtain ⟨⟨amb, _, hr⟩, _⟩ := hp
      simp [Statement.reply, ho] at hr
    case some ho' _ _ =>
      cases ho.symm.trans ho'
      have hne {a'} (ha : a' ∈ ids) : (db.setApproval a .expired "logon.approval.expiry" now).approvals.find a' =
          db.approvals.find a' := Table.find_modify_ne _ _ (by simp) fun he => hn.left <| he ▸ ha
      obtain ⟨hrows, hd, ha⟩ := ih hn.right fun a' ha => hne ha ▸ hf a' (.tail _ ha)
      refine ⟨?_, ?_, ?_⟩
      · rw [hrows, List.filterMap_congr fun a' => hne, List.filterMap_cons_some ho]
        rfl
      · rw [hd]
        rfl
      · rw [ha, Db.setApproval_approvals, Table.modify, List.map_map]
        refine List.map_congr_left fun row _ => ?_
        by_cases he : row.approvalId = a
        case pos => simp [he, hn.left]
        case neg => simp [he]

-- The approvals that a sweep marks.
structure Marked (size : Nat) (now : Time) (selected : List ApprovalRow) (db db' : Db) : Prop where
  batch     : Batches.Oldest (·.expiresAt.getD 0) size (db.approvals.rows.filter (·.Overdue now)) selected
  approvals : db'.approvals.rows = db.approvals.rows.map fun row =>
              if row.approvalId ∈ selected.map (·.approvalId) then row.expire now else row
  tables    : db' = { db with approvals := db'.approvals }

theorem Db.ForeignKeys.filter_overdue (hk : db.ForeignKeys) (now : Time) :
    (db.approvals.rows.filter fun r => r.Overdue now ∧ (db.executions.find r.executionId).isSome) =
    db.approvals.rows.filter (·.Overdue now) := by
  refine List.filter_congr fun row hm => ?_
  have hx : (db.executions.find row.executionId).isSome := (hk.approvals row hm).hasExecution
  simp [hx]

theorem claimExpiredApprovals_alone
    (h : (claimExpiredApprovals limit).Runs (engine.alone (allow now) now) db res db') (hk : db.ForeignKeys) :
    ∃ claims, res = .ok claims ∧ (∃ amb, allow now db amb) ∧ ∃ selected, claims = selected.map .of ∧
      Marked (clamp limit 1 100).toNat now selected db db' := by
  cases res
  case error e =>
    refine absurd h <| claimExpiredApprovals_returns.not_throws ?_
    intro o db e ho ⟨amb, _, he⟩
    obtain ⟨r, hr⟩ := ho now amb db
    cases hr.symm.trans he
  case ok claims =>
    obtain ⟨candidates, locked, ids, rows, hp, hn, hl, hi, hx, rfl⟩ := claimExpiredApprovals_runs (runs_exact h)
    obtain ⟨⟨amb, hamb, hr⟩, _⟩ := hp
    simp only [Statement.reply, Except.ok.injEq, hk.filter_overdue] at hr
    generalize ho : Statement.orderBy _ _ _ = l at hr
    have hperm : l.Perm (db.approvals.rows.filter (·.Overdue now)) := ho ▸ List.perm_insertionSort ..
    have hsorted : l.Pairwise fun r r' => r.expiresAt.getD 0 ≤ r'.expiresAt.getD 0 := ho ▸ Statement.pairwise_orderBy _
    have hl := hl.take_eq fun c _ r hp => lockExecution_of_exact hp
    have hids : ids.Perm ((l.take (clamp limit 1 100).toNat).map (·.approvalId)) := by
      rw [hl, ← hr, ← List.map_take, List.map_map] at hi
      exact hi
    have hsub : l.take (clamp limit 1 100).toNat ⊆ db.approvals.rows := fun row hm =>
      (List.mem_filter.mp <| hperm.subset <| List.mem_of_mem_take hm).left
    have hf a (ha : a ∈ ids) : (db.approvals.find a).isSome := by
      obtain ⟨row, hm, he⟩ := List.mem_map.mp <| hids.subset ha
      simp [← he, Table.find_of_mem (hsub hm)]
    have hnd : ids.Nodup := by
      refine hi.nodup_iff.mpr ?_
      rw [hl, List.map_take]
      exact (List.take_sublist _ _).nodup hn
    obtain ⟨hrows, hd, ha⟩ := Expire.all_of_collects hx hnd hf
    refine ⟨_, rfl, ⟨amb, hamb⟩, ids.filterMap db.approvals.find, ?_, ?_, ?_, hd⟩
    · rw [hrows, List.map_map]
      rfl
    · exact .of_sorted hsorted hperm (db.approvals.nodup.of_map _ |>.filter _) <| Table.filterMap_find_perm hids hsub
    · rw [Table.map_filterMap_find hf]
      exact ha

end

-- An execution that is rejected since one of its approvals has expired.
structure Rejection where
  claim    : ExpiredApprovalClaim
  tenantId : String
  auditId  : String
  time     : Time

namespace Rejection

def event (db : Db) (r : Rejection) : EventRow :=
  .of (expiryEvent r.claim.executionId r.claim.approvalId (db.maxSequence r.claim.executionId + 1) r.time) r.time

def audit (r : Rejection) : AuditRow where
  auditId     := r.auditId
  executionId := r.claim.executionId
  tenantId    := r.tenantId
  action      := "EXECUTION_APPROVAL_EXPIRED"
  actorId     := "logon.approval.expiry"
  allowed     := false
  reason      := "Approval expired"
  createdAt   := r.time

end Rejection

-- What the loop over the claims does: it rejects each execution once that is waiting in `APPROVAL`.
structure Rejected (now : Time) (claims : List ExpiredApprovalClaim) (rejections : List Rejection) (db db' : Db) :
    Prop where
  nodup      : (rejections.map (·.claim.executionId)).Nodup
  claimed    : ∀ r ∈ rejections, r.claim ∈ claims ∧ ∃ row, db.executions.find r.claim.executionId = some row ∧
               row.status = .approval ∧ row.tenantId = r.tenantId
  all        : ∀ claim ∈ claims, ∀ row, db.executions.find claim.executionId = some row → row.status = .approval →
               ∃ r ∈ rejections, r.claim.executionId = claim.executionId
  executions : db'.executions.rows = db.executions.rows.map fun row =>
               if row.status = .approval ∧ row.executionId ∈ claims.map (·.executionId) then row.update .rejected now
               else row
  events     : db'.events.rows = db.events.rows ++ rejections.map (·.event db)
  audit      : db'.audit.rows = db.audit.rows ++ rejections.map (·.audit)
  tables     : db' = { db with executions := db'.executions, events := db'.events, audit := db'.audit }

section
variable {now t : Time} {db db' : Db} {claim : ExpiredApprovalClaim} {claims : List ExpiredApprovalClaim}

theorem Rejected.skip (h : Rejected now claims rejections db db') (hf : db.executions.find claim.executionId = some row)
    (hs : row.status ≠ .approval) : Rejected now (claim :: claims) rejections db db' where
  nodup      := h.nodup
  claimed    := fun r hr => (h.claimed r hr).imp_left (.tail _)
  all        := by
    rintro c (_ | ⟨_, hm⟩) row' hf' hs'
    · cases hf.symm.trans hf'
      exact absurd hs' hs
    · exact h.all c hm row' hf' hs'
  executions := by
    rw [h.executions]
    refine List.map_congr_left fun row' hm => ?_
    by_cases he : row'.executionId = claim.executionId
    case neg => simp [he]
    case pos =>
      cases hf.symm.trans <| he ▸ Table.find_of_mem hm
      simp [hs]
  events     := h.events
  audit      := h.audit
  tables     := h.tables

theorem Db.maxSequence_rejectExpired (hn : e ≠ e') :
    (db.rejectExpired e a tenantId u now t).maxSequence e' = db.maxSequence e' := by
  simp only [Db.maxSequence]
  congr 1
  exact @Db.eventsOf_insert_ne _ { db with executions := _, audit := _ } _ hn

theorem Db.find_rejectExpired (e' : String) : (db.rejectExpired e a tenantId u now t).executions.find e' =
    (db.executions.find e').map fun row => if e' = e then row.update .rejected now else row := by
  simp only [Db.rejectExpired, Db.addAudit_executions, Db.advance_executions, Table.find_modify, expiryEvent]
  by_cases he : e' = e <;> simp [he]

theorem Rejected.reject (hf : db.executions.find claim.executionId = some row) (hs : row.status = .approval)
    (hu : db.audit.find u = none)
    (h : Rejected now claims rejections
      (db.rejectExpired claim.executionId claim.approvalId row.tenantId u now t) db') :
    Rejected now (claim :: claims) (⟨claim, row.tenantId, u, t⟩ :: rejections) db db' := by
  -- The others are about other executions, since this one does not wait any more.
  have hne r (hr : r ∈ rejections) : claim.executionId ≠ r.claim.executionId := by
    intro he
    have ⟨_, row', hf', hs', _⟩ := h.claimed r hr
    rw [Db.find_rejectExpired, ← he, hf] at hf'
    cases hf'
    simp at hs'
  constructor
  case nodup =>
    rw [List.map_cons, List.nodup_cons]
    refine ⟨fun hm => ?_, h.nodup⟩
    have ⟨r, hr, he⟩ := List.mem_map.mp hm
    exact hne r hr he.symm
  case claimed =>
    rintro r (_ | ⟨_, hr⟩)
    · exact ⟨.head _, row, hf, hs, rfl⟩
    · have ⟨hm, row', hf', hs', ht⟩ := h.claimed r hr
      rw [Db.find_rejectExpired] at hf'
      have ⟨row'', hf'', he⟩ := Option.map_eq_some_iff.mp hf'
      rw [if_neg (hne r hr).symm] at he
      exact ⟨.tail _ hm, row', he ▸ hf'', hs', ht⟩
  case all =>
    intro c hm row' hf' hs'
    by_cases he : c.executionId = claim.executionId
    case pos => exact ⟨_, .head _, he.symm⟩
    case neg =>
      have hm : c ∈ claims := (List.mem_cons.mp hm).resolve_left fun hc => he (congrArg _ hc)
      have ⟨r, hr, hre⟩ := h.all c hm row' (by simp [Db.find_rejectExpired, hf', he]) hs'
      exact ⟨r, .tail _ hr, hre⟩
  case executions =>
    rw [h.executions]
    refine (List.map_map ..).trans <| List.map_congr_left fun row' hm => ?_
    by_cases he : row'.executionId = claim.executionId
    case neg => simp [expiryEvent, he]
    case pos =>
      cases hf.symm.trans <| he ▸ Table.find_of_mem hm
      simp [expiryEvent, he, hs]
  case events =>
    have hn := db.find_nextSequence claim.executionId
    have he : rejections.map (·.event (db.rejectExpired claim.executionId claim.approvalId row.tenantId u now t)) =
        rejections.map (·.event db) :=
      List.map_congr_left fun r hr => by rw [Rejection.event, Db.maxSequence_rejectExpired (hne r hr), Rejection.event]
    rw [h.events, he]
    refine (congrArg (· ++ _) <| Table.rows_insert_new hn).trans ?_
    simp [Rejection.event]
  case audit =>
    rw [h.audit]
    refine (congrArg (· ++ _) <| Table.rows_insert_new hu).trans ?_
    simp [Rejection.audit, AuditRow.of]
  case tables =>
    rw [h.tables]
    rfl

theorem Db.Constraints.alone {allow : Db → Ambient → Prop} {p : Tx α} {res : Except KernelError α} (hk : db.Constraints)
    (h : p.Runs (engine.alone allow now) db res db') : db'.Constraints := by
  refine h.preserves ?_ hk
  rintro o db r _ ⟨⟨_, _, hr⟩, _, rfl⟩ hk
  exact hk.effect <| Statement.checked_of_reply hr

theorem rejectClaims_alone {allow : Db → Ambient → Prop} (ha : ∀ db amb, allow db amb → FreshAudit db amb)
    (h : (rejectClaims claims m n).Runs (engine.alone allow now) db res db') (hk : db.Constraints)
    (hs : ∀ claim ∈ claims, Storable claim.approvalId) (hc : ∀ claim ∈ claims, db.HasExecution claim.executionId) :
    ∃ counts, res = .ok counts ∧ ∃ rejections, counts.fst = m + rejections.length ∧
      counts.fst + counts.snd = m + n + claims.length ∧ Rejected now claims rejections db db' := by
  induction claims generalizing m n db
  case nil =>
    obtain ⟨rfl, rfl⟩ := h
    exact ⟨_, rfl, [], rfl, rfl, .nil, nofun, nofun, by simp, by simp, by simp, rfl⟩
  case cons claim claims ih =>
    obtain ⟨row, hf⟩ := Option.isSome_iff_exists.mp <| hc claim (.head _)
    obtain ⟨_, _, ⟨rfl, rfl⟩, h⟩ := Runs.after h fun h => lockExecution_alone h hf
    have hs' c (hm : c ∈ claims) := hs c (.tail _ hm)
    by_cases hw : row.status = .approval
    case neg =>
      rw [if_pos hw] at h
      obtain ⟨counts, hr, rejections, hcr, hcount, hrej⟩ := ih h hk hs' fun c hm => hc c (.tail _ hm)
      exact ⟨counts, hr, rejections, hcr, by rw [hcount, List.length_cons]; omega, hrej.skip hf hw⟩
    case pos =>
      rw [if_neg (not_not.mpr hw)] at h
      obtain ⟨_, _, ⟨hk₁, u, amb, _, hu, rfl⟩, h⟩ := Runs.after (Q := fun _ db₁ => db₁.Constraints ∧ ∃ u amb, allow db amb ∧
          db.audit.find u = none ∧
          db₁ = db.rejectExpired claim.executionId claim.approvalId row.tenantId u now amb.dateNow) h fun h => by
        obtain ⟨v, hr, hq⟩ := rejectExpiredExecution_fresh ha h (hs claim (.head _)) ⟨row, hf, rfl⟩ (hk.foreignKeys.tenant hf)
        exact ⟨v, hr, hk.alone h, hq⟩
      have hx c (hm : c ∈ claims) :
          (db.rejectExpired claim.executionId claim.approvalId row.tenantId u now amb.dateNow).HasExecution c.executionId := by
        have hx := hc c (.tail _ hm)
        rw [Db.HasExecution] at hx ⊢
        simpa [Db.find_rejectExpired] using hx
      obtain ⟨counts, hr, rejections, hcr, hcount, hrej⟩ := ih h hk₁ hs' hx
      refine ⟨counts, hr, _, ?_, ?_, hrej.reject hf hw hu⟩
      · rw [hcr, List.length_cons]
        omega
      · rw [hcount, List.length_cons]
        omega

-- What a sweep does to the database.
structure Swept (size : Nat) (now : Time) (selected : List ApprovalRow) (rejections : List Rejection) (db db' : Db) :
    Prop where
  batch      : Batches.Oldest (·.expiresAt.getD 0) size (db.approvals.rows.filter (·.Overdue now)) selected
  approvals  : db'.approvals.rows = db.approvals.rows.map fun row =>
               if row.approvalId ∈ selected.map (·.approvalId) then row.expire now else row
  nodup      : (rejections.map (·.claim.executionId)).Nodup
  rejected   : ∀ r ∈ rejections, r.claim ∈ selected.map .of ∧ ∃ row,
               db.executions.find r.claim.executionId = some row ∧ row.status = .approval ∧ row.tenantId = r.tenantId
  all        : ∀ approval ∈ selected, ∀ row, db.executions.find approval.executionId = some row →
               row.status = .approval → ∃ r ∈ rejections, r.claim.executionId = approval.executionId
  executions : db'.executions.rows = db.executions.rows.map fun row =>
               if row.status = .approval ∧ row.executionId ∈ selected.map (·.executionId) then
                 row.update .rejected now
               else row
  events     : db'.events.rows = db.events.rows ++ rejections.map (·.event db)
  audit      : db'.audit.rows = db.audit.rows ++ rejections.map (·.audit)
  others     : db'.tenants = db.tenants ∧ db'.idempotency = db.idempotency ∧ db'.dispatches = db.dispatches

theorem Marked.swept (hm : Marked size now selected db db₁) (hr : Rejected now (selected.map .of) rejections db₁ db') :
    Swept size now selected rejections db db' := by
  have hx : db₁.executions = db.executions := by rw [hm.tables]
  have he : db₁.events = db.events := by rw [hm.tables]
  have hids : (selected.map ExpiredApprovalClaim.of).map (·.executionId) = selected.map (·.executionId) := by
    rw [List.map_map]
    rfl
  have hev : rejections.map (·.event db₁) = rejections.map (·.event db) := by
    simp only [Rejection.event, Db.maxSequence, Db.eventsOf, he]
  exact {
    batch      := hm.batch
    approvals  := by rw [hr.tables]; exact hm.approvals
    nodup      := hr.nodup
    rejected   := fun r hm => hx ▸ hr.claimed r hm
    all        := fun approval ha row hf hs => hr.all (.of approval) (List.mem_map_of_mem ha) row (hx ▸ hf) hs
    executions := by rw [hr.executions, hx, hids]
    events     := by rw [hr.events, he, hev]
    audit      := by rw [hr.audit, hm.tables]
    others     := by rw [hr.tables, hm.tables]; exact ⟨rfl, rfl, rfl⟩
  }

theorem expireApprovalsOnce_alone {allow : Time → Db → Ambient → Prop} (ha : ∀ db amb, allow now db amb → FreshAudit db amb)
    (h : (expireApprovalsOnce limit).Runs (engine.alone (allow now) now) db res db') (hk : db.Constraints) :
    ∃ result, res = .ok result ∧ (∃ amb, allow now db amb) ∧ ∃ selected rejections, result.claimed = selected.length ∧
      result.rejected = rejections.length ∧ result.claimed = result.rejected + result.skipped ∧
      Swept (clamp limit 1 100).toNat now selected rejections db db' := by
  obtain ⟨claims, db₁, ⟨hk₁, hamb, selected, rfl, hm⟩, h⟩ := Runs.after (Q := fun claims db₁ => db₁.Constraints ∧
      (∃ amb, allow now db amb) ∧ ∃ selected, claims = selected.map .of ∧
      Marked (clamp limit 1 100).toNat now selected db db₁) h fun h => by
    have ⟨claims, hr, hq⟩ := claimExpiredApprovals_alone h hk.foreignKeys
    exact ⟨claims, hr, hk.alone h, hq⟩
  have hx claim (hc : claim ∈ selected.map ExpiredApprovalClaim.of) : db₁.HasExecution claim.executionId := by
    have ⟨approval, ha, he⟩ := List.mem_map.mp hc
    have ha := (List.mem_filter.mp <| hm.batch.subset ha).left
    rw [hm.tables, ← he]
    exact (hk.foreignKeys.approvals approval ha).hasExecution
  have ht claim (hc : claim ∈ selected.map ExpiredApprovalClaim.of) : Storable claim.approvalId := by
    have ⟨approval, ha, he⟩ := List.mem_map.mp hc
    exact he ▸ hk.approvalIds approval (List.mem_filter.mp <| hm.batch.subset ha).left
  obtain ⟨counts, _, ⟨rejections, hc, hs, hr⟩, h⟩ := Runs.after h fun h => rejectClaims_alone ha h hk₁ ht hx
  obtain ⟨rfl, rfl⟩ := h
  refine ⟨_, rfl, hamb, selected, rejections, List.length_map .., by simpa using hc, ?_, hm.swept hr⟩
  simpa using hs.symm

-- The approvals that have expired by a given time, and are not marked.
def Db.overdue (db : Db) (since : Time) : List ApprovalRow :=
  db.approvals.rows.filter (·.Overdue since)

theorem ApprovalRow.Overdue.mono (h : ApprovalRow.Overdue row since) (hs : since ≤ now) : row.Overdue now := by
  have ⟨hp, x, hm, hx⟩ := h
  exact ⟨hp, x, hm, Int.le_trans hx hs⟩

-- A sweep takes those first that have expired by then.
theorem Swept.length_overdue (h : Swept size now selected rejections db db') (hs : since ≤ now) :
    (db'.overdue since).length + min size (db.overdue since).length = (db.overdue since).length := by
  have hd : (db.approvals.rows.filter (·.Overdue now)).filter (·.Overdue since) = db.overdue since := by
    rw [List.filter_filter, Db.overdue]
    refine List.filter_congr fun row _ => ?_
    by_cases hr : row.Overdue since
    case pos => simp [hr, hr.mono hs]
    case neg => simp [hr]
  have hnd := db.approvals.nodup.of_map
  have hb := h.batch.filter (p := (·.Overdue since)) (hnd.filter _) fun x hx y hxy hy => by
    have ⟨hp, t, hm, _⟩ : x.Overdue now := by simpa using (List.mem_filter.mp hx).right
    have ⟨_, t', hm', hy⟩ := hy
    refine ⟨hp, t, hm, ?_⟩
    simp only [Option.mem_def] at hm hm'
    simp only [hm, hm', Option.getD_some] at hxy
    exact Int.le_trans hxy hy
  rw [hd] at hb
  have hl : (db'.overdue since).length =
      (db.overdue since).countP fun row => row.approvalId ∉ selected.map (·.approvalId) := by
    rw [Db.overdue, h.approvals, List.filter_map, List.length_map, Db.overdue, List.countP_filter,
      List.countP_eq_length_filter]
    congr 1
    refine List.filter_congr fun row _ => ?_
    by_cases hm : row.approvalId ∈ selected.map (·.approvalId)
    case neg =>
      rw [Function.comp, if_neg hm]
      simp only [hm, not_false_eq_true, decide_true, Bool.true_and]
    case pos =>
      rw [Function.comp, if_pos hm]
      simp [hm, ApprovalRow.Overdue]
  have hr : (selected.filter (·.Overdue since)).Perm <|
      (db.overdue since).filter fun row => row.approvalId ∈ selected.map (·.approvalId) := by
    refine (List.perm_ext_iff_of_nodup hb.nodup <| (hnd.filter _).filter _).mpr fun row => ?_
    simp only [List.mem_filter, decide_eq_true_eq, List.mem_map]
    constructor
    case mp =>
      intro ⟨hm, ho⟩
      exact ⟨⟨(List.mem_filter.mp <| h.batch.subset hm).left, ho⟩, row, hm, rfl⟩
    case mpr =>
      intro ⟨⟨hm, ho⟩, row', hm', he⟩
      have hf' := Table.find_of_mem (List.mem_filter.mp <| h.batch.subset hm').left
      cases (he ▸ hf').symm.trans (Table.find_of_mem hm)
      exact ⟨hm', ho⟩
  rw [hl, ← hb.length, hr.length_eq, ← List.countP_eq_length_filter]
  have hc := List.length_eq_countP_add_countP (fun row : ApprovalRow => row.approvalId ∈ selected.map (·.approvalId))
    (l := db.overdue since)
  simp only [decide_eq_true_eq] at hc
  omega

end

-- A sweeper that nobody else interferes with, while transactions begin at a given time or later.
def sweeping (since : Time) : Regime platform :=
  alone (fun now db amb => since ≤ now ∧ FreshAudit db amb) fun _ _ => True

-- A number of successive sweeps, between which time can pass.
inductive Sweeps (since : Time) (limit : Int) (pid : Pid) : Nat → platform.Global → platform.Global → Prop
  | zero {g} : Sweeps since limit pid 0 g g
  | succ {n t g g₁ g' result} :
    Sweeps since limit pid n g g₁ → g₁.clock ≤ t →
    (Process.expireApprovalsOnce limit).Runs ((sweeping since).semantics pid) { g₁ with clock := t } (.ok result) g' →
    Sweeps since limit pid (n + 1) g g'

section
variable {since : Time} {limit : Int} {g g' : platform.Global}

-- What a call returns and does.
structure SweptOnce (since : Time) (limit : Int) (g : platform.Global) (res : Except KernelError ExpireApprovalsResult)
    (g' : platform.Global) (result : ExpireApprovalsResult) (now : Time) (selected : List ApprovalRow)
    (rejections : List Rejection) : Prop where
  returns  : res = .ok result
  claimed  : result.claimed = selected.length
  rejected : result.rejected = rejections.length
  total    : result.claimed = result.rejected + result.skipped
  since    : since ≤ now
  clock    : now ≤ g.clock
  swept    : Swept (clamp limit 1 100).toNat now selected rejections g.db g'.db

theorem expireApprovalsOnce_sweeps (h : (Process.expireApprovalsOnce limit).Runs ((sweeping since).semantics pid) g res g')
    (hk : g.db.Constraints) :
    (∃ result now selected rejections, SweptOnce since limit g res g' result now selected rejections) ∧
    g'.clock = g.clock ∧ g'.db.Constraints := by
  obtain ⟨now, db', hn, hr, rfl⟩ := transaction_alone h
  obtain ⟨result, rfl, ⟨_, hs, _⟩, selected, rejections, hc, hrej, ht, hsw⟩ :=
    @expireApprovalsOnce_alone _ _ _ _ _ (fun now db amb => since ≤ now ∧ FreshAudit db amb) (fun _ _ ha => ha.right) hr hk
  exact ⟨⟨result, now, selected, rejections, rfl, hc, hrej, ht, hs, hn, hsw⟩, rfl, hk.alone hr⟩

theorem expireApprovalsOnce_exists (hs : since ≤ g.clock) (limit : Int) (pid : Pid) :
    ∃ res g', (Process.expireApprovalsOnce limit).Runs ((sweeping since).semantics pid) g res g' := by
  refine exists_alone _ pid hs (fun db => ?_) fun _ => ⟨.calm, trivial⟩
  have ⟨amb, hg, hskip⟩ := exists_generated 0 db
  exact ⟨amb, ⟨Int.le_refl _, hg.fresh (by decide)⟩, hskip⟩

theorem Sweeps.length_overdue (h : Sweeps since limit pid n g g') (hk : g.db.Constraints) :
    g'.db.Constraints ∧
    (g'.db.overdue since).length ≤ (g.db.overdue since).length - n * (clamp limit 1 100).toNat := by
  induction h
  case zero => exact ⟨hk, by simp⟩
  case succ hrun ih =>
    have ⟨hk₁, hl⟩ := ih hk
    have ⟨⟨_, _, _, _, hsw⟩, _, hk'⟩ := expireApprovalsOnce_sweeps hrun hk₁
    have hl' := hsw.swept.length_overdue hsw.since
    refine ⟨hk', ?_⟩
    rw [Nat.succ_mul]
    dsimp only at hl'
    omega

theorem Sweeps.exists (hs : since ≤ g.clock) (hk : g.db.Constraints) (limit : Int) (pid : Pid) (n : Nat) :
    ∃ g', Sweeps since limit pid n g g' ∧ g'.clock = g.clock ∧ g'.db.Constraints := by
  induction n
  case zero    => exact ⟨g, .zero, rfl, hk⟩
  case succ ih =>
    have ⟨g₁, h, hc, hk₁⟩ := ih
    have ⟨res, g', hr⟩ := expireApprovalsOnce_exists (hc ▸ hs) limit pid
    have ⟨⟨_, _, _, _, hsw⟩, hc', hk'⟩ := expireApprovalsOnce_sweeps hr hk₁
    exact ⟨g', .succ h (Int.le_refl _) (hsw.returns ▸ hr), hc'.trans hc, hk'⟩

end

-- A sweep does what it should, and enough of them mark all approvals that have expired at first.
theorem sweeps_are_correct {since : Time} {g : platform.Global} (hs : since ≤ g.clock) (hk : g.db.Constraints)
    (limit : Int) (pid : Pid) :
    (∃ res g', (Process.expireApprovalsOnce limit).Runs ((sweeping since).semantics pid) g res g') ∧
    (∀ res g', (Process.expireApprovalsOnce limit).Runs ((sweeping since).semantics pid) g res g' →
      ∃ result now selected rejections, SweptOnce since limit g res g' result now selected rejections) ∧
    (∀ n, ∃ g', Sweeps since limit pid n g g') ∧
    ∀ n g', Sweeps since limit pid n g g' →
      (g.db.overdue since).length ⌈/⌉ (clamp limit 1 100).toNat ≤ n → g'.db.overdue since = [] := by
  refine ⟨expireApprovalsOnce_exists hs limit pid, fun _ _ h => (expireApprovalsOnce_sweeps h hk).left,
    fun n => (Sweeps.exists hs hk limit pid n).imp fun _ => And.left, fun n g' h hn => ?_⟩
  have hpos : 0 < (clamp limit 1 100).toNat := by
    simp only [clamp]
    omega
  have hn := (ceilDiv_le_iff_le_mul hpos).mp hn
  obtain ⟨_, hl⟩ := h.length_overdue hk
  refine List.length_eq_zero_iff.mp ?_
  rw [Nat.mul_comm] at hl
  omega

-- The gated execution, whose approval has expired.
def Sample.late : platform.Global :=
  { Sample.waiting with clock := 100000000 }

-- Three executions, whose approvals have expired.
def Sample.piled : platform.Global :=
  let started (e : String) : platform.Code := do
    return .started (← transaction (.start { request true with identity := ⟨e, "t", "u", "g", "1"⟩ } "h" ⟨none⟩))
  let before := transact 0 (started "e") 0 "a" 11 ++ transact 1 (started "f") 0 "b" 11 ++ transact 2 (started "g") 0 "c" 11
  { (reach unchecked before).toGlobal with clock := 100000000 }

theorem Sample.piled_constraints : Sample.piled.db.Constraints :=
  have {before} : (reach Sample.unchecked before).db.Constraints :=
    have hr : Reachable Guard.any (reach Sample.unchecked before) := reach_reachable fun _ _ _ _ => trivial
    hr.constraints
  this

-- A sweep takes two of them, and another one takes the third.
theorem sweeps_are_correct_late :
    (Sample.piled.db.overdue 100000000).length = 3 ∧
    (∃ res g' result, (Process.expireApprovalsOnce 2).Runs ((sweeping 100000000).semantics 0) Sample.piled res g' ∧
      res = .ok result ∧ result.claimed = 2 ∧ (g'.db.overdue 100000000).length = 1) ∧
    ∃ g', Sweeps 100000000 2 0 2 Sample.piled g' ∧ g'.db.overdue 100000000 = [] := by
  have hd : (Sample.piled.db.overdue 100000000).length = 3 := by decide +kernel
  have hc : (100000000 : Time) ≤ Sample.piled.clock := Int.le_refl _
  have ⟨⟨res, g', h⟩, ha, hs, he⟩ := sweeps_are_correct hc Sample.piled_constraints 2 0
  have ⟨result, now, selected, rejections, hsw⟩ := ha res g' h
  have hn : now = 100000000 := Int.le_antisymm hsw.clock hsw.since
  have hl := hsw.swept.length_overdue hsw.since
  have hd' : (Sample.piled.db.approvals.rows.filter (·.Overdue now)).length = 3 := hn ▸ hd
  have ⟨g₂, h₂⟩ := hs 2
  refine ⟨hd, ⟨res, g', result, h, hsw.returns, ?_, ?_⟩, g₂, h₂, he 2 g₂ h₂ ?_⟩
  · rw [hsw.claimed, hsw.swept.batch.length, hd']
    rfl
  · rw [hd] at hl
    exact Nat.add_right_cancel hl
  · rw [hd]
    decide

end Logon
