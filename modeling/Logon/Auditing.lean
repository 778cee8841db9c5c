import Logon.Pending
import Logon.Sweeping

-- The audit accounts for what happens to approvals, as far as transitions do not leave them behind.

namespace Logon

open System Program PostgresExecutionService

-- What is on record about an execution: the statuses of its events and of its approvals, and what has been audited.
@[ext]
structure File where
  statuses : List ExecutionStatus
  verdicts : List ApprovalStatus
  findings : List (String × Bool)
  deriving DecidableEq

namespace Db

def approvalsOf (db : Db) (e : String) : List ApprovalRow :=
  db.approvals.rows.filter (·.executionId = e)

def file (db : Db) (e : String) : File where
  statuses := db.statuses e
  verdicts := (db.approvalsOf e).map (·.status)
  findings := (db.auditOf e).map fun row => (row.action, row.allowed)

end Db

-- An execution has been moved on as soon as it was started.
def Skipped (log : List platform.Commit) (e : String) : Prop :=
  ∃ event, Moved log e event ∧ event.sequence = 2

def checkFinding (status : ExecutionStatus) : String × Bool :=
  ("EXECUTION_POLICY_CHECK", status ≠ .rejected)

def decisionFinding (status : ApprovalDecisionStatus) : String × Bool :=
  ("EXECUTION_APPROVAL_DECISION", status = .approved)

def expiryFinding : String × Bool :=
  ("EXECUTION_APPROVAL_EXPIRED", false)

-- The files that there are. An approval is `due` for its execution to be rejected while a sweep goes on.
inductive Kept (skipped due : Prop) : File → Prop
  | absent :
    ¬skipped → Kept skipped due ⟨[], [], []⟩
  | unasked {status later} :
    Kept skipped due ⟨status :: later, [], [checkFinding status]⟩
  | waiting :
    ¬skipped → Kept skipped due ⟨[.approval], [.pending], [checkFinding .approval]⟩
  | lapsed :
    ¬skipped → due → Kept skipped due ⟨[.approval], [.expired], [checkFinding .approval]⟩
  | decided {decision status later} :
    ¬skipped →
    Kept skipped due ⟨.approval :: status :: later, [decision.toStatus], [checkFinding .approval, decisionFinding decision]⟩
  | expired {status later} :
    ¬skipped → Kept skipped due ⟨.approval :: status :: later, [.expired], [checkFinding .approval, expiryFinding]⟩
  | left {verdict status later} :
    skipped → verdict = .pending ∨ verdict = .expired →
    Kept skipped due ⟨.approval :: status :: later, [verdict], [checkFinding .approval]⟩

namespace Kept

variable {skipped skipped' due due' : Prop} {file : File}

theorem mono (h : Kept skipped due file) (hs : skipped' ↔ skipped) (hd : due → due') : Kept skipped' due' file := by
  rw [hs]
  cases h
  case absent hn    => exact .absent hn
  case unasked      => exact .unasked
  case waiting hn   => exact .waiting hn
  case lapsed hn h  => exact .lapsed hn (hd h)
  case decided hn   => exact .decided hn
  case expired hn   => exact .expired hn
  case left hs hv   => exact .left hs hv

-- An event is appended by a `transition` or a `fail`.
theorem move (h : Kept skipped False file) (hn : file.statuses ≠ [])
    (hs : skipped' ↔ skipped ∨ file.statuses.length + 1 = 2) :
    Kept skipped' due ⟨file.statuses ++ [status], file.verdicts, file.findings⟩ := by
  rw [hs]
  cases h
  case absent      => exact absurd rfl hn
  case unasked     => exact .unasked
  case waiting     => exact .left (.inr rfl) (.inl rfl)
  case lapsed hf   => exact hf.elim
  case decided hk  => exact .decided <| by simpa using hk
  case expired hk  => exact .expired <| by simpa using hk
  case left hk hv  => exact .left (.inl hk) hv

-- While an execution is in `APPROVAL`, its approval is waiting for a decision, or has just expired.
theorem of_pending (h : Kept skipped False file) (hv : file.verdicts = [.pending]) (hs : file.statuses = [.approval]) :
    ¬skipped ∧ file.findings = [checkFinding .approval] := by
  cases h
  case absent     => cases hv
  case unasked    => cases hv
  case waiting hn => exact ⟨hn, rfl⟩
  case lapsed hf  => exact hf.elim
  case decided    => cases hs
  case expired    => cases hs
  case left       => cases hs

theorem of_lapsed (h : Kept skipped due file) (hv : file.verdicts = [.expired]) (hs : file.statuses = [.approval]) :
    ¬skipped ∧ file.findings = [checkFinding .approval] := by
  cases h
  case absent       => cases hv
  case unasked      => cases hv
  case waiting      => cases hv
  case lapsed hn _  => exact ⟨hn, rfl⟩
  case decided      => cases hs
  case expired      => cases hs
  case left         => cases hs

-- A pending approval expires.
theorem lapse (h : Kept skipped due file) (hv : file.verdicts = [.pending]) :
    Kept skipped True ⟨file.statuses, [.expired], file.findings⟩ := by
  cases h
  case absent     => cases hv
  case unasked    => cases hv
  case waiting hn => exact .lapsed hn trivial
  case lapsed     => cases hv
  case expired    => cases hv
  case left hs _  => exact .left hs (.inr rfl)
  case decided decision _ _ _ =>
    cases decision <;> cases hv

end Kept

section
variable {P : Premise} {now : Time} {db db' : Db}

theorem Advance.approvals (h : Advance now db event db') : db'.approvals = db.approvals ∧ db'.audit = db.audit := by
  cases h
  exact ⟨rfl, rfl⟩

theorem Advance.file (h : Advance now db event db') :
    db'.file event.executionId =
      ⟨(db.file event.executionId).statuses ++ [event.status], (db.file event.executionId).verdicts,
        (db.file event.executionId).findings⟩ := by
  have ⟨hp, hu⟩ := h.approvals
  simp only [Db.file, Db.approvalsOf, Db.auditOf, hp, hu, h.statuses]

theorem Advance.file_ne (h : Advance now db event db') (hn : e ≠ event.executionId) : db'.file e = db.file e := by
  have ⟨hp, hu⟩ := h.approvals
  have hs : db'.statuses e = db.statuses e := h.appends.same fun _ hs => hn hs.left
  simp only [Db.file, Db.approvalsOf, Db.auditOf, hp, hu, hs]

theorem Audit.file (h : Audit P now db e tenantId action actorId allowed reason db') (e' : String) :
    db'.file e' = ⟨(db.file e').statuses, (db.file e').verdicts,
      (db.file e').findings ++ if e = e' then [(action, allowed)] else []⟩ := by
  cases h
  case mk u createdAt c hu hn hc =>
    have hr : (db.addAudit ⟨u, e, tenantId, action, actorId, allowed, reason, createdAt⟩ c).audit.rows =
        db.audit.rows ++ _ := Table.rows_insert_new hc
    simp only [Db.file, Db.auditOf, hr, List.filter_append, List.map_append]
    by_cases he : e = e'
    case pos => simp [he, AuditRow.of, Db.statuses, Db.eventsOf, Db.approvalsOf]
    case neg => simp [he, AuditRow.of, Db.statuses, Db.eventsOf, Db.approvalsOf]

-- The approvals of an execution after those that satisfy `p` are set.
theorem Db.approvalsOf_map {f : ApprovalRow → ApprovalRow} (hf : ∀ row, (f row).executionId = row.executionId)
    (h : db'.approvals.rows = db.approvals.rows.map f) (e : String) : db'.approvalsOf e = (db.approvalsOf e).map f := by
  rw [approvalsOf, h, List.filter_map]
  congr 2
  exact funext fun row => by simp [hf]

theorem Db.file_setApproval (hf : db.approvals.find a = some row) (hv : (db.file row.executionId).verdicts = [verdict])
    (status : ApprovalStatus) (decidedBy : String) (t : Time) :
    verdict = row.status ∧ (db.setApproval a status decidedBy t).file row.executionId =
      ⟨(db.file row.executionId).statuses, [status], (db.file row.executionId).findings⟩ := by
  have hm : row ∈ db.approvalsOf row.executionId := List.mem_filter.mpr ⟨Table.mem_of_find hf, by simp⟩
  have ⟨row', hr, hs⟩ := List.map_eq_singleton_iff.mp hv
  rw [hr, List.mem_singleton] at hm
  subst hm
  have ha : (db.setApproval a status decidedBy t).approvalsOf row.executionId = _ :=
    Db.approvalsOf_map (by intro row; split <;> rfl) rfl row.executionId
  refine ⟨hs.symm, ?_⟩
  rw [Db.file, ha, hr]
  have hk : row.approvalId = a := Table.key_of_find hf
  simp only [hk, List.map_singleton, if_true]
  rfl

-- Other executions do not notice.
theorem Db.file_setApproval_ne (hf : db.approvals.find a = some row) (hn : e ≠ row.executionId) (status : ApprovalStatus)
    (decidedBy : String) (t : Time) : (db.setApproval a status decidedBy t).file e = db.file e := by
  have ha : (db.setApproval a status decidedBy t).approvalsOf e = _ :=
    Db.approvalsOf_map (by intro row; split <;> rfl) rfl e
  have hm : (db.setApproval a status decidedBy t).approvalsOf e = db.approvalsOf e := by
    refine ha.trans <| (List.map_congr_left fun row' hm => ?_).trans (List.map_id _)
    have ⟨hm, he⟩ := List.mem_filter.mp hm
    rw [if_neg]
    · rfl
    · intro hk
      cases hf.symm.trans <| hk ▸ Table.find_of_mem hm
      exact hn (of_decide_eq_true he).symm
  rw [Db.file, hm]
  rfl

theorem Db.file_addApproval {request : ApprovalRequest} (hn : db.approvals.find request.approvalId = none) (e : String) :
    (db.addApproval request c x).file e = ⟨(db.file e).statuses,
      (db.file e).verdicts ++ if request.executionId = e then [.pending] else [], (db.file e).findings⟩ := by
  have hr : (db.addApproval request c x).approvals.rows = db.approvals.rows ++ _ := Table.rows_insert_new hn
  simp only [Db.file, Db.approvalsOf, hr, List.filter_append, List.map_append]
  by_cases he : request.executionId = e
  case pos => simp [he, ApprovalRow.of, Db.statuses, Db.eventsOf, Db.auditOf]
  case neg => simp [he, ApprovalRow.of, Db.statuses, Db.eventsOf, Db.auditOf]

theorem PolicyDecision.checked_status (decision : PolicyDecision) :
    ("EXECUTION_POLICY_CHECK", decision.allowed) = checkFinding decision.status := by
  obtain ⟨allowed, requiresApproval, reason⟩ := decision
  cases allowed <;> cases requiresApproval <;> rfl

theorem AwaitOrDispatch.file {request : ExecutionRequest} {decision : PolicyDecision}
    (h : AwaitOrDispatch P now request decision db db') (e : String) :
    db'.file e = db.file e ∨ decision.status = .approval ∧
      db'.file e = ⟨(db.file e).statuses,
        (db.file e).verdicts ++ if request.identity.executionId = e then [.pending] else [], (db.file e).findings⟩ := by
  cases h
  case approval hs _ _ _ hn => exact .inr ⟨hs, Db.file_addApproval hn e⟩
  all_goals exact .inl rfl

theorem Create.file_ne {request : ExecutionRequest} (h : Create P now request db event db')
    (hn : e ≠ request.identity.executionId) : db'.file e = db.file e := by
  have hs : db'.statuses e = db.statuses e := h.appends.same fun _ hs => hn hs.left
  cases h
  case mk c t db₁ _ _ _ _ _ ha hu =>
    have hv : (db'.file e).verdicts = (db₁.file e).verdicts ∧ (db'.file e).findings = (db₁.file e).findings := by
      simp [hu.file e, hn.symm]
    have ha : db₁.file e = (db.addExecution request (createdEvent request (.iso t)) c t).file e := by
      obtain he | ⟨_, he⟩ := ha.file e
      · exact he
      · simp [he, hn.symm]
    rw [ha] at hv
    exact File.ext hs hv.left hv.right

-- If the execution has to wait, an approval is requested, unless its id is in use.
theorem Create.file {request : ExecutionRequest} (h : Create P now request db event db') (hl : db.Ledger)
    (hf : db.file request.identity.executionId = ⟨[], [], []⟩) : ∃ asked : Bool,
    (asked → (evaluateExecutionPolicy request).status = .approval) ∧
    db'.file request.identity.executionId = ⟨[(evaluateExecutionPolicy request).status],
      if asked then [.pending] else [], [checkFinding (evaluateExecutionPolicy request).status]⟩ := by
  have hs := h.statuses
  cases h
  case mk c t db₁ _ hn _ _ _ ha hu =>
    have hs := hs (hl.orphans hn)
    have hv : (db'.file request.identity.executionId).verdicts = (db₁.file request.identity.executionId).verdicts ∧
        (db'.file request.identity.executionId).findings =
          (db₁.file request.identity.executionId).findings ++ [checkFinding (evaluateExecutionPolicy request).status] := by
      simp [hu.file, PolicyDecision.checked_status]
    have hb : ((db.addExecution request (createdEvent request (.iso t)) c t).file request.identity.executionId).verdicts = [] ∧
        ((db.addExecution request (createdEvent request (.iso t)) c t).file request.identity.executionId).findings = [] :=
      ⟨congrArg File.verdicts hf, congrArg File.findings hf⟩
    obtain he | ⟨hst, he⟩ := ha.file request.identity.executionId
    · rw [he, hb.left, hb.right] at hv
      exact ⟨false, nofun, File.ext hs hv.left hv.right⟩
    · simp only [he, hb, if_true] at hv
      exact ⟨true, fun _ => hst, File.ext hs hv.left hv.right⟩

end

theorem Skipped.concat {log : List platform.Commit} {entry : platform.Commit} :
    Skipped (log ++ [entry]) e ↔ Skipped log e ∨ Skipped [entry] e := by
  constructor
  case mp =>
    intro ⟨event, hm, hs⟩
    cases hm
    case transition hm =>
      exact (List.mem_append.mp hm).imp (fun hm => ⟨event, .transition hm, hs⟩) fun hm => ⟨event, .transition hm, hs⟩
    case fail hm =>
      exact (List.mem_append.mp hm).imp (fun hm => ⟨event, .fail hm, hs⟩) fun hm => ⟨event, .fail hm, hs⟩
  case mpr =>
    rintro (⟨event, hm, hs⟩ | ⟨event, hm, hs⟩)
    · exact ⟨event, hm.later (List.subset_append_left _ _), hs⟩
    · exact ⟨event, hm.later (List.subset_append_right _ _), hs⟩

theorem List.eq_singleton_of_nodup {l : List α} (hd : l.Nodup) (hh : l.head? = some a) (hl : l.getLast? = some a) :
    l = [a] := by
  cases l
  case nil => cases hh
  case cons b l =>
    cases hh
    cases l
    case nil => rfl
    case cons c l =>
      rw [List.getLast?_cons_cons] at hl
      exact absurd (List.mem_of_getLast? hl) (List.nodup_cons.mp hd).left

namespace Kept

variable {skipped due : Prop} {file : File}

theorem verdicts_length (h : Kept skipped due file) : file.verdicts.length ≤ 1 := by
  cases h <;> simp

theorem statuses_head (h : Kept skipped due file) (hv : file.verdicts ≠ []) : file.statuses.head? = some .approval := by
  cases h
  case absent  => exact absurd rfl hv
  case unasked => exact absurd rfl hv
  all_goals rfl

theorem of_nil (h : Kept skipped due file) (hs : file.statuses = []) : file = ⟨[], [], []⟩ ∧ ¬skipped := by
  cases h
  case absent hn => exact ⟨rfl, hn⟩
  all_goals cases hs

theorem not_due (h : Kept skipped due file) (hs : file.statuses ≠ [.approval]) : Kept skipped False file := by
  cases h
  case lapsed      => exact absurd rfl hs
  case absent hn   => exact .absent hn
  case unasked     => exact .unasked
  case waiting hn  => exact .waiting hn
  case decided hn  => exact .decided hn
  case expired hn  => exact .expired hn
  case left hk hv  => exact .left hk hv

end Kept

-- All executions are on file.
structure Files (skipped due : String → Prop) (db : Db) : Prop where
  ledger : db.Ledger
  kept   : ∀ e, Kept (skipped e) (due e) (db.file e)

namespace Files

variable {P : Premise} {now : Time} {db db' : Db} {skipped skipped' due due' : String → Prop}

theorem congr (h : Files skipped due db) (hl : db'.Ledger) (hf : ∀ e, db'.file e = db.file e)
    (hs : ∀ e, skipped' e ↔ skipped e) : Files skipped' due db' where
  ledger := hl
  kept e := hf e ▸ (h.kept e).mono (hs e) id

-- An execution that has been in `APPROVAL` ever since
theorem statuses_eq (h : Files skipped due db) (hf : db.executions.find e = some row) (hs : row.status = .approval)
    (hv : (db.file e).verdicts ≠ []) : (db.file e).statuses = [.approval] := by
  have ha := h.ledger.accounts hf
  exact List.eq_singleton_of_nodup ha.lifecycle.nodup ((h.kept e).statuses_head hv) (hs ▸ ha.current)

-- No execution has more than one approval.
theorem approvalsOf_eq (h : Files skipped due db) (hm : row ∈ db.approvals.rows) : db.approvalsOf row.executionId = [row] := by
  have hl := (h.kept row.executionId).verdicts_length
  rw [Db.file, List.length_map] at hl
  have hm : row ∈ db.approvalsOf row.executionId := List.mem_filter.mpr ⟨hm, by simp⟩
  obtain ⟨row', he⟩ := List.length_eq_one_iff.mp <| Nat.le_antisymm hl <| List.length_pos_of_mem hm
  rw [he, List.mem_singleton] at hm
  rw [he, hm]

theorem move (h : Files skipped (fun _ => False) db) (hv : Advance now db event db')
    (hs : ∀ e, skipped' e ↔ skipped e ∨ e = event.executionId ∧ event.sequence = 2) :
    Files skipped' (fun _ => False) db' where
  ledger := h.ledger.advance hv
  kept e := by
    by_cases he : e = event.executionId
    case neg =>
      rw [hv.file_ne he]
      exact (h.kept e).mono (by simp [hs, he]) id
    case pos =>
      subst he
      have ⟨_, ha, hn⟩ := h.ledger.accounts_advance hv
      rw [hv.file]
      refine (h.kept _).move ha.lifecycle.ne_nil ?_
      simp only [hs, true_and, hn]
      rfl

theorem create {request : ExecutionRequest} (h : Files skipped (fun _ => False) db)
    (hc : Create P now request db event db') (hl : db'.Ledger) : Files skipped (fun _ => False) db' where
  ledger := hl
  kept e := by
    by_cases he : e = request.identity.executionId
    case neg => exact hc.file_ne he ▸ h.kept e
    case pos =>
      subst he
      have hn : (db.file request.identity.executionId).statuses = [] := by
        cases hc
        case mk hn _ _ _ _ _ => exact h.ledger.statuses_eq_nil hn
      have ⟨hf, hk⟩ := (h.kept _).of_nil hn
      have ⟨asked, ha, he⟩ := hc.file h.ledger hf
      rw [he]
      cases asked
      case false => exact .unasked
      case true  =>
        rw [ha rfl]
        exact .waiting hk

-- An execution is rejected since its approval has just expired.
theorem reject (h : Files skipped due db) (hr : Reject P now e a db db') (hf : db.executions.find e = some row)
    (hs : row.status = .approval) (hv : (db.file e).verdicts = [.expired]) :
    Files skipped due db' ∧ ∀ e', (db'.file e').verdicts = (db.file e').verdicts := by
  cases hr
  case mk n t db₁ _ had hu =>
  have hfile : (db'.file e) = ⟨(db.file e).statuses ++ [.rejected], (db.file e).verdicts, (db.file e).findings ++ [expiryFinding]⟩ := by
    rw [hu.file e, had.file]
    simp [expiryFinding]
  have hne {e'} (he : e' ≠ e) : db'.file e' = db.file e' := by
    rw [hu.file e', had.file_ne he]
    simp [he.symm]
  have hl : db'.Ledger := by
    have he : db'.executions = db₁.executions ∧ db'.events = db₁.events := by
      cases hu
      exact ⟨rfl, rfl⟩
    exact (h.ledger.advance had).congr he.left he.right
  refine ⟨⟨hl, fun e' => ?_⟩, fun e' => ?_⟩
  · by_cases he : e' = e
    case neg => exact hne he ▸ h.kept e'
    case pos =>
      subst he
      have hst := h.statuses_eq hf hs (by simp [hv])
      have ⟨hk, hfi⟩ := (h.kept e').of_lapsed hv hst
      rw [hfile, hst, hv, hfi]
      exact .expired hk
  · by_cases he : e' = e
    case neg => rw [hne he]
    case pos => rw [he, hfile]

-- The loop over the claims of a sweep
theorem rejectAll (h : Files skipped (· ∈ claims.map ExpiredApprovalClaim.executionId) db)
    (hr : RejectAll P now db claims m n db')
    (hv : ∀ claim ∈ claims, (db.file claim.executionId).verdicts = [.expired]) : Files skipped (fun _ => False) db' := by
  induction hr
  case nil => exact ⟨h.ledger, fun e => (h.kept e).mono .rfl (by simp)⟩
  case skip db claim claims row m n db' hf hs _ ih =>
    refine ih ⟨h.ledger, fun e => ?_⟩ fun c hc => hv c (.tail _ hc)
    by_cases he : e = claim.executionId
    case neg => exact (h.kept e).mono .rfl (by simp [he])
    case pos =>
      subst he
      refine ((h.kept _).not_due fun hst => hs ?_).mono .rfl False.elim
      have hc := (h.ledger.accounts hf).current
      have hst : db.statuses claim.executionId = [.approval] := hst
      rw [hst] at hc
      exact (Option.some.inj hc).symm
  case reject db claim claims row m n db₁ db' hf hs hr _ ih =>
    have ⟨h₁, hv₁⟩ := h.reject hr hf hs (hv claim (.head _))
    refine ih ⟨h₁.ledger, fun e => ?_⟩ fun c hc => (hv₁ _).trans <| hv c (.tail _ hc)
    by_cases he : e = claim.executionId
    case neg => exact (h₁.kept e).mono .rfl (by simp [he])
    case pos =>
      subst he
      have ⟨row', hf', hs'⟩ := hr.findExecution
      refine ((h₁.kept _).not_due fun hst => ?_).mono .rfl False.elim
      have hc := (h₁.ledger.accounts hf').current
      have hst : db₁.statuses claim.executionId = [.approval] := hst
      rw [hst, hs'] at hc
      cases hc

-- Overdue approvals are marked, and their executions are due to be rejected.
theorem mark (h : Files skipped (fun _ => False) db) (hm : Marked size now selected db db') :
    Files skipped (· ∈ (selected.map ExpiredApprovalClaim.of).map (·.executionId)) db' ∧
    ∀ claim ∈ selected.map ExpiredApprovalClaim.of, (db'.file claim.executionId).verdicts = [.expired] := by
  have ha (e) := Db.approvalsOf_map (by intro row; split <;> rfl) hm.approvals e
  have hs : db'.executions = db.executions ∧ db'.events = db.events ∧ db'.audit = db.audit := by
    rw [hm.tables]
    exact ⟨rfl, rfl, rfl⟩
  have hf (e) : db'.file e = ⟨(db.file e).statuses, (db'.approvalsOf e).map (·.status), (db.file e).findings⟩ := by
    simp only [Db.file, Db.statuses, Db.eventsOf, Db.auditOf, hs]
  have hov {row} (hr : row ∈ selected) : row ∈ db.approvals.rows ∧ row.status = .pending := by
    obtain ⟨hr, ho⟩ := List.mem_filter.mp <| hm.batch.subset hr
    exact ⟨hr, (of_decide_eq_true ho).left⟩
  -- An approval that is marked is the only one of its execution.
  have marked {row} (hr : row ∈ selected) : (db.file row.executionId).verdicts = [.pending] ∧
      (db'.approvalsOf row.executionId).map (·.status) = [.expired] := by
    have hone := h.approvalsOf_eq (hov hr).left
    refine ⟨by rw [Db.file, hone, List.map_singleton, (hov hr).right], ?_⟩
    have hmem : row.approvalId ∈ selected.map (·.approvalId) := List.mem_map_of_mem hr
    rw [ha, hone, List.map_singleton, List.map_singleton, if_pos hmem]
  refine ⟨⟨h.ledger.congr hs.left hs.right.left, fun e => ?_⟩, fun claim hc => ?_⟩
  · by_cases he : ∃ row ∈ selected, row.executionId = e
    case pos =>
      obtain ⟨row, hr, rfl⟩ := he
      obtain ⟨hp, hx⟩ := marked hr
      rw [hf, hx]
      refine ((h.kept _).lapse hp).mono .rfl fun _ => ?_
      exact List.mem_map_of_mem (f := ExpiredApprovalClaim.executionId) <| List.mem_map_of_mem (f := ExpiredApprovalClaim.of) hr
    case neg =>
      have hsame : (db'.approvalsOf e).map (·.status) = (db.file e).verdicts := by
        rw [ha, List.map_map]
        refine List.map_congr_left fun row hr => ?_
        obtain ⟨hr, hx⟩ := List.mem_filter.mp hr
        have hn : row.approvalId ∉ selected.map (·.approvalId) := by
          intro hi
          obtain ⟨row', hr', hi⟩ := List.mem_map.mp hi
          have hi : some row' = some row := by
            rw [← Table.find_of_mem (hov hr').left, hi, Table.find_of_mem hr]
          cases hi
          exact he ⟨row, hr', of_decide_eq_true hx⟩
        exact congrArg ApprovalRow.status (if_neg hn)
      rw [hf, hsame]
      exact (h.kept e).mono .rfl False.elim
  · obtain ⟨row, hr, rfl⟩ := List.mem_map.mp hc
    rw [hf]
    exact (marked hr).right

theorem decide {decision : ApprovalDecision} (h : Files skipped (fun _ => False) db)
    (hd : Decide P now decision db outcome db') (hl : db'.Ledger) : Files skipped (fun _ => False) db' where
  ledger := hl
  kept e := by
    have opened {execution approval} (ho : Open decision db execution approval) :
        (db.file decision.executionId).verdicts = [.pending] ∧ (db.file decision.executionId).statuses = [.approval] := by
      have hv : (db.file decision.executionId).verdicts = [.pending] := by
        rw [Db.file, ← ho.bound, h.approvalsOf_eq (Table.mem_of_find ho.findApproval), List.map_singleton, ho.pending]
      exact ⟨hv, h.statuses_eq ho.findExecution ho.status (by simp [hv])⟩
    cases hd
    case expired execution row x t ho _ _ _ hr =>
      have ⟨hv, hs⟩ := opened ho
      have ⟨hk, hf⟩ := (h.kept _).of_pending hv hs
      cases hr
      case mk n t' db₁ _ had hu =>
      by_cases he : e = decision.executionId
      case neg =>
        have hf : db'.file e = db.file e := by
          rw [hu.file e, had.file_ne he, Db.file_setApproval_ne ho.findApproval (ho.bound ▸ he)]
          simp [Ne.symm he]
        exact hf ▸ h.kept e
      case pos =>
        subst he
        have hset := (Db.file_setApproval ho.findApproval (ho.bound ▸ hv) .expired "logon.approval.expiry" now).right
        rw [ho.bound, hs, hf] at hset
        rw [hu.file, had.file, hset]
        simpa [expiryFinding] using Kept.expired hk
    case decided execution row n db₁ db₂ db₃ ho _ hb had hdi hu =>
      subst hb
      have ⟨hv, hs⟩ := opened ho
      have ⟨hk, hf⟩ := (h.kept _).of_pending hv hs
      have hdi (e) : db₃.file e = db₂.file e := by
        obtain ⟨_, rfl⟩ | ⟨_, _, rfl⟩ | ⟨_, _, rfl⟩ := hdi <;> rfl
      by_cases he : e = decision.executionId
      case neg =>
        have hf : db'.file e = db.file e := by
          rw [hu.file e, hdi, had.file_ne he, Db.file_setApproval_ne ho.findApproval (ho.bound ▸ he)]
          simp [Ne.symm he]
        exact hf ▸ h.kept e
      case pos =>
        subst he
        have hset := (Db.file_setApproval ho.findApproval (ho.bound ▸ hv) decision.status.toStatus decision.decidedBy
          (decision.decidedAt.timestamptz.getD now)).right
        rw [ho.bound, hs, hf] at hset
        have had := had.file
        simp only [decisionEvent, hset] at had
        rw [hu.file, hdi, had]
        have hk : Kept (skipped decision.executionId) False ⟨[.approval, nextStatus decision.status],
            [decision.status.toStatus], [checkFinding .approval, decisionFinding decision.status]⟩ := .decided hk
        simpa [decisionFinding] using hk

end Files

theorem Skipped.transition_iff : Skipped [⟨pid, .transition e' status actorId payload, event, now⟩] e ↔
    e = e' ∧ event.sequence = 2 := by
  constructor
  case mp =>
    rintro ⟨event, hm | hm, hs⟩ <;> cases List.mem_singleton.mp hm
    exact ⟨rfl, hs⟩
  case mpr =>
    rintro ⟨rfl, hs⟩
    exact ⟨event, .transition <| .head _, hs⟩

theorem Skipped.fail_iff : Skipped [⟨pid, .fail e' actorId reason, event, now⟩] e ↔ e = e' ∧ event.sequence = 2 := by
  constructor
  case mp =>
    rintro ⟨event, hm | hm, hs⟩ <;> cases List.mem_singleton.mp hm
    exact ⟨rfl, hs⟩
  case mpr =>
    rintro ⟨rfl, hs⟩
    exact ⟨event, .fail <| .head _, hs⟩

-- Transactions that come one after the other, whatever they generate and whichever clocks they read.
def sequential : Regime platform :=
  alone (fun _ _ _ => True) fun _ _ => True

inductive Serial : platform.Global → Prop
  | initial {clock} : Serial (System.initial Db.empty Queue.empty clock : platform.State).toGlobal
  | tick {g t} : Serial g → g.clock ≤ t → Serial { g with clock := t }
  | call {g g' pid c r} : Serial g → Do sequential pid (.inl c) g r g' → Serial g'

abbrev OnFile (g : platform.Global) : Prop :=
  Files (Skipped g.log) (fun _ => False) g.db

section
variable {g g' : platform.Global}

theorem OnFile.call {c : Call} {r : Except KernelError c.Result} (h : OnFile g) (hk : g.db.ForeignKeys)
    (hd : Do sequential pid (.inl c) g r g') : OnFile g' := by
  cases hd
  case throw => exact h
  case fault => exact h
  case commit now db' r _ _ hrun =>
    have hr : c.body.Runs (engine.alone (fun _ _ => True) now) g.db (.ok r) db' := hrun
    have hc : c.Commits (.exact fun _ _ _ => True) now g.db r db' := c.commits (runs_exact hr)
    have hl := hc.ledger h.ledger
    have other (hn : ∀ e, ¬Skipped [⟨pid, c, r, now⟩] e) (e) :
        Skipped (g.log ++ [⟨pid, c, r, now⟩]) e ↔ Skipped g.log e := Skipped.concat.trans <| or_iff_left (hn e)
    cases c
    case transition =>
      obtain ⟨⟨_, _, rfl⟩, hv⟩ := hc
      exact h.move hv fun e => Skipped.concat.trans <| or_congr_right Skipped.transition_iff
    case fail =>
      obtain ⟨⟨_, _, rfl⟩, hv⟩ := hc
      exact h.move hv fun e => Skipped.concat.trans <| or_congr_right Skipped.fail_iff
    all_goals
      have hn (e) : ¬Skipped [⟨pid, _, r, now⟩] e := by
        rintro ⟨_, hm | hm, _⟩ <;> cases List.mem_singleton.mp hm
    case start =>
      have ht (t) : Files (Skipped g.log) (fun _ => False) (g.db.withTenant t) :=
        h.congr (h.ledger.congr (by rfl) (by rfl)) (fun _ => rfl) fun _ => .rfl
      cases hc
      case unkeyed hc => exact ((ht _).create hc hl).congr hl (fun _ => rfl) (other hn)
      case reused     => exact h.congr hl (fun _ => rfl) (other hn)
      case keyed hc   => exact ((ht _).create hc <| hl.congr (by rfl) (by rfl)).congr hl (fun _ => rfl) (other hn)
    case decideApproval => exact (h.decide hc hl).congr hl (fun _ => rfl) (other hn)
    case expireApprovalsOnce =>
      obtain ⟨claims, db₁, hcl, hr⟩ := runs_bind_ok.mp hr
      obtain ⟨_, hcl, _, selected, rfl, hm⟩ := @claimExpiredApprovals_alone (fun _ _ _ => True) now _ _ _ _ hcl hk
      cases hcl
      obtain ⟨_, _, hr, _, rfl⟩ := runs_bind_ok.mp hr
      have hr := @runs_exact (fun _ _ _ => True) now _ _ _ _ _ hr
      have ⟨_, _, _, ha⟩ := rejectClaims_runs hr
      have ⟨h₁, hv⟩ := h.mark hm
      exact (h₁.rejectAll ha hv).congr hl (fun _ => rfl) (other hn)
    case claimDispatches =>
      cases hc
      case mk hx => exact h.congr hl (fun e => hx.unchanged (·.file e) fun _ _ _ _ hx => by cases hx <;> rfl) (other hn)
    case markDispatchSucceeded => exact h.congr hl (fun _ => by cases hc <;> rfl) (other hn)
    case markDispatchFailed    => exact h.congr hl (fun _ => by cases hc <;> rfl) (other hn)

theorem Serial.onFile (h : Serial g) : OnFile g ∧ g.db.Constraints := by
  induction h
  case initial =>
    refine ⟨⟨.empty, fun e => .absent ?_⟩, .empty⟩
    rintro ⟨_, hm | hm, _⟩ <;> cases hm
  case tick ih => exact ih
  case call g g' pid c r _ hd ih =>
    refine ⟨ih.left.call ih.right.foreignKeys hd, ?_⟩
    cases hd
    case commit hr => exact ih.right.alone hr
    case throw     => exact ih.right
    case fault     => exact ih.right

end

-- The audit accounts for an execution and its approvals, of which it has one at most.
structure File.Accounted (file : File) (movedOut : Prop) : Prop where
  checked : ∃ status later, file.statuses = status :: later ∧
            file.findings.filter (·.fst = "EXECUTION_POLICY_CHECK") = [checkFinding status]
  decided : ∀ decision : ApprovalDecisionStatus,
            file.findings.count (decisionFinding decision) = file.verdicts.count decision.toStatus
  expired : ¬movedOut → file.findings.count expiryFinding = file.verdicts.count .expired
  -- What happens to the approval later is not audited, and is not a decision.
  movedOut : movedOut → file.findings.length = 1
  actions : ∀ finding ∈ file.findings, finding.fst = "EXECUTION_POLICY_CHECK" ∨
            finding.fst = "EXECUTION_APPROVAL_DECISION" ∨ finding = expiryFinding
  single  : file.verdicts.length ≤ 1

theorem Kept.accounted {skipped : Prop} {file : File} (h : Kept skipped False file) (hn : file.statuses ≠ []) :
    file.Accounted (file.statuses.head? = some .approval ∧ skipped) := by
  cases h
  case absent => exact absurd rfl hn
  case lapsed hf => exact hf.elim
  case unasked status later =>
    constructor
    case checked  => exact ⟨_, _, rfl, rfl⟩
    case decided  => intro decision; cases status <;> cases decision <;> rfl
    case expired  => intro _; cases status <;> rfl
    case movedOut => exact fun _ => rfl
    case actions  => simp [checkFinding]
    case single   => simp
  case waiting hk =>
    constructor
    case checked  => exact ⟨_, _, rfl, rfl⟩
    case decided  => intro decision; cases decision <;> rfl
    case expired  => intro _; rfl
    case movedOut => exact fun h => absurd h.right hk
    case actions  => simp [checkFinding]
    case single   => simp
  case decided decision _ _ hk =>
    constructor
    case checked  => exact ⟨_, _, rfl, by cases decision <;> rfl⟩
    case decided  => intro decision'; cases decision <;> cases decision' <;> rfl
    case expired  => intro _; cases decision <;> rfl
    case movedOut => exact fun h => absurd h.right hk
    case actions  => simp [checkFinding, decisionFinding]
    case single   => simp
  case expired hk =>
    constructor
    case checked  => exact ⟨_, _, rfl, rfl⟩
    case decided  => intro decision; cases decision <;> rfl
    case expired  => intro _; rfl
    case movedOut => exact fun h => absurd h.right hk
    case actions  => simp [checkFinding, expiryFinding]
    case single   => simp
  case left hk hv =>
    constructor
    case checked  => exact ⟨_, _, rfl, rfl⟩
    case decided  => intro decision; obtain rfl | rfl := hv <;> cases decision <;> rfl
    case expired  => exact fun h => absurd ⟨rfl, hk⟩ h
    case movedOut => exact fun _ => rfl
    case actions  => simp [checkFinding]
    case single   => simp

-- Runs a transaction in which all statements get the same of the environment.
def Tx.execute (amb : Ambient) (now : Time) : Tx α → Db → Option (α × Db)
  | .pure a,  db => some (a, db)
  | .throw _, _  => none
  | .op o k,  db =>
    match o.reply now amb db with
    | .error _ => none
    | .ok r    => if o.skips r = [] then execute amb now (k r) (o.effect r db) else none

theorem Tx.execute_runs {p : Tx α} (h : p.execute amb now db = some (a, db')) :
    p.Runs (engine.alone (fun _ _ => True) now) db (.ok a) db' := by
  induction p generalizing db
  case pure  => cases h; exact ⟨rfl, rfl⟩
  case throw => cases h
  case op o k ih =>
    rw [execute] at h
    split at h
    case h_1 => cases h
    case h_2 r hr =>
      split at h
      case isFalse => cases h
      case isTrue hs => exact .inl ⟨r, _, ⟨⟨amb, trivial, hr⟩, hs, rfl⟩, ih r h⟩

-- Lets clients call one after the other, each at some time. Calls that throw have no effect.
def serve (calls : List (Time × Call × Ambient)) (g : platform.Global) : platform.Global :=
  calls.foldl (fun g (now, c, amb) =>
    if g.clock ≤ now then
      match c.body.execute amb now g.db with
      | some (r, db') => c.commitTo 0 r now db' { g with clock := now }
      | none          => g
    else g) g

theorem Serial.serve {g : platform.Global} {calls : List (Time × Call × Ambient)} (h : Serial g) :
    Serial (serve calls g) := by
  induction calls generalizing g
  case nil => exact h
  case cons call calls ih =>
    obtain ⟨now, c, amb⟩ := call
    apply ih
    dsimp only
    split
    case isFalse => exact h
    case isTrue hn =>
      split
      case h_2 => exact h
      case h_1 r db' hx => exact (h.tick hn).call (.commit trivial (Int.le_refl now) (Tx.execute_runs hx))

-- After any sequence of calls, the audit tells how each execution was checked, and which of its approvals were granted,
-- rejected or expired, unless the execution has been moved out of `APPROVAL` by others before that.
theorem audits_are_complete {g : platform.Global} (h : Serial g) (hf : g.db.executions.find e = some row) :
    (g.db.file e).Accounted (MovedOut g.db g.log e) := by
  have ⟨hl, hk⟩ := h.onFile.left
  exact (hk e).accounted (hl.accounts hf).lifecycle.ne_nil

namespace Sample

def idle : platform.Global :=
  (System.initial Db.empty Queue.empty 0 : platform.State).toGlobal

theorem idle_serial : Serial idle :=
  .initial

-- An execution fails while it waits for its approval, which expires a day later.
def abandoned : platform.Global :=
  serve [
    (0, .start (request true) "h" ⟨none⟩, ambient 0 "a"),
    (1, .fail "e" "operator" "stop", ambient 1 "b"),
    (86400000, .expireApprovalsOnce 50, ambient 86400000 "c")
  ] idle

theorem abandoned_serial : Serial abandoned :=
  idle_serial.serve

end Sample

theorem audits_are_complete_abandoned : (Sample.abandoned.db.file "e").Accounted
    (MovedOut Sample.abandoned.db Sample.abandoned.log "e") :=
  have h : (Sample.abandoned.db.executions.find "e").isSome := by decide +kernel
  have ⟨_, hf⟩ := Option.isSome_iff_exists.mp h
  audits_are_complete Sample.abandoned_serial hf

-- The approval has expired, which is not audited.
theorem audits_can_lack_expiries : ∃ g, Serial g ∧
    (g.db.approvalsOf "e").map (·.status) = [.expired] ∧
    (g.db.auditOf "e").map (·.action) = ["EXECUTION_POLICY_CHECK"] :=
  ⟨Sample.abandoned, Sample.abandoned_serial, by decide +kernel, by decide +kernel⟩

end Logon
