import Logon.Detail
import Logon.Later

-- What the API shows never goes back, and a decision that it has confirmed is shown from then on.

namespace Logon

open System Program PostgresExecutionService

variable {host : Host} {G : Guard} {s s' : platform.State}

namespace ControlPlane

-- What the queries of `getExecution` return.
structure ExecutionDetail where
  execution   : ExecutionRow
  events      : List EventRow
  approvals   : List ApprovalRow
  evidence    : List EvidenceRow
  audit       : List AuditRow
  dispatch    : List DispatchRow
  permissions : List ToolPermissionRow

def ExecutionDetail.json (d : ExecutionDetail) : Json :=
  .object [
    ("execution", executionJson d.execution),
    ("events", .array (d.events.map eventJson)),
    ("approvals", .array (d.approvals.map approvalJson)),
    ("evidence", .array (d.evidence.map evidenceJson)),
    ("audit", .array (d.audit.map auditJson)),
    ("permissions", .array (d.permissions.map permissionJson)),
    ("dispatch", match d.dispatch with
      | []       => .null
      | row :: _ => dispatchJson row)
  ]

-- What details that are read later have in common with earlier ones.
structure ExecutionDetail.Later (d d' : ExecutionDetail) : Prop where
  execution : d.execution.Later d'.execution
  status    : d.execution.status ∈ d'.events.map (·.status)
  events    : d.events <+: d'.events
  approvals : List.Forall₂ ApprovalRow.Later d.approvals d'.approvals
  audit     : d.audit ⊆ d'.audit
  dispatch  : ∀ row ∈ d.dispatch, ∃ row' ∈ d'.dispatch, row.Later row'

-- What details show of a decision
structure ExecutionDetail.Shows (d : ExecutionDetail) (decision : ApprovalDecision) : Prop where
  approval : ∃ row, d.approvals = [row] ∧ row.approvalId = decision.approvalId ∧ decision.Heads row
  event    : ∃ n t, .of (decisionEvent decision n) t ∈ d.events
  finding  : ∃ row ∈ d.audit, row.plain = decision.finding
  dispatch : decision.status = .approved → d.dispatch ≠ []

-- What an operation of the API may be told while the platform goes on. A call of the service that commits is entered
-- into the log meanwhile.
inductive Told (s s' : Site) : (o : WebOp) → o.Reply → Prop
  | dateNow {t} : Told s s' .dateNow t
  | rows {q : Query} (order : RowOrder) : Told s s' (.query q) (.ok (q.rows order s'.db))
  | outage {q : Query} (text : String) : Told s s' (.query q) (.error text)
  | commit {c : Call} {pid r now l} :
    s'.state.log = s.state.log ++ l → ⟨pid, c, r, now⟩ ∈ l → Told s s' (.service (.inl c)) (.ok r)
  | refusal {c : Call} {error} : Told s s' (.service (.inl c)) (.error error)

-- The meaning of requests, while the platform goes on.
def online (G : Guard) : Semantics web Site WebError where
  step o s r s' := Steps G s.state s'.state ∧ Told s s' o r
  fails _ _ _   := False

-- What a query finds somewhere between two states.
def Seen (G : Guard) (s s' : Site) (q : Query) (rows : List q.Row) : Prop :=
  ∃ (s₁ : Site) (order : RowOrder), Steps G s.state s₁.state ∧ Steps G s₁.state s'.state ∧ rows = q.rows order s₁.db

-- The execution is read first, and the rest in any order.
structure Read (G : Guard) (t e : String) (s s' : Site) (d : ExecutionDetail) : Prop where
  execution   : s.state.db.executions.find e = some d.execution
  tenant      : d.execution.tenantId = t
  events      : Seen G s s' (.selectEvents e) d.events
  approvals   : Seen G s s' (.selectApprovals e t) d.approvals
  evidence    : Seen G s s' (.selectEvidence e t) d.evidence
  audit       : Seen G s s' (.selectAudit e t) d.audit
  dispatch    : Seen G s s' (.selectDispatch e) d.dispatch
  permissions : Seen G s s' (.selectPermissions t d.execution.agentId) d.permissions

section
variable {s s' s₁ s₂ s₃ : Site} {q : Query}

theorem pool_online {res : Except WebError (List q.Row)} (h : (pool q).Runs (online G) s res s') :
    (∃ text, res = .error (.other text)) ∨
      ∃ order : RowOrder, Steps G s.state s'.state ∧ res = .ok (q.rows order s'.db) := by
  obtain ⟨r, s₁, ⟨hs, ht⟩, hr⟩ | ⟨_, hf, _⟩ := h
  case inr => exact hf.elim
  case inl =>
    cases ht
    case rows order  =>
      obtain ⟨rfl, rfl⟩ := hr
      exact .inr ⟨order, hs, rfl⟩
    case outage text => exact .inl ⟨text, hr.left⟩

theorem query_online {f : List q.Row → Web α} {res : Except WebError α} (h : ((pool q).bind f).Runs (online G) s res s') :
    (∃ text, res = .error (.other text)) ∨
      ∃ (s₁ : Site) (order : RowOrder), Steps G s.state s₁.state ∧ (f (q.rows order s₁.db)).Runs (online G) s₁ res s' := by
  obtain ⟨rows, s₁, hp, h⟩ | ⟨e, rfl, hp⟩ := runs_bind h
  case inl =>
    obtain ⟨_, ho⟩ | ⟨order, hs, hr⟩ := pool_online hp
    · cases ho
    · cases hr
      exact .inr ⟨s₁, order, hs, h⟩
  case inr =>
    obtain ⟨text, ho⟩ | ⟨_, _, hr⟩ := pool_online hp
    · cases ho
      exact .inl ⟨text, rfl⟩
    · cases hr

theorem getExecution_online {res : Except WebError Json} (h : (getExecution t e).Runs (online G) s res s') :
    (∃ text, res = .error (.other text)) ∨ ∃ s₁ : Site, Steps G s.state s₁.state ∧
      (¬s₁.state.db.Owns t e ∧ res = .error (.http 404 "Execution not found") ∨ ∃ d, Read G t e s₁ s' d ∧ res = .ok d.json) := by
  obtain h | ⟨s₁, order, hs, h⟩ := query_online h
  · exact .inl h
  split at h
  case h_1 hx =>
    obtain ⟨rfl, rfl⟩ := h
    refine .inr ⟨s', hs, .inl ⟨?_, rfl⟩⟩
    rintro ⟨row, hf, ht⟩
    have hf : s'.db.executions.find e = some row := hf
    simp [Query.rows, hf, ht] at hx
  case h_2 execution rest hx =>
    have hm : execution ∈ (Query.selectExecution e t).rows order s₁.db := hx ▸ List.mem_cons_self
    obtain ⟨hf, ht⟩ := Option.filter_eq_some_iff.mp <| Option.mem_toList.mp hm
    obtain h | ⟨s₂, o₂, h₂, h⟩ := query_online h
    · exact .inl h
    obtain h | ⟨s₃, o₃, h₃, h⟩ := query_online h
    · exact .inl h
    obtain h | ⟨s₄, o₄, h₄, h⟩ := query_online h
    · exact .inl h
    obtain h | ⟨s₅, o₅, h₅, h⟩ := query_online h
    · exact .inl h
    obtain h | ⟨s₆, o₆, h₆, h⟩ := query_online h
    · exact .inl h
    obtain h | ⟨s₇, o₇, h₇, h⟩ := query_online h
    · exact .inl h
    obtain ⟨rfl, rfl⟩ := h
    let d : ExecutionDetail := {
      execution   := execution
      events      := (Query.selectEvents e).rows o₂ s₂.db
      approvals   := (Query.selectApprovals e t).rows o₃ s₃.db
      evidence    := (Query.selectEvidence e t).rows o₄ s₄.db
      audit       := (Query.selectAudit e t).rows o₅ s₅.db
      dispatch    := (Query.selectDispatch e).rows o₆ s₆.db
      permissions := (Query.selectPermissions t execution.agentId).rows o₇ s'.db
    }
    have to₃ := h₂.trans h₃
    have to₄ := to₃.trans h₄
    have to₅ := to₄.trans h₅
    have to₆ := to₅.trans h₆
    have from₅ := h₆.trans h₇
    have from₄ := h₅.trans from₅
    have from₃ := h₄.trans from₄
    have from₂ := h₃.trans from₃
    refine .inr ⟨s₁, hs, .inr ⟨d, {
      execution   := hf
      tenant      := of_decide_eq_true ht
      events      := ⟨s₂, o₂, h₂, from₂, rfl⟩
      approvals   := ⟨s₃, o₃, to₃, from₃, rfl⟩
      evidence    := ⟨s₄, o₄, to₄, from₄, rfl⟩
      audit       := ⟨s₅, o₅, to₅, from₅, rfl⟩
      dispatch    := ⟨s₆, o₆, to₆, h₇, rfl⟩
      permissions := ⟨s', o₇, to₆.trans h₇, .refl, rfl⟩
    }, ?_⟩⟩
    simp only [ExecutionDetail.json, d]
    cases (Query.selectDispatch e).rows o₆ s₆.db <;> rfl

end

section
variable {s s' : Site} {order : RowOrder}

theorem selectEvents_rows (h : Reachable G s.state) (ho : s.state.db.Owns t e) :
    (Query.selectEvents e).rows order s.db = s.state.db.eventsOf e := by
  have ⟨row, hf, _⟩ := ho
  exact (h.ledger.accounts hf).insertionSort_eventsOf

theorem RowOrder.newestFirst_of_length {α : Type} {time : α → Time} {key : α → String} {l : List α} (h : l.length ≤ 1) :
    order.newestFirst q time key l = l := by
  match l, h with
  | [],  _ => rfl
  | [a], _ => rfl

theorem owner_unique (ho : s.state.db.Owns t e) (ho' : s.state.db.Owns t' e) : t' = t := by
  have ⟨row, hf, ht⟩ := ho
  have ⟨row', hf', ht'⟩ := ho'
  cases hf.symm.trans hf'
  exact ht'.symm.trans ht

theorem selectApprovals_rows (h : Reachable (Guard.clients host) s.state) (ho : s.state.db.Owns t e) :
    (Query.selectApprovals e t).rows order s.db = s.state.db.approvalsOf e := by
  have hf : s.db.approvals.rows.filter (fun row => row.executionId = e ∧ row.tenantId = t) = s.state.db.approvalsOf e := by
    apply List.filter_congr
    intro row hm
    have hw := h.foreignKeys.approvals row hm
    simp only [decide_eq_decide, and_iff_left_iff_imp]
    rintro rfl
    exact owner_unique ho hw
  simp only [Query.rows]
  rw [hf]
  exact RowOrder.newestFirst_of_length <| h.approvalsOf_length e

theorem mem_selectAudit (h : Reachable (Guard.clients host) s.state) (ho : s.state.db.Owns t e) :
    row ∈ (Query.selectAudit e t).rows order s.db ↔ row ∈ s.state.db.auditOf e := by
  have hf : s.db.audit.rows.filter (fun row => row.executionId = e ∧ row.tenantId = t) = s.state.db.auditOf e := by
    apply List.filter_congr
    intro row hm
    have hw := h.booked.attributed row hm
    simp only [decide_eq_decide, and_iff_left_iff_imp]
    rintro rfl
    exact owner_unique ho hw
  have hp := List.perm_insertionSort (order.Newer (.selectAudit e t) (·.createdAt) (·.auditId)) (s.state.db.auditOf e)
  simp only [Query.rows, RowOrder.newestFirst]
  rw [hf, List.take_of_length_le]
  · exact hp.mem_iff
  · rw [hp.length_eq]
    exact (h.auditOf_length e).trans (by decide)

-- There is no other row than the one that comes later.
theorem approvalsOf_later {db db' : Db} (hl : db.Later db') (hn : (db.approvalsOf e).length ≤ 1)
    (he : (db'.approvalsOf e).length = (db.approvalsOf e).length) :
    List.Forall₂ ApprovalRow.Later (db.approvalsOf e) (db'.approvalsOf e) := by
  cases hr : db.approvalsOf e
  case nil =>
    rw [hr] at he
    rw [List.eq_nil_of_length_eq_zero he]
    exact .nil
  case cons row rows =>
    rw [hr, List.length_cons] at hn he
    obtain rfl : rows = [] := List.eq_nil_of_length_eq_zero (by omega)
    have ⟨hm, hx⟩ := List.mem_filter.mp <| hr ▸ List.mem_cons_self (a := row)
    have ⟨row', hf', hl'⟩ := hl.approvals _ _ <| Table.find_of_mem hm
    have hx' : row'.executionId = e := by
      cases hl' <;> exact of_decide_eq_true hx
    have hm' : row' ∈ db'.approvalsOf e := List.mem_filter.mpr ⟨Table.mem_of_find hf', decide_eq_true hx'⟩
    obtain ⟨_, ha⟩ := List.length_eq_one_iff.mp he
    rw [ha] at hm' ⊢
    cases List.mem_singleton.mp hm'
    exact .cons hl' .nil

theorem owns_later (h : Reachable G s.state) (hs : Steps G s.state s'.state) (ho : s.state.db.Owns t e) :
    s'.state.db.Owns t e :=
  ho.mono (h.atomicSteps hs G.meets_none).grows

-- Two states in which a query is answered, one after the other.
structure Twice (G : Guard) (t e : String) (q : Query) (rows rows' : List q.Row) (a b : Site) : Prop where
  reachable : Reachable G a.state
  steps     : Steps G a.state b.state
  owns      : a.state.db.Owns t e
  first     : ∃ order, rows = q.rows order a.db
  second    : ∃ order, rows' = q.rows order b.db

theorem Seen.twice {s s₁ s₂ s₃ : Site} {q : Query} {rows rows' : List q.Row} (h : Reachable G s.state)
    (ho : s.state.db.Owns t e) (hq : Seen G s s₁ q rows) (hs : Steps G s₁.state s₂.state) (hq' : Seen G s₂ s₃ q rows') :
    ∃ a b, Twice G t e q rows rows' a b := by
  have ⟨a, order, ha, ha', hr⟩ := hq
  have ⟨b, order', hb, _, hr'⟩ := hq'
  exact ⟨a, b, h.trans ha, ha'.trans <| hs.trans hb, owns_later h ha ho, ⟨order, hr⟩, ⟨order', hr'⟩⟩

theorem Twice.owns' {q : Query} {rows rows' : List q.Row} {a b : Site} (h : Twice G t e q rows rows' a b) :
    b.state.db.Owns t e :=
  owns_later h.reachable h.steps h.owns

theorem Twice.later {q : Query} {rows rows' : List q.Row} {a b : Site} (h : Twice G t e q rows rows' a b) :
    a.state.db.Later b.state.db :=
  h.reachable.later h.steps

theorem Read.later {s s₁ s₂ s₃ : Site} {d d' : ExecutionDetail} (h : Reachable (Guard.clients host) s.state)
    (hr : Read (Guard.clients host) t e s s₁ d) (hs : Steps (Guard.clients host) s₁.state s₂.state)
    (hr' : Read (Guard.clients host) t e s₂ s₃ d') : d.Later d' := by
  have ho : s.state.db.Owns t e := ⟨_, hr.execution, hr.tenant⟩
  have ⟨_, _, hss, hs₁, _⟩ := hr.events
  have hs₂ : Steps (Guard.clients host) s.state s₂.state := hss.trans <| hs₁.trans hs
  constructor
  case execution =>
    have ⟨row, hf, hl⟩ := (h.later hs₂).executions _ _ hr.execution
    cases hf.symm.trans hr'.execution
    exact hl
  case status =>
    have ⟨b, order, hb, _, hv⟩ := hr'.events
    have hsb := hs₂.trans hb
    rw [hv, selectEvents_rows (h.trans hsb) (owns_later h hsb ho)]
    have hm : d.execution.status ∈ s.state.db.statuses e :=
      List.mem_of_getLast? (h.ledger.accounts hr.execution).current
    exact List.map_subset _ ((h.later hsb).events e).subset hm
  case events =>
    have ⟨a, b, w⟩ := hr.events.twice h ho hs hr'.events
    have ⟨_, hv⟩ := w.first
    have ⟨_, hv'⟩ := w.second
    rw [hv, hv', selectEvents_rows w.reachable w.owns, selectEvents_rows (w.reachable.trans w.steps) w.owns']
    exact w.later.events e
  case approvals =>
    have ⟨a, b, w⟩ := hr.approvals.twice h ho hs hr'.approvals
    have ⟨_, hv⟩ := w.first
    have ⟨_, hv'⟩ := w.second
    rw [hv, hv', selectApprovals_rows w.reachable w.owns, selectApprovals_rows (w.reachable.trans w.steps) w.owns']
    exact approvalsOf_later w.later (w.reachable.approvalsOf_length e) <| w.reachable.approvalsOf_later w.steps w.owns
  case audit =>
    have ⟨a, b, w⟩ := hr.audit.twice h ho hs hr'.audit
    have ⟨_, hv⟩ := w.first
    have ⟨_, hv'⟩ := w.second
    intro row hm
    rw [hv, mem_selectAudit w.reachable w.owns] at hm
    rw [hv', mem_selectAudit (w.reachable.trans w.steps) w.owns']
    exact (w.later.audit.filter _).subset hm
  case dispatch =>
    have ⟨a, b, w⟩ := hr.dispatch.twice h ho hs hr'.dispatch
    have ⟨_, hv⟩ := w.first
    have ⟨_, hv'⟩ := w.second
    intro row hm
    rw [hv] at hm
    have ⟨row', hf, hl⟩ := w.later.dispatches _ _ <| Option.mem_toList.mp hm
    exact ⟨row', hv' ▸ Option.mem_toList.mpr hf, hl⟩

-- A decision that the service has confirmed is on the log.
theorem serve_online {s s' : Site} {decision decided : ApprovalDecision}
    (h : (serve (Process.decideApproval decision)).Runs (online G) s (.ok decided) s') :
    Steps G s.state s'.state ∧ ∃ (pid : Pid) (now : Time),
      (⟨pid, .decideApproval decision, ⟨some decided, none⟩, now⟩ : platform.Commit) ∈ s'.state.log := by
  obtain ⟨r, s₁, ⟨hs, ht⟩, h⟩ | ⟨_, hf, _⟩ := h
  case inr => exact hf.elim
  case inl =>
    cases ht
    case refusal => cases h.left
    case commit pid now l hl outcome hm =>
      obtain ⟨result, error⟩ := outcome
      cases error
      case some => cases h.left
      case none =>
        cases result
        case none => cases h.left
        case some result =>
          obtain ⟨hr, rfl⟩ := h
          cases hr
          exact ⟨hs, pid, now, hl ▸ List.mem_append_right _ hm⟩

-- What is in the database when the execution is read is there when the rest is read.
theorem Seen.exists_later {s s' : Site} {q : Query} {rows : List q.Row} (h : Reachable G s.state) (ho : s.state.db.Owns t e)
    (hq : Seen G s s' q rows) : ∃ (a : Site) (order : RowOrder), Reachable G a.state ∧ a.state.db.Owns t e ∧
      s.state.db.Later a.state.db ∧ rows = q.rows order a.db := by
  have ⟨a, order, ha, _, hr⟩ := hq
  exact ⟨a, order, h.trans ha, owns_later h ha ho, h.later ha, hr⟩

theorem Read.shows {s s' : Site} {d : ExecutionDetail} {decision : ApprovalDecision}
    (h : Reachable (Guard.clients host) s.state) (hr : Read (Guard.clients host) t decision.executionId s s' d)
    (hh : Heeded decision s.state.db) : d.Shows decision := by
  have ho : s.state.db.Owns t decision.executionId := ⟨_, hr.execution, hr.tenant⟩
  constructor
  case approval =>
    have ⟨a, _, ha, ho, hl, hv⟩ := hr.approvals.exists_later h ho
    have ⟨row, hf, he, hd⟩ := (hh.later hl).approval
    have hm : row ∈ a.state.db.approvalsOf decision.executionId :=
      List.mem_filter.mpr ⟨Table.mem_of_find hf, decide_eq_true he⟩
    rw [hv, selectApprovals_rows ha ho]
    obtain ⟨row', hr'⟩ := List.length_eq_one_iff.mp <|
      Nat.le_antisymm (ha.approvalsOf_length _) (List.length_pos_of_mem hm)
    rw [hr'] at hm ⊢
    cases List.mem_singleton.mp hm
    exact ⟨row, rfl, Table.key_of_find hf, hd⟩
  case event =>
    have ⟨a, _, ha, ho, hl, hv⟩ := hr.events.exists_later h ho
    rw [hv, selectEvents_rows ha ho]
    exact (hh.later hl).event
  case finding =>
    have ⟨a, _, ha, ho, hl, hv⟩ := hr.audit.exists_later h ho
    have ⟨row, hm, hp⟩ := (hh.later hl).finding
    exact ⟨row, hv ▸ (mem_selectAudit ha ho).mpr hm, hp⟩
  case dispatch =>
    have ⟨a, _, ha, ho, hl, hv⟩ := hr.dispatch.exists_later h ho
    intro hs
    obtain ⟨row, hf⟩ := Option.isSome_iff_exists.mp <| (hh.later hl).dispatch hs
    have hf : a.db.dispatches.find decision.executionId = some row := hf
    simp [hv, Query.rows, hf]

end

-- What somebody has asked for who decides about an approval
structure Asks (principal : ControlPlanePrincipal) (e : String) (body : List (String × Json)) (decision : ApprovalDecision) :
    Prop where
  approvalId  : stringMember body "approvalId" = some decision.approvalId
  executionId : decision.executionId = e
  status      : decisionStatus body = some decision.status
  decidedBy   : decision.decidedBy = principal.subjectId

-- An approval that is found is about an execution of the tenant.
theorem owns_of_selectOwnership {s : Site} (h : Reachable G s.state)
    (hl : ((Query.selectOwnership a e t).rows order s.db).length = 1) : s.state.db.Owns t e := by
  simp only [Query.rows, List.length_map] at hl
  obtain ⟨row, hm⟩ := List.exists_mem_of_length_pos (hl ▸ Nat.one_pos)
  obtain ⟨hf, hc⟩ := Option.filter_eq_some_iff.mp <| Option.mem_toList.mp hm
  obtain ⟨rfl, rfl⟩ := of_decide_eq_true hc
  exact h.foreignKeys.approvals row <| Table.mem_of_find hf

theorem decideApproval_online {s s' : Site} {principal : ControlPlanePrincipal} {body : List (String × Json)} (h : Reachable G s.state)
    (hr : (decideApproval principal e body).Runs (online G) s (.ok json) s') :
    ∃ decision, Asks principal e body decision ∧ json = decisionJson decision ∧ Steps G s.state s'.state ∧
      s'.state.db.Owns principal.tenantId e ∧ Heeded decision s'.state.db := by
  obtain ⟨_, _, hu, hb⟩ := runs_bind_ok.mp hr
  obtain ⟨-, rfl⟩ := runs_ofExcept.mp hu
  dsimp only at hb
  cases hst : decisionStatus body
  case none =>
    rw [hst] at hb
    cases hb.left
  case some status =>
    rw [hst] at hb
    dsimp only at hb
    by_cases hn : (stringMember body "approvalId").getD "" = ""
    case pos =>
      rw [if_pos hn] at hb
      cases hb.left
    case neg =>
      rw [if_neg hn] at hb
      obtain ⟨rows, s₁, hp, hc⟩ := runs_bind_ok.mp hb
      by_cases hl : rows.length ≠ 1
      case pos =>
        rw [if_pos hl] at hc
        cases hc.left
      case neg =>
        rw [if_neg hl] at hc
        obtain ⟨now, s₂, ht, hd⟩ := runs_bind_ok.mp hc
        obtain ⟨h₂, -⟩ := runs_perform_ok.mp ht
        obtain ⟨_, hj, hd⟩ | ⟨error, s₃, _, hd⟩ | ⟨_, hj, _⟩ := hd.tryCatch_cases
        case inr.inr => cases hj
        case inr.inl => split at hd <;> cases hd.left
        case inl =>
          cases hj
          obtain ⟨decided, s₃, hv, hj, rfl⟩ := runs_bind_ok.mp hd
          cases hj
          obtain ⟨_, ho⟩ | ⟨order, h₁, hr⟩ := pool_online hp
          case inl => cases ho
          cases hr
          obtain ⟨h₃, pid, started, hm⟩ := serve_online hv
          have ho := owns_of_selectOwnership (h.trans h₁) (by simpa using hl)
          have hs := h₁.trans <| h₂.trans h₃
          obtain ⟨rfl, hh⟩ := (h.trans hs).heeded hm
          refine ⟨_, ⟨?_, rfl, hst, rfl⟩, rfl, hs, owns_later (h.trans h₁) (h₂.trans h₃) ho, hh⟩
          cases ha : stringMember body "approvalId"
          case none => simp [ha] at hn
          case some => rfl

theorem pool_runs {s : Site} {q : Query} (order : RowOrder) :
    (pool q).Runs (online G) s (.ok (q.rows order s.db)) s :=
  runs_bind_ok.mpr ⟨_, s, runs_perform_ok.mpr ⟨.refl, .rows order⟩, rfl, rfl⟩

-- All queries are answered at once.
theorem getExecution_runs {s : Site} (order : RowOrder) (hf : s.state.db.executions.find e = some row) (ht : row.tenantId = t) :
    ∃ json, (getExecution t e).Runs (online G) s (.ok json) s ∧ shownStatus json = some (.string row.status.text) := by
  have hr : (Query.selectExecution e t).rows order s.db = [row] := by
    have hf : s.db.executions.find e = some row := hf
    simp [Query.rows, hf, ht]
  have hp := hr ▸ pool_runs (G := G) (q := .selectExecution e t) order
  apply Exists.intro
  constructor
  case left =>
    exact hp.bind <| (pool_runs order).bind <| (pool_runs order).bind <| (pool_runs order).bind <| (pool_runs order).bind <|
      (pool_runs order).bind <| (pool_runs order).bind ⟨rfl, rfl⟩
  case right => rfl

-- Whoever has got the details of an execution gets the same ones or later ones from then on, unless the database is out
-- of reach.
theorem details_never_go_back {s s₁ s₂ s₃ : Site} {res : Except WebError Json} (h : Reachable (Guard.clients host) s.state)
    (hr : (getExecution t e).Runs (online (Guard.clients host)) s (.ok json) s₁)
    (hs : Steps (Guard.clients host) s₁.state s₂.state)
    (hr' : (getExecution t e).Runs (online (Guard.clients host)) s₂ res s₃) :
    ∃ d : ExecutionDetail, json = d.json ∧
      ((∃ text, res = .error (.other text)) ∨ ∃ d' : ExecutionDetail, res = .ok d'.json ∧ d.Later d') := by
  obtain ⟨_, hd⟩ | ⟨a, ha, ⟨_, hd⟩ | ⟨d, hd, hj⟩⟩ := getExecution_online hr
  case inl     => cases hd
  case inr.inl => cases hd
  cases hj
  refine ⟨d, rfl, ?_⟩
  have h₁ := h.trans ha
  have ho : a.state.db.Owns t e := ⟨_, hd.execution, hd.tenant⟩
  have ⟨_, _, hb, hb', _⟩ := hd.events
  obtain ht | ⟨c, hc, ⟨hn, _⟩ | ⟨d', hd', hj⟩⟩ := getExecution_online hr'
  · exact .inl ht
  · exact absurd (owns_later h₁ (hb.trans <| hb'.trans <| hs.trans hc) ho) hn
  · exact .inr ⟨d', hj, hd.later h₁ (hs.trans hc) hd'⟩

-- Whoever has been told that a decision is made finds it in the details of the execution from then on.
theorem confirmed_decisions_show {s s₁ s₂ s₃ : Site} {principal : ControlPlanePrincipal} {body : List (String × Json)}
    {res : Except WebError Json} (h : Reachable (Guard.clients host) s.state)
    (hr : (decideApproval principal e body).Runs (online (Guard.clients host)) s (.ok json) s₁)
    (hs : Steps (Guard.clients host) s₁.state s₂.state)
    (hr' : (getExecution principal.tenantId e).Runs (online (Guard.clients host)) s₂ res s₃) :
    ∃ decision, Asks principal e body decision ∧ json = decisionJson decision ∧
      ((∃ text, res = .error (.other text)) ∨ ∃ d : ExecutionDetail, res = .ok d.json ∧ d.Shows decision) := by
  obtain ⟨decision, ha, hj, h₁, ho, hh⟩ := decideApproval_online h hr
  refine ⟨decision, ha, hj, ?_⟩
  have hr₁ := h.trans h₁
  obtain ht | ⟨c, hc, ⟨hn, _⟩ | ⟨d, hd, hj'⟩⟩ := getExecution_online hr'
  · exact .inl ht
  · exact absurd (owns_later hr₁ (hs.trans hc) ho) hn
  · cases ha.executionId
    exact .inr ⟨d, hj', hd.shows (hr₁.trans <| hs.trans hc) <| hh.later <| hr₁.later (hs.trans hc)⟩

namespace Sample

def boss : ControlPlanePrincipal :=
  ⟨"boss", "t", [.approver], .trustedProxy⟩

def approving : List (String × Json) :=
  [("approvalId", .string "a"), ("status", .string "APPROVED")]

def opening : List platform.Label :=
  Logon.Sample.transact 0 (do return .started (← Process.start Logon.Sample.host (Logon.Sample.request true) ⟨none⟩)) 0 "a" 11

def deciding : List platform.Label :=
  Logon.Sample.transact 1 Logon.Sample.decided 1 "b" 11

-- An execution before and after its approval is decided.
def undecided : Site :=
  ⟨reach Logon.Sample.unchecked opening, .empty, .empty⟩

def settled : Site :=
  ⟨follow Logon.Sample.unchecked deciding undecided.state, .empty, .empty⟩

theorem opening_client {pid : Pid} {code : platform.Code} (h : .spawn pid code ∈ opening) :
    Client Logon.Sample.host code := by
  simp only [opening, Logon.Sample.transact, List.mem_append, List.mem_cons, List.mem_replicate, List.not_mem_nil,
    or_false, reduceCtorEq, and_false] at h
  obtain ⟨-, rfl⟩ := h
  exact .start

theorem deciding_client {pid : Pid} {code : platform.Code} (h : .spawn pid code ∈ deciding) :
    Client Logon.Sample.host code := by
  simp only [deciding, Logon.Sample.transact, List.mem_append, List.mem_cons, List.mem_replicate, List.not_mem_nil,
    or_false, reduceCtorEq, and_false] at h
  obtain ⟨-, rfl⟩ := h
  exact .decideApproval

theorem undecided_reachable : Reachable (Guard.clients Logon.Sample.host) undecided.state :=
  have h : Reachable _ (reach Logon.Sample.unchecked opening) :=
    reach_reachable fun _ hl s _ => Guard.clients_of_spawn (fun _ _ => opening_client) hl s
  h

theorem undecided_steps : Steps (Guard.clients Logon.Sample.host) undecided.state settled.state :=
  have h : Steps _ undecided.state (follow Logon.Sample.unchecked deciding undecided.state) :=
    follow_steps fun _ hl s _ => Guard.clients_of_spawn (fun _ _ => deciding_client) hl s
  h

def byId : RowOrder :=
  ⟨fun _ => inferInstance, inferInstance⟩

theorem decideApproval_settled :
    (decideApproval boss "e" approving).Runs (online (Guard.clients Logon.Sample.host)) undecided
      (.ok (decisionJson Logon.Sample.decision)) settled := by
  refine runs_bind_ok.mpr ⟨(), undecided, ⟨rfl, rfl⟩, ?_⟩
  have hp : (pool (.selectOwnership "a" "e" "t")).Runs (online (Guard.clients Logon.Sample.host)) undecided (.ok ["e"]) undecided :=
    pool_runs byId
  refine runs_bind_ok.mpr ⟨_, undecided, hp, ?_⟩
  refine runs_bind_ok.mpr ⟨1, undecided, runs_perform_ok.mpr ⟨.refl, .dateNow⟩, ?_⟩
  refine Runs.tryCatch_ok <| runs_bind_ok.mpr ⟨Logon.Sample.decision, settled, ?_, rfl, rfl⟩
  have hl : settled.state.log = undecided.state.log ++
      [⟨1, .decideApproval Logon.Sample.decision, ⟨some Logon.Sample.decision, none⟩, 0⟩] := rfl
  exact .inl ⟨_, settled, ⟨undecided_steps, .commit hl <| List.mem_singleton_self _⟩, rfl, rfl⟩

end Sample

open Logon.ControlPlane.Sample in
theorem details_never_go_back_settled : ∃ json json' : Json,
    shownStatus json = some (.string "APPROVAL") ∧ shownStatus json' = some (.string "EXECUTION") ∧
    ∃ d d' : ExecutionDetail, json = d.json ∧ json' = d'.json ∧ d.Later d' := by
  obtain ⟨row, hf, ht, hs⟩ : ∃ row, undecided.state.db.executions.find "e" = some row ∧ row.tenantId = "t" ∧
      row.status = .approval := ⟨_, rfl, rfl, rfl⟩
  obtain ⟨row', hf', ht', hs'⟩ : ∃ row, settled.state.db.executions.find "e" = some row ∧ row.tenantId = "t" ∧
      row.status = .execution := ⟨_, rfl, rfl, rfl⟩
  obtain ⟨json, hr, hj⟩ := getExecution_runs byId hf ht
  obtain ⟨json', hr', hj'⟩ := getExecution_runs byId hf' ht'
  obtain ⟨d, hd, ⟨_, ho⟩ | ⟨d', hd', hl⟩⟩ := details_never_go_back undecided_reachable hr undecided_steps hr'
  · cases ho
  · cases hd'
    rw [hs] at hj
    rw [hs'] at hj'
    exact ⟨json, _, hj, hj', d, d', hd, rfl, hl⟩

open Logon.ControlPlane.Sample in
theorem confirmed_decisions_show_settled : ∃ (decision : ApprovalDecision) (d : ExecutionDetail),
    Asks boss "e" approving decision ∧ shownStatus d.json = some (.string "EXECUTION") ∧ d.Shows decision := by
  obtain ⟨row, hf, ht, hs⟩ : ∃ row, settled.state.db.executions.find "e" = some row ∧ row.tenantId = "t" ∧
      row.status = .execution := ⟨_, rfl, rfl, rfl⟩
  obtain ⟨json, hr, hj⟩ := getExecution_runs byId hf ht
  obtain ⟨decision, ha, _, ⟨_, ho⟩ | ⟨d, hd, hl⟩⟩ :=
    confirmed_decisions_show undecided_reachable decideApproval_settled .refl hr
  · cases ho
  · cases hd
    rw [hs] at hj
    exact ⟨decision, d, ha, hj, hl⟩

end ControlPlane
end Logon
