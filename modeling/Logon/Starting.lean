import Logon.Twins

-- What becomes of a request to start an execution.

namespace Logon

open System Program PgExecutionStore PostgresExecutionService

-- Ids are fresh and can be stored, and clocks show certain times.
structure FreshAt (shows : Time → Prop) (db : Db) (amb : Ambient) : Prop extends Fresh db amb where
  dateNow : shows amb.dateNow
  uuid    : Storable amb.uuid

-- PostgreSQL reads the times that clocks show, and those at which approvals expire that are requested then.
def Readable (shows : Time → Prop) : Prop :=
  ∀ t, shows t → Timestamp.Legible t ∧ Timestamp.Legible (t + DEFAULT_APPROVAL_TTL_MS)

section
variable {shows : Time → Prop} {faulty : Prop} {now : Time} {db db' : Db} {g g' : platform.Global}

end

-- What a new execution begins with: its dispatch, or an approval to wait for, or its rejection.
inductive Outset (shows : Time → Prop) (request : ExecutionRequest) (now : Time) (db db' : Db) : ExecutionStatus → Prop
  | intake :
    blank request.objective = false → request.requiresApproval = false → db'.approvals = db.approvals →
    db'.dispatches.rows = db.dispatches.rows ++ [.of request.identity.executionId "logon.execution" now] →
    Outset shows request now db db' .intake
  | approval {a t c} :
    blank request.objective = false → request.requiresApproval = true → shows t → shows c →
    db'.approvals.rows = db.approvals.rows ++ [{
      approvalId  := a
      executionId := request.identity.executionId
      tenantId    := request.identity.tenantId
      requestedBy := request.identity.actorId
      status      := .pending
      reason      := (evaluateExecutionPolicy request).reason
      decidedBy   := none
      decidedAt   := none
      expiresAt   := some (t + 24 * 60 * 60 * 1000)
      createdAt   := c
    }] →
    db'.dispatches = db.dispatches →
    Outset shows request now db db' .approval
  | rejected :
    blank request.objective = true → db'.approvals = db.approvals → db'.dispatches = db.dispatches →
    Outset shows request now db db' .rejected

-- No row is about an execution.
structure Unmentioned (db : Db) (e : String) : Prop where
  executions  : db.executions.find e = none
  events      : ∀ row ∈ db.events.rows, row.executionId ≠ e
  approvals   : ∀ row ∈ db.approvals.rows, row.executionId ≠ e
  audit       : ∀ row ∈ db.audit.rows, row.executionId ≠ e
  idempotency : ∀ row ∈ db.idempotency.rows, row.executionId ≠ e
  dispatches  : ∀ row ∈ db.dispatches.rows, row.executionId ≠ e

-- The rows of a new execution.
structure Founded (shows : Time → Prop) (request : ExecutionRequest) (now : Time) (db db' : Db) (event : ExecutionEvent) :
    Prop where
  executions : ∃ c, request.createdAt.timestamptz = some c ∧
               db'.executions.rows = db.executions.rows ++ [.of request event.status c]
  events     : ∃ t, event = createdEvent request (.iso t) ∧ db'.events.rows = db.events.rows ++ [.of event t]
  sequence   : event.sequence = 1
  audit      : ∃ auditId createdAt, db'.audit.rows = db.audit.rows ++ [{
                 auditId     := auditId
                 executionId := request.identity.executionId
                 tenantId    := request.identity.tenantId
                 action      := "EXECUTION_POLICY_CHECK"
                 actorId     := request.identity.actorId
                 allowed     := (evaluateExecutionPolicy request).allowed
                 reason      := (evaluateExecutionPolicy request).reason
                 createdAt   := createdAt
               }]
  outset     : Outset shows request now db db' event.status

-- What `start` does if it succeeds, and its key is not in use.
structure StartedAnew (shows : Time → Prop) (request : ExecutionRequest) (digest : String) (options : StartExecutionOptions)
    (now : Time) (db db' : Db) (result : StartExecutionResult) : Prop extends
    Founded shows request now db db' result.event where
  reused      : result.reused = false
  unmentioned : Unmentioned db request.identity.executionId
  tenants     : db'.tenants = if request.identity.tenantId ∈ db.tenants then db.tenants
                else db.tenants ++ [request.identity.tenantId]
  idempotency : db'.idempotency.rows = db.idempotency.rows ++ (options.key.map fun key => {
                  tenantId       := request.identity.tenantId
                  idempotencyKey := key
                  executionId    := request.identity.executionId
                  requestHash    := digest
                  createdAt      := now
                }).toList

section
variable {shows : Time → Prop} {now : Time} {db db' : Db} {request : ExecutionRequest}

theorem Db.ForeignKeys.unmentioned (hk : db.ForeignKeys) (hf : db.executions.find e = none) : Unmentioned db e := by
  have hn {e'} (hx : db.HasExecution e') : e' ≠ e := by
    rintro rfl
    simp [Db.HasExecution, hf] at hx
  exact {
    executions  := hf
    events      := fun row hr => hn <| hk.events row hr
    approvals   := fun row hr => hn (hk.approvals row hr).hasExecution
    audit       := fun row hr => hn (hk.audit row hr).right
    idempotency := fun row hr => hn (hk.idempotency row hr).right
    dispatches  := fun row hr => hn <| hk.dispatches row hr
  }

theorem Unmentioned.find_dispatches (h : Unmentioned db e) : db.dispatches.find e = none := by
  rw [Table.find_eq_none_iff, List.mem_map]
  exact fun ⟨row, hr, he⟩ => h.dispatches row hr he

theorem Unmentioned.find_events (h : Unmentioned db e) : db.events.find (e, n) = none := by
  rw [Table.find_eq_none_iff, List.mem_map]
  exact fun ⟨row, hr, he⟩ => h.events row hr (congrArg Prod.fst he)

theorem evaluateExecutionPolicy_status (request : ExecutionRequest) : (evaluateExecutionPolicy request).status =
    if blank request.objective then .rejected else if request.requiresApproval then .approval else .intake := by
  unfold evaluateExecutionPolicy PolicyDecision.status
  cases blank request.objective <;> rfl

theorem Outset.congr (h : Outset shows request now db db' status) (ha : db₀.approvals = db.approvals)
    (hd : db₀.dispatches = db.dispatches) (ha' : db₁.approvals = db'.approvals) (hd' : db₁.dispatches = db'.dispatches) :
    Outset shows request now db₀ db₁ status := by
  cases h
  case intake hb hr hap hdp          => exact .intake hb hr (by rw [ha', ha, hap]) (by rw [hd', hd, hdp])
  case approval hb hr ht hc hap hdp  => exact .approval hb hr ht hc (by rw [ha', ha, hap]) (by rw [hd', hd, hdp])
  case rejected hb hap hdp           => exact .rejected hb (by rw [ha', ha, hap]) (by rw [hd', hd, hdp])

theorem AwaitOrDispatch.outset
    (h : AwaitOrDispatch (.exact fun _ => FreshAt shows) now request (evaluateExecutionPolicy request) db db')
    (hd : db.dispatches.find request.identity.executionId = none) :
    Outset shows request now db db' (evaluateExecutionPolicy request).status := by
  have clock {t db₁} (hp : Premise.exact (fun _ => FreshAt shows) now .dateNow db₁ t) : shows t := by
    obtain ⟨⟨amb, ha, hr⟩, _⟩ := hp
    cases hr
    exact ha.dateNow
  have hs := evaluateExecutionPolicy_status request
  cases h
  case approval a t c hst ht _ hc hn =>
    rw [hst] at hs ⊢
    refine .approval (a := a) ?_ ?_ (clock ht) (clock hc) (Table.rows_insert_new hn) rfl
    all_goals
      split at hs
      case isTrue => cases hs
      case isFalse => split at hs <;> simp_all
  case collision a _ _ hst hu hx _ =>
    obtain ⟨⟨amb, ha, hr⟩, _⟩ := hu
    cases hr
    simp [ha.approvals] at hx
  case dispatch hst hn =>
    rw [hst] at hs ⊢
    refine .intake ?_ ?_ rfl (Table.rows_insert_new hn)
    all_goals
      split at hs
      case isTrue => cases hs
      case isFalse => split at hs <;> simp_all
  case dispatched hx => simp [hd] at hx
  case rejected hst =>
    rw [hst] at hs ⊢
    refine .rejected ?_ rfl rfl
    split at hs
    case isTrue h => exact h
    case isFalse => split at hs <;> cases hs

theorem Create.founded (h : Create (.exact fun _ => FreshAt shows) now request db event db')
    (hd : db.dispatches.find request.identity.executionId = none) :
    Founded shows request now db db' event ∧ db'.tenants = db.tenants ∧ db'.idempotency = db.idempotency := by
  refine ⟨?_, h.tenants, h.idempotency⟩
  cases h
  case mk c t db₁ _ hf _ hc hn ha hu =>
    cases hu
    case mk u createdAt c' _ _ hu =>
      have ho := ha.outset hd
      constructor
      case executions => exact ⟨c, hc, (congrArg Table.rows ha.executions).trans <| Table.rows_insert_new hf⟩
      case events     => exact ⟨t, rfl, (congrArg Table.rows ha.events).trans <| Table.rows_insert_new hn⟩
      case sequence   => rfl
      case audit      => exact ⟨u, c', (Table.rows_insert_new hu).trans <| by rw [ha.audit]; rfl⟩
      case outset     => exact ho.congr rfl rfl rfl rfl

theorem Start.started {options : StartExecutionOptions} {result : StartExecutionResult}
    (h : Start (.exact fun _ => FreshAt shows) now request digest options db result db') (hk : db.ForeignKeys)
    (hu : ∀ key ∈ options.key, db.idempotency.find (request.identity.tenantId, key) = none) :
    StartedAnew shows request digest options now db db' result := by
  have fresh {event db₁} (hc : Create (.exact fun _ => FreshAt shows) now request (db.withTenant request.identity.tenantId) event db₁) :
      Unmentioned db request.identity.executionId ∧ Founded shows request now db db₁ event ∧
      db₁.tenants = (db.withTenant request.identity.tenantId).tenants ∧ db₁.idempotency = db.idempotency := by
    have hf : db.executions.find request.identity.executionId = none := by
      cases hc
      case mk hf _ _ _ _ _ => exact hf
    have hn := hk.unmentioned hf
    have ⟨hc, ht, hi⟩ := hc.founded (hn.find_dispatches)
    exact ⟨hn, { hc with outset := hc.outset.congr rfl rfl rfl rfl }, ht, hi⟩
  cases h
  case unkeyed event hk hc =>
    have ⟨hn, hc, ht, hi⟩ := fresh hc
    exact { hc with
      reused      := rfl
      unmentioned := hn
      tenants     := ht
      idempotency := by rw [hi, hk]; simp
    }
  case reused key row ev hk hf _ _ _ =>
    rw [hu key hk] at hf
    cases hf
  case keyed key event db₁ hk hf hc =>
    have ⟨hn, hc, ht, hi⟩ := fresh hc
    exact { hc with
      reused      := rfl
      unmentioned := hn
      tenants     := ht
      idempotency := by
        rw [hk]
        refine (Table.rows_insert_new ?_).trans (by rw [hi]; rfl)
        rw [hi]
        exact hf
      outset := hc.outset.congr rfl rfl rfl rfl
    }

end

end Logon
