import Logon.Database.Isolation

-- What PostgreSQL guarantees of the tables.

namespace Logon

namespace Db

-- An execution of a tenant.
def Owns (db : Db) (tenantId executionId : String) : Prop :=
  ∃ row, db.executions.find executionId = some row ∧ row.tenantId = tenantId

def HasExecution (db : Db) (executionId : String) : Prop :=
  (db.executions.find executionId).isSome

-- The rows of a database refer to rows of another one.
structure RefersTo (db db' : Db) : Prop where
  executions  : ∀ row ∈ db.executions.rows, row.tenantId ∈ db'.tenants
  events      : ∀ row ∈ db.events.rows, db'.HasExecution row.executionId
  approvals   : ∀ row ∈ db.approvals.rows, db'.Owns row.tenantId row.executionId
  audit       : ∀ row ∈ db.audit.rows, row.tenantId ∈ db'.tenants ∧ db'.HasExecution row.executionId
  idempotency : ∀ row ∈ db.idempotency.rows, row.tenantId ∈ db'.tenants ∧ db'.HasExecution row.executionId
  dispatches  : ∀ row ∈ db.dispatches.rows, db'.HasExecution row.executionId

-- The constraints of the migrations.
abbrev ForeignKeys (db : Db) : Prop :=
  db.RefersTo db

-- The rows that rows refer to exist, and there are no ids that cannot be stored.
structure Constraints (db : Db) : Prop where
  foreignKeys : db.ForeignKeys
  approvalIds : ∀ row ∈ db.approvals.rows, Storable row.approvalId

variable {db db' : Db}

theorem Owns.mono (hg : db.Grows db') (h : db.Owns t e) : db'.Owns t e := by
  have ⟨row, hf, ht⟩ := h
  have ⟨row', hf', hs⟩ := hg.executions e row hf
  exact ⟨row', hf', hs.tenantId.trans ht⟩

theorem Owns.congr (he : db'.executions = db.executions) (h : db.Owns t e) : db'.Owns t e := by
  rwa [Owns, he]

theorem Owns.hasExecution (h : db.Owns t e) : db.HasExecution e := by
  have ⟨row, hf, _⟩ := h
  simp [HasExecution, hf]

theorem HasExecution.mono (hg : db.Grows db') (h : db.HasExecution e) : db'.HasExecution e :=
  hg.executions.isSome h

theorem ForeignKeys.empty : Db.empty.ForeignKeys := by
  constructor <;> exact List.forall_mem_nil _

theorem RefersTo.mono (hg : db'.Grows db'') (h : db.RefersTo db') : db.RefersTo db'' where
  executions  := fun row hr => hg.tenants <| h.executions row hr
  events      := fun row hr => (h.events row hr).mono hg
  approvals   := fun row hr => (h.approvals row hr).mono hg
  audit       := fun row hr => (h.audit row hr).imp (hg.tenants ·) (·.mono hg)
  idempotency := fun row hr => (h.idempotency row hr).imp (hg.tenants ·) (·.mono hg)
  dispatches  := fun row hr => (h.dispatches row hr).mono hg

theorem Constraints.empty : Db.empty.Constraints :=
  ⟨.empty, List.forall_mem_nil _⟩

theorem ForeignKeys.tenant (h : db.ForeignKeys) (hf : db.executions.find e = some row) :
    row.tenantId ∈ db.tenants :=
  h.executions row <| Table.mem_of_find hf

end Db

-- What the server checks of a row before it is written.
def Statement.Checked (db : Db) : (o : Statement) → o.Reply → Prop
  | insertIdempotency t _ e _, some _ => t ∈ db.tenants ∧ db.HasExecution e
  | insertExecution request _, _      => request.identity.tenantId ∈ db.tenants
  | insertEvent event, _              => db.HasExecution event.executionId
  | insertApproval request, some _    => db.Owns request.tenantId request.executionId ∧ Storable request.approvalId
  | insertAudit record, _             => record.tenantId ∈ db.tenants ∧ db.HasExecution record.executionId
  | insertDispatch e _, some _        => db.HasExecution e
  | _, _                              => True

namespace Statement

variable {o : Statement} {r : o.Reply} {db db' : Db}

theorem checked_of_reply (h : o.reply now amb db = .ok r) : o.Checked db r := by
  cases o
  case insertIdempotency =>
    cases r
    case none   => trivial
    case some _ =>
      simp only [reply, bind_ok] at h
      obtain ⟨_, _, h⟩ := h
      split at h
      · cases h
      · simp only [bind_ok, require_ok] at h
        exact h.choose_spec.left
  case insertExecution =>
    simp only [reply, bind_ok, require_ok] at h
    obtain ⟨_, _, _, _, _, _, _, _, _, ht, _⟩ := h
    exact ht
  case insertEvent =>
    simp only [reply, bind_ok, require_ok] at h
    obtain ⟨_, _, _, _, _, _, _, _, _, hx, _⟩ := h
    exact hx
  case insertApproval =>
    cases r
    case none   => trivial
    case some _ =>
      simp only [reply, bind_ok, checkTexts_ok] at h
      obtain ⟨_, hs, _, _, _, _, h⟩ := h
      split at h
      · cases h
      · simp only [bind_ok, require_ok] at h
        obtain ⟨_, ho, _⟩ := h
        exact ⟨by simpa [Db.Owns, Option.any_eq_true] using ho, hs _ (.head _)⟩
  case insertAudit =>
    simp only [reply, bind_ok, require_ok] at h
    obtain ⟨_, _, _, _, _, _, _, hx, _⟩ := h
    exact hx
  case insertDispatch =>
    cases r
    case none   => trivial
    case some _ =>
      simp only [reply] at h
      split at h
      · cases h
      · simp only [bind_ok, require_ok] at h
        exact h.choose_spec.left
  all_goals trivial

theorem Checked.mono (hg : db.Grows db') (h : o.Checked db r) : o.Checked db' r := by
  cases o
  case insertIdempotency =>
    cases r
    case none => trivial
    case some => exact ⟨hg.tenants h.left, h.right.mono hg⟩
  case insertExecution => exact hg.tenants h
  case insertEvent     => exact Db.HasExecution.mono hg h
  case insertApproval  =>
    cases r
    case none => trivial
    case some => exact h.imp_left (Db.Owns.mono hg)
  case insertAudit     => exact ⟨hg.tenants h.left, h.right.mono hg⟩
  case insertDispatch  =>
    cases r
    case none => trivial
    case some => exact Db.HasExecution.mono hg h
  all_goals trivial

end Statement

namespace Db

variable {o : Statement} {r : o.Reply} {db db' : Db}

-- The references of the rows that a statement writes are those that the server has checked.
theorem ForeignKeys.effect (hr : o.Checked db r) (h : db.ForeignKeys) : (o.effect r db).ForeignKeys := by
  have hm : db.RefersTo (o.effect r db) := h.mono (grows_effect o r db)
  have hr : o.Checked (o.effect r db) r := hr.mono (grows_effect o r db)
  cases o
  case insertTenant => cases r <;> exact { hm with }
  case insertIdempotency =>
    cases r
    case none => exact hm
    case some => exact { hm with idempotency := Table.forall_insert hm.idempotency hr }
  case insertExecution => exact { hm with executions := Table.forall_insert hm.executions hr }
  case updateExecution => exact { hm with executions := Table.forall_modify (by simp) hm.executions fun _ h => by exact h }
  case insertEvent     => exact { hm with events := Table.forall_insert hm.events hr }
  case insertApproval  =>
    cases r
    case none => exact hm
    case some => exact { hm with approvals := Table.forall_insert hm.approvals hr.left }
  case updateApproval  => exact { hm with approvals := Table.forall_modify (by simp) hm.approvals fun _ h => by exact h }
  case expireApproval  =>
    cases r
    case none => exact hm
    case some => exact { hm with approvals := Table.forall_modify (by simp) hm.approvals fun _ h => by exact h }
  case insertAudit     => exact { hm with audit := Table.forall_insert hm.audit hr }
  case insertDispatch  =>
    cases r
    case none => exact hm
    case some => exact { hm with dispatches := Table.forall_insert hm.dispatches hr }
  case claimDispatch   =>
    cases r
    case none => exact hm
    case some => exact { hm with dispatches := Table.forall_modify (by simp) hm.dispatches fun _ h => by exact h }
  case updateDispatchSucceeded =>
    cases r
    case none => exact hm
    case some => exact { hm with dispatches := Table.forall_modify (by simp) hm.dispatches fun _ h => by exact h }
  case updateDispatchFailed =>
    cases r
    case false => exact hm
    case true  => exact { hm with dispatches := Table.forall_modify (by simp) hm.dispatches fun _ h => by exact h }
  all_goals exact hm

theorem Constraints.effect (hr : o.Checked db r) (h : db.Constraints) : (o.effect r db).Constraints := by
  refine ⟨h.foreignKeys.effect hr, ?_⟩
  revert hr
  unfold Statement.effect
  split <;> intro hr
  case h_6 => exact Table.forall_insert h.approvalIds hr.right
  case h_7 => exact Table.forall_modify (by simp) h.approvalIds fun _ h => by exact h
  case h_8 => exact Table.forall_modify (by simp) h.approvalIds fun _ h => by exact h
  all_goals exact h.approvalIds

-- Two databases have the same rows of a tenant. Events and dispatches have the tenant of their
-- execution.
structure SameFor (tenantId : String) (db db' : Db) : Prop where
  executions : db.executions.SameRows (·.tenantId = tenantId) db'.executions
  events     : db.events.SameRows (fun row => db.Owns tenantId row.executionId) db'.events
  approvals  : db.approvals.SameRows (·.tenantId = tenantId) db'.approvals
  audit      : db.audit.SameRows (·.tenantId = tenantId) db'.audit
  dispatches : db.dispatches.SameRows (fun row => db.Owns tenantId row.executionId) db'.dispatches

theorem SameFor.refl (t : String) (db : Db) : db.SameFor t db :=
  ⟨.refl _ _, .refl _ _, .refl _ _, .refl _ _, .refl _ _⟩

end Db
end Logon
