import Logon.Database.Constraints
import Logon.Library.StableSort

-- The queries of the API.

namespace Logon.ControlPlane

structure EvidenceRow where
  evidenceId  : String
  executionId : String
  tenantId    : String
  kind        : String
  source      : String
  payloadHash : String
  createdAt   : Time

structure ToolPermissionRow where
  tenantId   : String
  agentId    : String
  toolId     : String
  permission : String
  allowed    : Bool
  expiresAt  : Option Time

def ToolPermissionRow.key (r : ToolPermissionRow) : String × String × String × String :=
  (r.tenantId, r.agentId, r.toolId, r.permission)

-- The tables that the API reads.
structure ControlDb extends Db where
  evidence    : Table EvidenceRow.evidenceId
  permissions : Table ToolPermissionRow.key

inductive Query
  | selectOne
  | listExecutions (tenantId : String)
  | selectExecution (executionId tenantId : String)
  | selectEvents (executionId : String)
  | selectApprovals (executionId tenantId : String)
  | selectEvidence (executionId tenantId : String)
  | selectAudit (executionId tenantId : String)
  | selectDispatch (executionId : String)
  | selectPermissions (tenantId agentId : String)
  | selectOwnership (approvalId executionId tenantId : String)

abbrev Query.Row : Query → Type
  | selectOne             => Unit
  | listExecutions _      => ExecutionRow × Nat
  | selectExecution _ _   => ExecutionRow
  | selectEvents _        => EventRow
  | selectApprovals _ _   => ApprovalRow
  | selectEvidence _ _    => EvidenceRow
  | selectAudit _ _       => AuditRow
  | selectDispatch _      => DispatchRow
  | selectPermissions _ _ => ToolPermissionRow
  | selectOwnership _ _ _ => String

-- What the database leaves open about the order of rows, and how it orders texts.
structure RowOrder where
  -- Rows that a query orders by a time, and which have the same one, come in an order of their ids.
  ties      : Query → LinearOrder String
  collation : LinearOrder String

namespace RowOrder

variable {α : Type} (order : RowOrder) (q : Query) (time : α → Time) (key : α → String)

def Newer (r r' : α) : Prop :=
  time r' < time r ∨ time r = time r' ∧ (order.ties q).le (key r) (key r')

instance (r r' : α) : Decidable (order.Newer q time key r r') :=
  have := (order.ties q).toDecidableLE (key r) (key r')
  inferInstanceAs (Decidable (_ ∨ _ ∧ _))

-- `order by time desc`
def newestFirst (rows : List α) : List α :=
  rows.insertionSort (order.Newer q time key)

-- `tool_id, permission`
def Alphabetical (r r' : ToolPermissionRow) : Prop :=
  order.collation.lt r.toolId r'.toolId ∨
  r.toolId = r'.toolId ∧ order.collation.le r.permission r'.permission

instance (r r' : ToolPermissionRow) : Decidable (order.Alphabetical r r') :=
  have := order.collation.toDecidableLT r.toolId r'.toolId
  have := order.collation.toDecidableLE r.permission r'.permission
  inferInstanceAs (Decidable (_ ∨ _ ∧ _))

end RowOrder

-- The rows that a query returns.
def Query.rows (order : RowOrder) (db : ControlDb) : (q : Query) → List q.Row
  | selectOne => [()]
  | listExecutions tenantId =>
    let rows := db.executions.rows.filter (·.tenantId = tenantId)
    (order.newestFirst (listExecutions tenantId) (·.updatedAt) (·.executionId) rows |>.take 100).map fun row =>
      let pending := db.approvals.rows.filter fun a =>
        a.executionId = row.executionId ∧ a.tenantId = row.tenantId ∧ a.status = .pending
      (row, pending.length)
  | selectExecution e tenantId =>
    ((db.executions.find e).filter (·.tenantId = tenantId)).toList
  | selectEvents e =>
    let rows := db.events.rows.filter (·.executionId = e)
    rows.insertionSort (·.sequence ≤ ·.sequence) |>.take 1000
  | selectApprovals e tenantId =>
    let rows := db.approvals.rows.filter fun row => row.executionId = e ∧ row.tenantId = tenantId
    order.newestFirst (selectApprovals e tenantId) (·.createdAt) (·.approvalId) rows
  | selectEvidence e tenantId =>
    let rows := db.evidence.rows.filter fun row => row.executionId = e ∧ row.tenantId = tenantId
    order.newestFirst (selectEvidence e tenantId) (·.createdAt) (·.evidenceId) rows |>.take 500
  | selectAudit e tenantId =>
    let rows := db.audit.rows.filter fun row => row.executionId = e ∧ row.tenantId = tenantId
    order.newestFirst (selectAudit e tenantId) (·.createdAt) (·.auditId) rows |>.take 500
  | selectDispatch e => (db.dispatches.find e).toList
  | selectPermissions tenantId agentId =>
    let rows := db.permissions.rows.filter fun row => row.tenantId = tenantId ∧ row.agentId = agentId
    rows.insertionSort order.Alphabetical
  | selectOwnership a e tenantId =>
    let rows := (db.approvals.find a).filter fun row => row.executionId = e ∧ row.tenantId = tenantId
    rows.toList.map (·.executionId)

namespace ControlDb

-- Two databases have the same rows of a tenant.
structure SameFor (tenantId : String) (db db' : ControlDb) : Prop
    extends Db.SameFor tenantId db.toDb db'.toDb where
  evidence    : db.evidence.SameRows (·.tenantId = tenantId) db'.evidence
  permissions : db.permissions.SameRows (·.tenantId = tenantId) db'.permissions

theorem SameFor.refl (t : String) (db : ControlDb) : db.SameFor t db :=
  ⟨.refl t db.toDb, .refl _ _, .refl _ _⟩

end ControlDb

section
variable {order : RowOrder} {db db' : ControlDb}

theorem RowOrder.newestFirst_eq {α : Type} {q : Query} {time : α → Time} {key : α → String} {l l' : List α}
    (h : l.Perm l') (hk : ∀ a ∈ l, ∀ b ∈ l, key a = key b → a = b) :
    order.newestFirst q time key l = order.newestFirst q time key l' := by
  apply h.insertionSort_eq
  · intro a b
    rcases lt_trichotomy (time a) (time b) with ht | ht | ht
    · exact .inr <| .inl ht
    · exact ((order.ties q).le_total (key a) (key b)).imp (.inr ⟨ht, ·⟩) (.inr ⟨ht.symm, ·⟩)
    · exact .inl <| .inl ht
  · rintro a b c (hab | ⟨hab, ha⟩) (hbc | ⟨hbc, hb⟩)
    · exact .inl <| hbc.trans hab
    · exact .inl <| hbc ▸ hab
    · exact .inl <| hab ▸ hbc
    · exact .inr ⟨hab.trans hbc, (order.ties q).le_trans _ _ _ ha hb⟩
  · rintro a ha b hb (hab | ⟨ht, hab⟩) (hba | ⟨ht', hba⟩)
    · exact absurd (hab.trans hba) (lt_irrefl _)
    · exact absurd ht' hab.ne
    · exact absurd ht hba.ne
    · exact hk a ha b hb <| (order.ties q).le_antisymm _ _ hab hba

theorem RowOrder.newestFirst_filter {ρ : Type} {key : ρ → String} {t t' : Table key} {p c : ρ → Prop}
    [DecidablePred c] {q : Query} {time : ρ → Time} (h : t.SameRows p t') (hc : ∀ r, c r → p r) :
    order.newestFirst q time key (t.rows.filter (c ·)) = order.newestFirst q time key (t'.rows.filter (c ·)) := by
  apply RowOrder.newestFirst_eq (h.filter_perm hc)
  intro a ha b hb he
  exact List.inj_on_of_nodup_map t.nodup (List.mem_of_mem_filter ha) (List.mem_of_mem_filter hb) he

theorem RowOrder.alphabetical_eq {l l' : List ToolPermissionRow} (h : l.Perm l')
    (hk : ∀ a ∈ l, ∀ b ∈ l, a.toolId = b.toolId → a.permission = b.permission → a = b) :
    l.insertionSort order.Alphabetical = l'.insertionSort order.Alphabetical := by
  let _ := order.collation
  apply h.insertionSort_eq
  · intro a b
    rcases lt_trichotomy a.toolId b.toolId with ht | ht | ht
    · exact .inl <| .inl ht
    · exact (le_total a.permission b.permission).imp (.inr ⟨ht, ·⟩) (.inr ⟨ht.symm, ·⟩)
    · exact .inr <| .inl ht
  · rintro a b c (hab | ⟨hab, ha⟩) (hbc | ⟨hbc, hb⟩)
    · exact .inl <| lt_trans hab hbc
    · exact .inl <| hbc ▸ hab
    · exact .inl <| hab ▸ hbc
    · exact .inr ⟨hab.trans hbc, le_trans ha hb⟩
  · rintro a ha b hb (hab | ⟨ht, hab⟩) (hba | ⟨ht', hba⟩)
    · exact absurd (lt_trans hab hba) (lt_irrefl _)
    · exact absurd ht' hab.ne'
    · exact absurd ht hba.ne'
    · exact hk a ha b hb ht <| le_antisymm hab hba

-- The rows that a query returns are those of a tenant. The queries for events and dispatches do not name
-- the tenant.
def Query.Within (tenantId : String) (db : ControlDb) : Query → Prop
  | selectOne             => True
  | listExecutions t      => t = tenantId
  | selectExecution _ t   => t = tenantId
  | selectEvents e        => db.Owns tenantId e
  | selectApprovals _ t   => t = tenantId
  | selectEvidence _ t    => t = tenantId
  | selectAudit _ t       => t = tenantId
  | selectDispatch e      => db.Owns tenantId e
  | selectPermissions t _ => t = tenantId
  | selectOwnership _ _ t => t = tenantId

-- Such a query returns the same rows if the tenant has the same rows.
theorem Query.rows_congr {q : Query} (h : db.SameFor t db') (hq : q.Within t db) :
    q.rows order db = q.rows order db' := by
  cases q
  case selectOne => rfl
  case listExecutions =>
    cases hq
    simp only [rows]
    rw [RowOrder.newestFirst_filter h.executions fun _ => id]
    apply List.map_congr_left
    intro row hr
    have ht : row.tenantId = t := by
      have hm := (List.perm_insertionSort _ _).subset <| List.mem_of_mem_take hr
      simpa using (List.mem_filter.mp hm).right
    exact congrArg (Prod.mk row) <| (h.approvals.filter_perm fun _ hc => hc.right.left.trans ht).length_eq
  case selectExecution =>
    cases hq
    exact congrArg Option.toList <| h.executions.find_filter (fun _ => id) _
  case selectEvents e =>
    have hp := h.events.filter_perm (q := (·.executionId = e)) fun _ he => he ▸ hq
    apply congrArg (List.take 1000)
    apply hp.insertionSort_eq
    · exact fun a b => le_total a.sequence b.sequence
    · exact fun a b c => le_trans
    · intro a ha b hb hab hba
      simp only [List.mem_filter, decide_eq_true_eq] at ha hb
      apply List.inj_on_of_nodup_map db.events.nodup ha.left hb.left
      exact Prod.ext (ha.right.trans hb.right.symm) (le_antisymm hab hba)
  case selectApprovals =>
    cases hq
    exact RowOrder.newestFirst_filter h.approvals fun _ h => h.right
  case selectEvidence =>
    cases hq
    exact congrArg (List.take 500) <| RowOrder.newestFirst_filter h.evidence fun _ h => h.right
  case selectAudit =>
    cases hq
    exact congrArg (List.take 500) <| RowOrder.newestFirst_filter h.audit fun _ h => h.right
  case selectDispatch e =>
    exact congrArg Option.toList <| h.dispatches.find_eq fun row hk => (hk : row.executionId = e) ▸ hq
  case selectPermissions t agentId =>
    cases hq
    have hp := h.permissions.filter_perm (q := fun row => row.tenantId = t ∧ row.agentId = agentId) fun _ hc => hc.left
    apply RowOrder.alphabetical_eq hp
    intro a ha b hb ht hp
    simp only [List.mem_filter, decide_eq_true_eq] at ha hb
    apply List.inj_on_of_nodup_map db.permissions.nodup ha.left hb.left
    simp [ToolPermissionRow.key, ha.right, hb.right, ht, hp]
  case selectOwnership e _ =>
    cases hq
    have hf := h.approvals.find_filter (q := fun row => row.executionId = e ∧ row.tenantId = t) (fun _ hc => hc.right)
    exact congrArg (fun rows => rows.toList.map ApprovalRow.executionId) (hf _)

end

end Logon.ControlPlane
