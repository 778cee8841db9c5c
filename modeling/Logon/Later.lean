import Logon.Books
import Logon.Settlement

-- What a database still knows of those that it comes from.

namespace Logon

open System Program PostgresExecutionService

structure ExecutionRow.Later (row row' : ExecutionRow) : Prop where
  opened : row'.opened = row.opened

-- Nobody but a sweep changes an approval that is decided.
inductive ApprovalRow.Later (row : ApprovalRow) : ApprovalRow → Prop
  | same : row.Later row
  | decided {status decidedBy t} :
    row.status = .pending → status ≠ .pending → (status = .expired → decidedBy = "logon.approval.expiry") →
    row.Later (row.decide status decidedBy t)
  | expired {t} : row.Later (row.decide .expired "logon.approval.expiry" t)

structure DispatchRow.Later (row row' : DispatchRow) : Prop where
  opened   : row'.opened = row.opened
  attempts : row.attempts ≤ row'.attempts

theorem ExecutionRow.Later.refl (row : ExecutionRow) : row.Later row :=
  ⟨rfl⟩

theorem ExecutionRow.Later.trans {row₁ row₂ row₃ : ExecutionRow} (h : row₁.Later row₂) (h' : row₂.Later row₃) :
    row₁.Later row₃ :=
  ⟨h'.opened.trans h.opened⟩

theorem ApprovalRow.Later.refl (row : ApprovalRow) : row.Later row :=
  .same

theorem ApprovalRow.Later.trans {row₁ row₂ row₃ : ApprovalRow} (h : row₁.Later row₂) (h' : row₂.Later row₃) :
    row₁.Later row₃ := by
  cases h
  case same => exact h'
  case decided hp hs hx =>
    cases h'
    case same            => exact .decided hp hs hx
    case decided hp' _ _ => exact absurd hp' hs
    case expired         => exact .expired
  case expired =>
    cases h'
    case same            => exact .expired
    case decided hp' _ _ => cases hp'
    case expired         => exact .expired

theorem DispatchRow.Later.refl (row : DispatchRow) : row.Later row :=
  ⟨rfl, le_refl _⟩

theorem DispatchRow.Later.trans {row₁ row₂ row₃ : DispatchRow} (h : row₁.Later row₂) (h' : row₂.Later row₃) :
    row₁.Later row₃ :=
  ⟨h'.opened.trans h.opened, h.attempts.trans h'.attempts⟩

namespace Db

-- What a database still knows of one that it comes from.
structure Later (db db' : Db) : Prop where
  executions : db.executions.Keeps ExecutionRow.Later db'.executions
  events     : ∀ e, db.eventsOf e <+: db'.eventsOf e
  approvals  : db.approvals.Keeps ApprovalRow.Later db'.approvals
  audit      : db.audit.rows <+: db'.audit.rows
  dispatches : db.dispatches.Keeps DispatchRow.Later db'.dispatches

namespace Later

variable {P : Premise} {now : Time} {db db' db'' : Db}

theorem refl (db : Db) : db.Later db where
  executions := .refl .refl _
  events     := fun _ => List.prefix_refl _
  approvals  := .refl .refl _
  audit      := List.prefix_refl _
  dispatches := .refl .refl _

theorem trans (h : db.Later db') (h' : db'.Later db'') : db.Later db'' where
  executions := h.executions.trans .trans h'.executions
  events     := fun e => (h.events e).trans (h'.events e)
  approvals  := h.approvals.trans .trans h'.approvals
  audit      := h.audit.trans h'.audit
  dispatches := h.dispatches.trans .trans h'.dispatches

theorem eventsOf_insert_new {row : EventRow} (h : db.events.find row.key = none) (e : String) :
    db.eventsOf e <+: { db with events := db.events.insert row }.eventsOf e := by
  rw [eventsOf_insert h]
  exact List.prefix_append ..

theorem advance (h : Advance now db event db') : db.Later db' := by
  cases h
  case mk hn _ =>
    refine { refl db with executions := Table.Keeps.modify ExecutionRow.Later.refl ?_ ?_, events := ?_ }
    · exact fun _ _ => ⟨rfl⟩
    · exact fun _ => rfl
    · exact eventsOf_insert_new hn

-- Dispatches are only updated.
theorem updateDispatch {f : DispatchRow → DispatchRow} (hk : ∀ row, (f row).executionId = row.executionId)
    (hf : ∀ row : DispatchRow, row.Later (f row)) : db.Later { db with dispatches := db.dispatches.modify e f hk } :=
  { refl db with dispatches := .modify .refl (fun row _ => hf row) hk }

theorem change (h : Change P now db db') : db.Later db' := by
  cases h
  case tenant => exact { refl db with }
  case execution hn =>
    exact { refl db with
      executions := .insert .refl _ _
      events     := fun e => eventsOf_insert_new hn e }
  case advance hv => exact .advance hv
  case approval => exact { refl db with approvals := .insert .refl _ _ }
  case decision a row status decidedBy t hf hp hs hx =>
    refine { refl db with approvals := Table.Keeps.modify ApprovalRow.Later.refl ?_ ?_ }
    · intro row' hf'
      cases hf.symm.trans hf'
      exact .decided hp hs hx
    · exact fun _ => rfl
  case expiry =>
    refine { refl db with approvals := Table.Keeps.modify ApprovalRow.Later.refl ?_ ?_ }
    · exact fun _ _ => .expired
    · exact fun _ => rfl
  case audit hn =>
    refine { refl db with audit := ?_ }
    rw [addAudit_audit, Table.rows_insert_new hn]
    exact List.prefix_append ..
  case dispatch    => exact { refl db with dispatches := .insert .refl _ _ }
  case idempotency => exact { refl db with }
  case claim       => exact .updateDispatch _ fun row => ⟨rfl, Nat.le_succ row.attempts⟩
  case success     => exact .updateDispatch _ fun _ => ⟨rfl, le_refl _⟩
  case failure     => exact .updateDispatch _ fun _ => ⟨rfl, le_refl _⟩

theorem changes (h : Changes P now db db') : db.Later db' :=
  h.preserves (Q := db.Later) (fun hc h => h.trans (.change hc)) (.refl db)

theorem commit {c : Call} {r : c.Result} (h : c.Commits P now db r db') : db.Later db' :=
  .changes h.changes

end Later
end Db

-- The row of an approval that somebody has decided. A sweep can overtake the decision.
def ApprovalDecision.Heads (decision : ApprovalDecision) (row : ApprovalRow) : Prop :=
  row.status = decision.status.toStatus ∧ row.decidedBy = some decision.decidedBy ∨
  row.status = .expired ∧ row.decidedBy = some "logon.approval.expiry"

theorem ApprovalDecision.Heads.later {decision : ApprovalDecision} {row row' : ApprovalRow} (h : decision.Heads row)
    (hl : row.Later row') : decision.Heads row' := by
  cases hl
  case same           => exact h
  case expired        => exact .inr ⟨rfl, rfl⟩
  case decided hp _ _ =>
    obtain ⟨hs, _⟩ | ⟨hs, _⟩ := h
    · exact absurd (hs.symm.trans hp) decision.status.toStatus_ne_pending
    · cases hs.symm.trans hp

-- What there is of a decision in the database.
structure Heeded (decision : ApprovalDecision) (db : Db) : Prop where
  approval : ∃ row, db.approvals.find decision.approvalId = some row ∧ row.executionId = decision.executionId ∧
             decision.Heads row
  event    : ∃ n t, .of (decisionEvent decision n) t ∈ db.eventsOf decision.executionId
  finding  : ∃ row ∈ db.auditOf decision.executionId, row.plain = decision.finding
  dispatch : decision.status = .approved → (db.dispatches.find decision.executionId).isSome

section
variable {P : Premise} {now : Time} {db db' : Db} {decision : ApprovalDecision}

theorem Heeded.later (h : Heeded decision db) (hl : db.Later db') : Heeded decision db' where
  approval := by
    have ⟨row, hf, he, hh⟩ := h.approval
    have ⟨row', hf', hr⟩ := hl.approvals _ _ hf
    refine ⟨row', hf', ?_, hh.later hr⟩
    cases hr <;> exact he
  event    := by
    have ⟨n, t, hm⟩ := h.event
    exact ⟨n, t, (hl.events _).subset hm⟩
  finding  := by
    have ⟨row, hm, hp⟩ := h.finding
    exact ⟨row, (hl.audit.filter _).subset hm, hp⟩
  dispatch := fun hs => hl.dispatches.isSome <| h.dispatch hs

theorem Decide.heeded {decided : ApprovalDecision} (h : Decide P now decision db ⟨some decided, none⟩ db') :
    decided = decision ∧ Heeded decision db' := by
  cases h
  case decided execution row n db₁ db₂ db₃ ho _ hd hv hs hu =>
    have h₂ : db₂.Later db₃ := by
      obtain ⟨_, rfl⟩ | ⟨_, hn, rfl⟩ | ⟨_, _, rfl⟩ := hs
      · exact .refl _
      · exact .change (P := P) (.dispatch hn)
      · exact .refl _
    have h₃ : db₃.Later db' := .changes hu.changes
    have h₁ : db₁.Later db' := (Db.Later.advance hv).trans <| h₂.trans h₃
    refine ⟨rfl, ?approval, ?event, ?finding, ?dispatch⟩
    case approval =>
      have hf : db₁.approvals.find decision.approvalId = some (row.decide decision.status.toStatus decision.decidedBy
          (decision.decidedAt.timestamptz.getD now)) := by
        rw [hd, Db.setApproval_approvals, Table.find_modify_self, ho.findApproval]
        rfl
      have ⟨row', hf', hr⟩ := h₁.approvals _ _ hf
      refine ⟨row', hf', ?_, ApprovalDecision.Heads.later (.inl ⟨rfl, rfl⟩) hr⟩
      cases hr <;> exact ho.bound
    case event =>
      have ⟨c, hf⟩ := hv.find
      exact ⟨n, c, ((h₂.trans h₃).events _).subset <| List.mem_filter.mpr ⟨Table.mem_of_find hf, decide_eq_true rfl⟩⟩
    case finding =>
      cases hu
      case mk u createdAt c _ _ hn =>
        refine ⟨_, List.mem_filter.mpr ⟨Table.mem_of_find <| Table.find_insert_new hn, decide_eq_true rfl⟩, rfl⟩
    case dispatch =>
      intro ha
      apply h₃.dispatches.isSome
      obtain ⟨hr, _⟩ | ⟨_, _, rfl⟩ | ⟨_, hf, rfl⟩ := hs
      · cases ha.symm.trans hr
      · exact Option.isSome_iff_exists.mpr ⟨_, Table.find_insert_self ..⟩
      · exact hf

end

namespace Case

variable {c c' : Case} {file : File} {dispatched : Bool}

-- Approvals are only asked for when an execution is opened.
theorem Step.verdicts_length (h : Step c c') (hn : c.statuses ≠ []) :
    c'.statuses ≠ [] ∧ c'.verdicts.length = c.verdicts.length := by
  cases h
  case opened  => exact absurd rfl hn
  case decided => exact ⟨List.cons_ne_nil _ _, rfl⟩
  case lapsed  => exact ⟨List.cons_ne_nil _ _, rfl⟩
  case overrun => exact ⟨List.cons_ne_nil _ _, rfl⟩
  case moved   => exact ⟨List.append_ne_nil_of_left_ne_nil hn _, rfl⟩
  all_goals exact ⟨hn, rfl⟩

theorem Steps.verdicts_length (h : Steps c c') (hn : c.statuses ≠ []) :
    c'.statuses ≠ [] ∧ c'.verdicts.length = c.verdicts.length := by
  induction h
  case refl        => exact ⟨hn, rfl⟩
  case tail hs ih =>
    have ⟨hn', hl⟩ := Step.verdicts_length hs ih.left
    exact ⟨hn', hl.trans ih.right⟩

theorem Shape.findings_length (h : Shape file dispatched) : file.findings.length ≤ 2 := by
  cases h <;> simp

end Case

variable {host : Host} {G : Guard} {s s' : platform.State}

theorem Reachable.later (h : Reachable G s) (hs : Steps G s s') : s.db.Later s'.db :=
  (h.atomicSteps hs G.meets_none).db_invariant (Q := s.db.Later) (.refl s.db) fun _ _ _ _ _ hc _ hl => hl.trans (.commit hc)

-- Whatever has been decided is found in the database from then on.
theorem Reachable.heeded {decision decided : ApprovalDecision} (h : Reachable G s)
    (hm : (⟨pid, .decideApproval decision, ⟨some decided, none⟩, started⟩ : platform.Commit) ∈ s.log) :
    decided = decision ∧ Heeded decision s.db := by
  have ⟨_, hs⟩ := h.atomic G.meets_none
  refine AtomicSteps.log_invariant (Q := fun db log =>
    (⟨pid, .decideApproval decision, ⟨some decided, none⟩, started⟩ : platform.Commit) ∈ log →
    decided = decision ∧ Heeded decision db) hs nofun ?_ hm
  intro g pid' c r now db' _ hc _ ih hm
  obtain hm | hm := List.mem_append.mp hm
  case inl => exact (ih hm).imp_right (·.later <| .commit hc)
  case inr =>
    cases List.mem_singleton.mp hm
    exact Decide.heeded hc

section
variable (h : Reachable (Guard.clients host) s)
include h

theorem Reachable.approvalsOf_length (e : String) : (s.db.approvalsOf e).length ≤ 1 := by
  rw [← List.length_map (·.status)]
  exact (h.case_sound e).shape.verdicts_length

theorem Reachable.auditOf_length (e : String) : (s.db.auditOf e).length ≤ 2 := by
  rw [← List.length_map fun row => (row.action, row.allowed)]
  exact (h.case_sound e).shape.findings_length

-- An execution gets its approval at once, or none at all.
theorem Reachable.approvalsOf_later (hs : Steps (Guard.clients host) s s') (ho : s.db.Owns t e) :
    (s'.db.approvalsOf e).length = (s.db.approvalsOf e).length := by
  have ⟨row, hf, _⟩ := ho
  have hn : s.db.statuses e ≠ [] := (h.ledger.accounts hf).lifecycle.ne_nil
  have hl := (Case.Steps.verdicts_length (h.later_case_steps hs e) hn).right
  simpa [caseOf, Db.file] using hl

end

end Logon
