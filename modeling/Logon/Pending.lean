import Logon.Approvals

-- Approvals and executions keep in step, as far as only decisions and sweeps end the waiting.

namespace Logon

open System

variable {P : Premise} {now : Time} {db db' : Db} {log log' : List platform.Commit}

-- No generated id of an approval is in use.
abbrev Premise.fresh : Premise := .of fun _ o _ r =>
  match o, r with
  | .insertApproval _, .none => false
  | _, _                     => true

theorem Premise.fresh_stable : fresh.Stable := by
  intro now o r db db' _ _ hp
  cases o <;> exact hp

-- A `transition` or a `fail` has appended an event.
inductive Moved (log : List platform.Commit) (e : String) (event : ExecutionEvent) : Prop
  | transition {pid status actorId payload t} :
    ⟨pid, .transition e status actorId payload, event, t⟩ ∈ log → Moved log e event
  | fail {pid actorId reason t} :
    ⟨pid, .fail e actorId reason, event, t⟩ ∈ log → Moved log e event

theorem Moved.later (hl : log ⊆ log') (h : Moved log e event) : Moved log' e event := by
  cases h
  case transition hm => exact .transition (hl hm)
  case fail hm       => exact .fail (hl hm)

namespace Db

def pendingOf (db : Db) (e : String) : List ApprovalRow :=
  db.approvals.rows.filter fun row => row.executionId = e ∧ row.status = .pending

-- The execution has been waiting for its approval since it was started.
def Waiting (db : Db) (e : String) : Prop :=
  db.statuses e = [.approval]

-- Waiting is ended by whatever happens to the execution.
theorem Waiting.of_appends {kind : ExecutionStatus → Prop} (h : db.Appends db' e kind)
    (hb : (db.statuses e).head? = some .approval) (hw : db'.Waiting e) : db.Waiting e := by
  have ⟨l, hl, _⟩ := h
  rw [Waiting, hl] at hw
  rw [Waiting]
  cases hs : db.statuses e <;> simp_all

end Db

-- The execution came to `APPROVAL` by a `transition`.
def MovedIn (log : List platform.Commit) (e : String) : Prop :=
  ∃ event, Moved log e event ∧ event.status = .approval

-- The execution was waiting for its approval since it was started, and a `transition` or a `fail` ended that.
def MovedOut (db : Db) (log : List platform.Commit) (e : String) : Prop :=
  (db.statuses e).head? = some .approval ∧ ∃ event, Moved log e event ∧ event.sequence = 2

-- Whoever did not begin in `APPROVAL` was moved there.
structure Entered (db : Db) (log : List platform.Commit) : Prop where
  ledger  : db.Ledger
  entered : ∀ {e}, .approval ∈ (db.statuses e).tail → MovedIn log e

theorem Entered.empty : Entered Db.empty [] where
  ledger  := .empty
  entered := nofun

theorem Entered.commit {c : Call} {r : c.Result} (hc : c.Commits P now db r db') (h : Entered db log) :
    Entered db' (log ++ [⟨pid, c, r, now⟩]) where
  ledger     := hc.ledger h.ledger
  entered hm := by
    cases hc.approval_mem_tail h.ledger hm
    case inl hm =>
      have ⟨event, hm, hs⟩ := h.entered hm
      exact ⟨event, hm.later (List.subset_append_left _ _), hs⟩
    case inr hm =>
      obtain ⟨_, _, rfl⟩ := hm
      obtain ⟨⟨_, _, rfl⟩, _⟩ := hc
      exact ⟨_, .transition <| List.mem_append_right _ (.head _), rfl⟩

structure InStep (db : Db) (log : List platform.Commit) : Prop where
  ledger  : db.Ledger
  began   : ∀ {a row}, db.approvals.find a = some row → (db.statuses row.executionId).head? = some .approval
  unique  : ∀ {a a' row row'}, db.approvals.find a = some row → db.approvals.find a' = some row' →
            row.executionId = row'.executionId → a = a'
  asked   : ∀ {e}, (db.statuses e).head? = some .approval → ∃ a row, db.approvals.find a = some row ∧ row.executionId = e
  pending : ∀ {a row}, db.approvals.find a = some row → row.status = .pending →
            db.Waiting row.executionId ∨ MovedOut db log row.executionId
  settled : ∀ {a row}, db.approvals.find a = some row → row.status ≠ .pending → ¬db.Waiting row.executionId


theorem InStep.empty : InStep Db.empty [] where
  ledger      := .empty
  began       := nofun
  unique      := nofun
  asked       := nofun
  pending     := nofun
  settled     := nofun

-- A change of the approvals that ends the waiting of those whose status it sets.
def Settles (db db' : Db) : Prop :=
  ∀ a, db'.approvals.find a = db.approvals.find a ∨
    ∃ old row, db.approvals.find a = some old ∧ db'.approvals.find a = some row ∧
      row.executionId = old.executionId ∧ row.status ≠ .pending ∧ ¬db'.Waiting row.executionId

theorem Settles.find (h : Settles db db') (hf : db'.approvals.find a = some row) :
    ∃ old, db.approvals.find a = some old ∧ row.executionId = old.executionId := by
  cases h a
  case inl he => exact ⟨row, he ▸ hf, rfl⟩
  case inr he =>
    obtain ⟨old, row', hf', hr, he, _⟩ := he
    rw [hf] at hr
    cases hr
    exact ⟨old, hf', he⟩

-- What keeps approvals and executions in step, if it starts no execution.
theorem InStep.step {kind : String → ExecutionStatus → Prop} (h : InStep db log) (hl : log ⊆ log')
    (hg : db'.Ledger) (hs : ∀ e, db.Appends db' e (kind e))
    (hk : ∀ e, kind e .approval → db.statuses e ≠ []) (ha : Settles db db')
    (hw : ∀ a row, db'.approvals.find a = some row → row.status = .pending → db.Waiting row.executionId →
      db'.Waiting row.executionId ∨ MovedOut db' log' row.executionId) :
    InStep db' log' := by
  have hh e := (hs e).head_iff (hk e)
  constructor
  case ledger => exact hg
  case began =>
    intro a row hf
    have ⟨old, hf, he⟩ := ha.find hf
    exact (hh _).mpr <| he ▸ h.began hf
  case unique =>
    intro a a' row row' hf hf' he
    have ⟨_, hf, ho⟩ := ha.find hf
    have ⟨_, hf', ho'⟩ := ha.find hf'
    exact h.unique hf hf' <| ho ▸ ho' ▸ he
  case asked =>
    intro e hb
    have ⟨a, row, hf, he⟩ := h.asked <| (hh e).mp hb
    cases ha a
    case inl hs => exact ⟨a, row, hs ▸ hf, he⟩
    case inr hs =>
      obtain ⟨old, row', hf', hr, he', _⟩ := hs
      rw [hf] at hf'
      cases hf'
      exact ⟨a, row', hr, he'.trans he⟩
  case pending =>
    intro a row hf hp
    cases ha a
    case inl hs =>
      cases h.pending (hs ▸ hf) hp
      case inl hw'          => exact hw a row hf hp hw'
      case inr hm           =>
        have ⟨hb, event, hm, hn⟩ := hm
        exact .inr ⟨(hh _).mpr hb, event, hm.later hl, hn⟩
    case inr hs =>
      obtain ⟨_, _, _, hr, _, hn, _⟩ := hs
      rw [hf] at hr
      cases hr
      exact absurd hp hn
  case settled =>
    intro a row hf hp
    cases ha a
    case inl he =>
      rw [he] at hf
      exact fun hw => h.settled hf hp <| hw.of_appends (hs _) (h.began hf)
    case inr he =>
      obtain ⟨_, _, _, hr, _, _, hn⟩ := he
      rw [hf] at hr
      cases hr
      exact hn

theorem InStep.congr (h : InStep db log) (hl : log ⊆ log') (hg : db'.Ledger) (ha : db'.approvals = db.approvals)
    (he : db'.events = db.events) : InStep db' log' := by
  have hs e : db.Appends db' e fun _ => False := .congr he
  refine h.step hl hg hs nofun (fun _ => .inl (ha ▸ rfl)) ?_
  intro a row _ _ hw
  exact .inl <| by rwa [Db.Waiting, Db.statuses, Db.eventsOf, he]

theorem InStep.move (h : InStep db log) (hl : log ⊆ log') (hg : db'.Ledger) (hv : Advance now db event db')
    (hm : Moved log' event.executionId event) : InStep db' log' := by
  have ⟨_, hacc, hn⟩ := h.ledger.accounts_advance hv
  have ha : db'.approvals = db.approvals := by cases hv; rfl
  refine h.step hl hg (fun _ => hv.appends) ?kind (fun _ => .inl (ha ▸ rfl)) ?waiting
  case kind =>
    rintro e ⟨rfl, -⟩
    exact hacc.lifecycle.ne_nil
  case waiting =>
    intro a row hf hp hw
    by_cases he : row.executionId = event.executionId
    case pos =>
      rw [he] at hw ⊢
      rw [Db.Waiting] at hw
      exact .inr ⟨by simp [hv.statuses, hw], event, hm, by simp [hn, hw]⟩
    case neg =>
      exact .inl <| by rwa [Db.Waiting, hv.appends.same fun _ hk => he hk.left]

theorem Db.Ledger.not_waiting (h : db.Ledger) (hf : db.executions.find e = some row) (hs : row.status ≠ .approval) :
    ¬db.Waiting e := by
  intro hw
  have hc := (h.accounts hf).current
  rw [hw] at hc
  exact hs <| Option.some.inj hc.symm

theorem Decide.approvals {decision : ApprovalDecision} (h : Decide P now decision db outcome db') :
    ∃ row status decidedBy t, db.approvals.find decision.approvalId = some row ∧
      row.executionId = decision.executionId ∧ status ≠ .pending ∧
      db'.approvals = (db.setApproval decision.approvalId status decidedBy t).approvals := by
  cases h
  case expired ho _ _ _ hr =>
    refine ⟨_, .expired, "logon.approval.expiry", now, ho.findApproval, ho.bound, by decide, ?_⟩
    cases hr
    case mk hv hu =>
      cases hv
      cases hu
      rfl
  case decided ho _ hd hv hs hu =>
    refine ⟨_, decision.status.toStatus, decision.decidedBy, decision.decidedAt.timestamptz.getD now,
      ho.findApproval, ho.bound, decision.status.toStatus_ne_pending, ?_⟩
    subst hd
    cases hv
    cases hu
    obtain ⟨-, rfl⟩ | ⟨-, -, rfl⟩ | ⟨-, -, rfl⟩ := hs <;> rfl

theorem Decide.findExecution {decision : ApprovalDecision} (h : Decide P now decision db outcome db') :
    ∃ row, db'.executions.find decision.executionId = some row ∧ row.status ≠ .approval := by
  cases h
  case expired hr =>
    have ⟨row, hf, hs⟩ := hr.findExecution
    exact ⟨row, hf, by simp [hs]⟩
  case decided hd hv hs hu =>
    have ⟨row, hf, he⟩ := hv.findExecution
    refine ⟨row, ?_, ?_⟩
    · rw [hu.executions]
      obtain ⟨-, rfl⟩ | ⟨-, -, rfl⟩ | ⟨-, -, rfl⟩ := hs <;> exact hf
    · exact he ▸ PostgresExecutionService.nextStatus_ne_approval _

theorem InStep.decide {decision : ApprovalDecision} (h : InStep db log) (hl : log ⊆ log') (hg : db'.Ledger)
    (hd : Decide P now decision db outcome db') : InStep db' log' := by
  have ⟨row, status, decidedBy, t, hf, hb, hs, ha⟩ := hd.approvals
  have ⟨_, hx, hn⟩ := hd.findExecution
  have hn := hg.not_waiting hx hn
  refine h.step hl hg (fun _ => hd.appends) ?kind ?settles ?waiting
  case kind =>
    rintro e ⟨-, hk | hk⟩
    · cases hk
    · exact absurd hk.symm <| PostgresExecutionService.nextStatus_ne_approval _
  case settles =>
    intro a
    rw [ha, Db.setApproval_approvals, Table.find_modify]
    split
    case isFalse => exact .inl rfl
    case isTrue he =>
      subst he
      refine .inr ⟨row, row.decide status decidedBy t, hf, by rw [hf]; rfl, rfl, hs, ?_⟩
      rwa [hb]
  case waiting =>
    intro a row' hf' hp hw
    by_cases he : row'.executionId = decision.executionId
    case neg => exact .inl <| by rwa [Db.Waiting, hd.appends.same fun _ hk => he hk.left]
    case pos =>
      -- The only approval of this execution is the one that is decided.
      rw [ha, Db.setApproval_approvals, Table.find_modify] at hf'
      split at hf'
      case isFalse hne => exact absurd (h.unique hf' hf (he.trans hb.symm)) hne
      case isTrue hr =>
        rw [hr, hf] at hf'
        cases hf'
        exact absurd hp hs

-- The approvals that were expired, by the rows that the update has returned.
structure Expired (db db' : Db) (rows : List ApprovalRow) : Prop where
  changed  : ∀ a, db'.approvals.find a = db.approvals.find a ∨
             ∃ old row, db.approvals.find a = some old ∧ db'.approvals.find a = some row ∧
               row.executionId = old.executionId ∧ row.status = .expired ∧ row.executionId ∈ rows.map (·.executionId)
  returned : ∀ row ∈ rows, ∃ a row', db'.approvals.find a = some row' ∧ row'.executionId = row.executionId ∧
             row'.status = .expired

theorem Expired.find (h : Expired db db' rows) (hf : db'.approvals.find a = some row) :
    ∃ old, db.approvals.find a = some old ∧ row.executionId = old.executionId := by
  cases h.changed a
  case inl he => exact ⟨row, he ▸ hf, rfl⟩
  case inr he =>
    obtain ⟨old, row', hf', hr, he, _⟩ := he
    rw [hf] at hr
    cases hr
    exact ⟨old, hf', he⟩

theorem Expire.expired (h : Expire P now a db row db') : Expired db db' row.toList := by
  cases h
  case none => exact ⟨fun _ => .inl rfl, nofun⟩
  case some row hf hp =>
    constructor
    case changed =>
      intro a'
      rw [Db.setApproval_approvals, Table.find_modify]
      split
      case isFalse   => exact .inl rfl
      case isTrue he => exact .inr ⟨row, row.expire now, he ▸ hf, by rw [he, hf]; rfl, rfl, rfl, by simp⟩
    case returned =>
      intro row' hr
      cases List.mem_singleton.mp hr
      exact ⟨a, row.expire now, by simp [Table.find_modify_self, hf], rfl, rfl⟩

theorem Expired.trans (h₁ : Expired db db₁ rows₁) (h₂ : Expired db₁ db' rows₂) : Expired db db' (rows₁ ++ rows₂) := by
  constructor
  case changed =>
    intro a
    cases h₂.changed a
    case inl he =>
      rw [he]
      refine (h₁.changed a).imp_right fun ⟨old, row, hf, hf', hb, hs, hm⟩ => ?_
      exact ⟨old, row, hf, hf', hb, hs, by simp_all⟩
    case inr he =>
      obtain ⟨old, row, hf, hf', hb, hs, hm⟩ := he
      refine .inr ?_
      cases h₁.changed a
      case inl he => exact ⟨old, row, he ▸ hf, hf', hb, hs, by simp_all⟩
      case inr he =>
        obtain ⟨old', row', hf₁, hf₁', hb', _⟩ := he
        rw [hf] at hf₁'
        cases hf₁'
        exact ⟨old', row, hf₁, hf', hb.trans hb', hs, by simp_all⟩
  case returned =>
    intro row hr
    cases List.mem_append.mp hr
    case inr hr => exact h₂.returned row hr
    case inl hr =>
      obtain ⟨a, row', hf, hb, hs⟩ := h₁.returned row hr
      cases h₂.changed a
      case inl he => exact ⟨a, row', he ▸ hf, hb, hs⟩
      case inr he =>
        obtain ⟨old, row₂, hf', hf₂, hb', hs', _⟩ := he
        rw [hf] at hf'
        cases hf'
        exact ⟨a, row₂, hf₂, hb'.trans hb, hs'⟩

theorem Expired.of_collects (h : Program.Collects (Expire P now) ids db rows db') : Expired db db' rows := by
  induction h
  case nil           => exact ⟨fun _ => .inl rfl, nofun⟩
  case cons hx _ ih  => exact hx.expired.trans ih

-- What has left `APPROVAL` does not return to it in the loop.
theorem RejectAll.findExecution (h : RejectAll P now db claims rejected skipped db') :
    (∀ e row, db.executions.find e = some row → row.status ≠ .approval →
      ∃ row', db'.executions.find e = some row' ∧ row'.status ≠ .approval) ∧
    ∀ claim ∈ claims, ∃ row, db'.executions.find claim.executionId = some row ∧ row.status ≠ .approval := by
  induction h
  case nil => exact ⟨fun _ row hf hs => ⟨row, hf, hs⟩, nofun⟩
  case skip hf hs _ ih =>
    refine ⟨ih.left, ?_⟩
    rintro claim (_ | ⟨_, hm⟩)
    · exact ih.left _ _ hf hs
    · exact ih.right claim hm
  case reject claim claims row rejected skipped db₁ db' hf hs hr _ ih =>
    have ⟨row', hf', hs'⟩ := hr.findExecution
    constructor
    · intro e row hf hs
      by_cases he : e = claim.executionId
      case pos => exact ih.left e row' (he ▸ hf') (by simp [hs'])
      case neg => exact ih.left e row (hr.findExecution_ne he ▸ hf) hs
    · rintro claim (_ | ⟨_, hm⟩)
      · exact ih.left _ _ hf' (by simp [hs'])
      · exact ih.right claim hm

theorem Reject.approvals (h : Reject P now e a db db') : db'.approvals = db.approvals := by
  cases h
  case mk hv hu =>
    cases hv
    cases hu
    rfl

theorem InStep.sweep (h : InStep db log) (hl : log ⊆ log') (hg : db'.Ledger) (hs : Sweep P now limit db result db') :
    InStep db' log' := by
  cases hs
  case mk candidates locked ids rows rejected skipped db₁ _ _ _ _ hx hr =>
    have he := Expired.of_collects hx
    have hev : db₁.events = db.events := hx.unchanged Db.events fun _ _ _ _ => Expire.events
    have hap e : db.Appends db' e fun s => e ∈ (rows.map ExpiredApprovalClaim.of).map (·.executionId) ∧ s = .rejected :=
      .trans (.congr hev) hr.appends
    have hm e : e ∈ (rows.map ExpiredApprovalClaim.of).map (·.executionId) ↔ e ∈ rows.map (·.executionId) := by
      simp [ExpiredApprovalClaim.of]
    refine h.step hl hg hap (fun _ hk => nomatch hk.right) ?settles ?waiting
    case settles =>
      intro a
      rw [hr.unchanged Db.approvals Reject.approvals]
      refine (he.changed a).imp_right fun ⟨old, row, hf, hf', hb, hs, hrow⟩ => ?_
      refine ⟨old, row, hf, hf', hb, by simp [hs], ?_⟩
      have ⟨claim, hc, hce⟩ := List.mem_map.mp <| (hm _).mpr hrow
      have ⟨_, hfx, hn⟩ := hr.findExecution.right claim hc
      exact hce ▸ hg.not_waiting hfx hn
    case waiting =>
      intro a row hf hp hw
      by_cases hrow : row.executionId ∈ rows.map (·.executionId)
      case neg =>
        exact .inl <| by rwa [Db.Waiting, (hap _).same fun _ hk => hrow <| (hm _).mp hk.left]
      case pos =>
        -- The only approval of this execution is one that has been expired.
        have ⟨row', hr', hb⟩ := List.mem_map.mp hrow
        have ⟨a', row'', hf', hb', hs'⟩ := he.returned row' hr'
        rw [hr.unchanged Db.approvals Reject.approvals] at hf
        have ⟨_, ho, hbo⟩ := he.find hf
        have ⟨_, ho', hbo'⟩ := he.find hf'
        obtain rfl := h.unique ho ho' <| by rw [← hbo, ← hbo', hb', hb]
        rw [hf] at hf'
        cases hf'
        simp [hs'] at hp

-- What `awaitOrDispatch` does about approvals, if it generates a fresh id.
theorem AwaitOrDispatch.approvals {request : ExecutionRequest} {decision : PolicyDecision}
    (h : AwaitOrDispatch .fresh now request decision db db') :
    decision.status ≠ .approval ∧ db'.approvals = db.approvals ∨
    decision.status = .approval ∧ ∃ r c x, r.executionId = request.identity.executionId ∧
      db.approvals.find r.approvalId = none ∧ db'.approvals = db.approvals.insert (.of r c x) := by
  cases h
  case approval hs _ _ _ hn => exact .inr ⟨hs, _, _, _, rfl, hn, rfl⟩
  case collision hp         => simp [Premise.of] at hp
  case dispatch hs _        => exact .inl ⟨by simp [hs], rfl⟩
  case dispatched hs _      => exact .inl ⟨by simp [hs], rfl⟩
  case rejected hs          => exact .inl ⟨by simp [hs], rfl⟩

-- The approvals after an execution was started, of which at most one is new.
structure Requested (db db' : Db) (e a₀ : String) (waiting : Prop) : Prop where
  find : ∀ {a row}, db'.approvals.find a = some row →
         db.approvals.find a = some row ∨ waiting ∧ a = a₀ ∧ row.executionId = e ∧ row.status = .pending
  new  : waiting → ∃ row, db'.approvals.find a₀ = some row ∧ row.executionId = e
  keep : ∀ {a row}, db.approvals.find a = some row → db'.approvals.find a = some row

theorem Requested.same (ha : db'.approvals = db.approvals) (hw : ¬waiting) : Requested db db' e a₀ waiting where
  find hf := .inl (ha ▸ hf)
  new hw' := absurd hw' hw
  keep hf := ha ▸ hf

theorem Requested.insert {r : ApprovalRequest} (ha : db'.approvals = db.approvals.insert (.of r c x))
    (hn : db.approvals.find r.approvalId = none) (hw : waiting) :
    Requested db db' r.executionId r.approvalId waiting where
  find hf := by
    rw [ha, Table.find_insert] at hf
    split at hf
    case isFalse   => exact .inl hf
    case isTrue he =>
      rw [he, ApprovalRow.of_approvalId, hn] at hf
      cases hf
      exact .inr ⟨hw, he, rfl, rfl⟩
  new _ := ⟨.of r c x, by rw [ha]; exact Table.find_insert_new hn, rfl⟩
  keep hf := by rw [ha, Table.find_insert_of_some hf]

theorem InStep.request (h : InStep db log) (hl : log ⊆ log') (hg : db'.Ledger) (hn : db.statuses e = [])
    (he : db'.statuses e = [status]) (hs : ∀ e', e' ≠ e → db'.statuses e' = db.statuses e')
    (ha : Requested db db' e a₀ (status = .approval)) : InStep db' log' := by
  -- Older approvals belong to older executions.
  have hne {a row} (hf : db.approvals.find a = some row) : row.executionId ≠ e := by
    intro hr
    have hb := h.began hf
    rw [hr, hn] at hb
    cases hb
  constructor
  case ledger => exact hg
  case began =>
    intro a row hf
    obtain hf | ⟨hw, rfl, hr, -⟩ := ha.find hf
    · rw [hs _ (hne hf)]
      exact h.began hf
    · rw [hr, he, hw]
      rfl
  case unique =>
    intro a a' row row' hf hf' hr
    obtain hf | ⟨-, rfl, hb, -⟩ := ha.find hf <;> obtain hf' | ⟨-, rfl, hb', -⟩ := ha.find hf'
    · exact h.unique hf hf' hr
    · exact absurd (hr.trans hb') (hne hf)
    · exact absurd (hr.symm.trans hb) (hne hf')
    · rfl
  case asked =>
    intro e' hb
    by_cases hr : e' = e
    case pos =>
      subst hr
      have ⟨row, hf, hr⟩ := ha.new <| by simpa [he] using hb
      exact ⟨a₀, row, hf, hr⟩
    case neg =>
      have ⟨a, row, hf, hr⟩ := h.asked (hs e' hr ▸ hb)
      exact ⟨a, row, ha.keep hf, hr⟩
  case pending =>
    intro a row hf hp
    obtain hf | ⟨hw, rfl, hr, -⟩ := ha.find hf
    · rw [Db.Waiting, MovedOut, hs _ (hne hf)]
      refine (h.pending hf hp).imp_right fun ⟨hb, event, hm, hn⟩ => ⟨hb, event, hm.later hl, hn⟩
    · exact .inl <| by rw [Db.Waiting, hr, he, hw]
  case settled =>
    intro a row hf hp
    obtain hf | ⟨-, -, -, hp'⟩ := ha.find hf
    · rw [Db.Waiting, hs _ (hne hf)]
      exact h.settled hf hp
    · exact absurd hp' hp

theorem InStep.create {request : ExecutionRequest} (h : InStep db log) (hl : log ⊆ log') (hg : db'.Ledger)
    (hc : Create .fresh now request db event db') : InStep db' log' := by
  have hs e (hn : e ≠ request.identity.executionId) : db'.statuses e = db.statuses e :=
    hc.appends.same fun _ hk => hn hk.left
  have ho : db.eventsOf request.identity.executionId = [] := by
    cases hc
    case mk hf _ _ _ _ _ => exact h.ledger.orphans hf
  have he := hc.statuses ho
  obtain ⟨a₀, hr⟩ : ∃ a₀, Requested db db' request.identity.executionId a₀
      ((evaluateExecutionPolicy request).status = .approval) := by
    cases hc
    case mk ha hu =>
      cases hu
      obtain ⟨hd, ha⟩ | ⟨hd, r, c, x, hr, hn, ha⟩ := ha.approvals
      · exact ⟨"", .same ha hd⟩
      · exact ⟨r.approvalId, hr ▸ .insert ha hn hd⟩
  exact h.request hl hg (by simp [Db.statuses, ho]) he hs hr

theorem ClaimOne.approvals (h : ClaimOne P now leaseMs e db row db') : db'.approvals = db.approvals := by
  cases h <;> rfl

theorem InStep.commit {c : Call} {r : c.Result} (hc : c.Commits .fresh now db r db') (h : InStep db log) :
    InStep db' (log ++ [⟨pid, c, r, now⟩]) := by
  have hl : log ⊆ log ++ [⟨pid, c, r, now⟩] := List.subset_append_left _ _
  have hg := hc.ledger h.ledger
  cases c
  case start request requestHash options =>
    have hw : InStep (db.withTenant request.identity.tenantId) log :=
      h.congr (List.Subset.refl _) (h.ledger.change (.tenant : Change .fresh now _ _)) rfl rfl
    cases hc
    case unkeyed hc => exact hw.create hl hg hc
    case reused     => exact hw.congr hl hg rfl rfl
    case keyed hc   => exact (hw.create hl (hc.changes.preserves Db.Ledger.change hw.ledger) hc).congr (List.Subset.refl _) hg rfl rfl
  case decideApproval => exact h.decide hl hg hc
  case expireApprovalsOnce => exact h.sweep hl hg hc
  case transition e status actorId payload =>
    obtain ⟨⟨n, t, rfl⟩, hv⟩ := hc
    exact h.move hl hg hv <| .transition <| List.mem_append_right _ (.head _)
  case fail e actorId reason =>
    obtain ⟨⟨n, t, rfl⟩, hv⟩ := hc
    exact h.move hl hg hv <| .fail <| List.mem_append_right _ (.head _)
  case claimDispatches =>
    cases hc
    case mk hx =>
      exact h.congr hl hg (hx.unchanged Db.approvals fun _ _ _ _ => ClaimOne.approvals)
        (hx.unchanged Db.events fun _ _ _ _ => ClaimOne.events)
  case markDispatchSucceeded => cases hc <;> exact h.congr hl hg rfl rfl
  case markDispatchFailed    => cases hc <;> exact h.congr hl hg rfl rfl

theorem mem_pendingOf : row ∈ db.pendingOf e ↔
    db.approvals.find row.approvalId = some row ∧ row.executionId = e ∧ row.status = .pending := by
  simp [Db.pendingOf, Table.mem_rows_iff]

theorem Lifecycle.eq_singleton (h : Lifecycle statuses) (hh : statuses.head? = some status)
    (hl : statuses.getLast? = some status) : statuses = [status] := by
  have hn := h.nodup
  cases statuses
  case nil => cases hh
  case cons status' statuses =>
    cases hh
    cases statuses
    case nil  => rfl
    case cons =>
      rw [List.getLast?_cons_cons] at hl
      simp [List.mem_of_getLast? hl] at hn

namespace InStep

variable (h : InStep db log)
include h

theorem eq_of_mem_pendingOf (hm : row ∈ db.pendingOf e) (hm' : row' ∈ db.pendingOf e) : row = row' := by
  have ⟨hf, he, _⟩ := mem_pendingOf.mp hm
  have ⟨hf', he', _⟩ := mem_pendingOf.mp hm'
  have ha := h.unique hf hf' (he.trans he'.symm)
  rw [ha, hf'] at hf
  exact (Option.some.inj hf).symm

theorem pendingOf_length_le (e : String) : (db.pendingOf e).length ≤ 1 := by
  have hn : (db.pendingOf e).Nodup := (List.Nodup.of_map _ db.approvals.nodup).filter _
  match hp : db.pendingOf e with
  | [] | [_]         => simp
  | row :: row' :: _ =>
    have hm : row ∈ db.pendingOf e := by simp [hp]
    have hm' : row' ∈ db.pendingOf e := by simp [hp]
    simp [hp, h.eq_of_mem_pendingOf hm hm'] at hn

-- An execution that has been waiting since it was started has something to decide.
theorem pendingOf_of_waiting (hw : db.Waiting e) : (db.pendingOf e).length = 1 := by
  have hb : (db.statuses e).head? = some .approval := by rw [hw]; rfl
  obtain ⟨a, row, hf, rfl⟩ := h.asked hb
  have hp : row.status = .pending := by
    by_contra hp
    exact h.settled hf hp hw
  have hm : row ∈ db.pendingOf row.executionId := by
    rw [mem_pendingOf, Table.key_of_find hf]
    exact ⟨hf, rfl, hp⟩
  have := List.length_pos_of_mem hm
  have := h.pendingOf_length_le row.executionId
  omega

theorem pendingOf_of_not_began (hb : (db.statuses e).head? ≠ some .approval) : db.pendingOf e = [] := by
  rw [List.eq_nil_iff_forall_not_mem]
  intro row hm
  obtain ⟨hf, rfl, _⟩ := mem_pendingOf.mp hm
  exact hb <| h.began hf

theorem of_approval (hn : Entered db log) (hf : db.executions.find e = some row) (hs : row.status = .approval) :
    (db.pendingOf e).length = 1 ∨ MovedIn log e ∧ db.pendingOf e = [] := by
  have ha := h.ledger.accounts hf
  have hl : (db.statuses e).getLast? = some .approval := hs ▸ ha.current
  by_cases hb : (db.statuses e).head? = some .approval
  case pos => exact .inl <| h.pendingOf_of_waiting <| ha.lifecycle.eq_singleton hb hl
  case neg =>
    refine .inr ⟨hn.entered ?_, h.pendingOf_of_not_began hb⟩
    have hm := List.mem_of_getLast? hl
    cases hs : db.statuses e
    case nil  => simp [hs] at hm
    case cons =>
      rw [hs] at hm hb
      exact (List.mem_cons.mp hm).resolve_left fun he => hb <| he ▸ rfl

theorem of_not_approval (hf : db.executions.find e = some row) (hs : row.status ≠ .approval) :
    db.pendingOf e = [] ∨ MovedOut db log e := by
  cases hp : db.pendingOf e
  case nil          => exact .inl rfl
  case cons row' _ =>
    obtain ⟨hf', rfl, hs'⟩ := mem_pendingOf.mp (by simp [hp] : row' ∈ db.pendingOf e)
    exact .inr <| (h.pending hf' hs').resolve_left <| h.ledger.not_waiting hf hs

end InStep

-- Approvals and executions only get out of step when a `transition` or a `fail` moves an execution into
-- or out of `APPROVAL`.
theorem approvals_keep_in_step {s : platform.State} (h : Reachable (Guard.of .fresh fun _ _ => True) s)
    (hf : s.db.executions.find e = some row) :
    (¬MovedIn s.log e → ¬MovedOut s.db s.log e →
      (row.status = .approval ↔ (s.db.pendingOf e).length = 1) ∧
      (row.status ≠ .approval → s.db.pendingOf e = [])) ∧
    (s.db.pendingOf e).length ≤ 1 ∧
    (row.status = .approval → (s.db.pendingOf e).length = 1 ∨ MovedIn s.log e ∧ s.db.pendingOf e = []) ∧
    (row.status ≠ .approval → s.db.pendingOf e = [] ∨ MovedOut s.db s.log e) := by
  have ⟨clock, hs⟩ := h.atomic <| Guard.of_meets Premise.fresh_stable fun _ _ => True
  have hi : InStep s.db s.log := AtomicSteps.log_invariant hs .empty fun _ _ _ _ _ _ _ hc _ => .commit hc
  have hn : Entered s.db s.log := AtomicSteps.log_invariant hs .empty fun _ _ _ _ _ _ _ hc _ => .commit hc
  have ha := hi.of_approval hn hf
  have hn := hi.of_not_approval hf
  refine ⟨?_, hi.pendingOf_length_le e, ha, hn⟩
  intro hmi hmo
  have ha hs := (ha hs).resolve_right fun hm => hmi hm.left
  have hn hs := (hn hs).resolve_right hmo
  refine ⟨⟨ha, fun hl => ?_⟩, hn⟩
  by_contra hs
  simp [hn hs] at hl

def Call.isMove : Call → Bool
  | .transition _ _ _ _ => true
  | .fail _ _ _         => true
  | _                   => false

theorem Moved.isMove (h : Moved log e event) : true ∈ log.map (·.call.isMove) := by
  cases h
  case transition hm => exact List.mem_map_of_mem hm
  case fail hm       => exact List.mem_map_of_mem hm

open Sample in
theorem approvals_keep_in_step_gated :
    let s := reach (Guard.check .fresh fun _ _ => True) gated
    ∃ row, s.db.executions.find "e" = some row ∧ row.status = .approval ∧
      (row.status = .approval ↔ (s.db.pendingOf "e").length = 1) := by
  intro s
  obtain ⟨row, hf⟩ := Option.isSome_iff_exists.mp (by decide : (s.db.executions.find "e").isSome)
  have hs : (s.db.executions.find "e").map (·.status) = some .approval := by decide
  have hr : Reachable (Guard.of .fresh fun _ _ => True) s := reach_reachable fun _ _ _ => Guard.of_check
  have hn {event} : ¬Moved s.log "e" event := by
    intro hm
    have hl : s.log.map (·.call.isMove) = [false] := by decide
    simpa [hl] using hm.isMove
  have ⟨hi, _⟩ := (approvals_keep_in_step hr hf).left (fun ⟨_, hm, _⟩ => hn hm) fun ⟨_, _, hm, _⟩ => hn hm
  exact ⟨row, hf, by simpa [hf] using hs, hi⟩

def Sample.failed : platform.Code := do
  return .moved (← PostgresExecutionService.Process.fail "e" "worker" "")

open Sample in
-- When an execution fails while it waits, its approval can still be decided.
theorem approvals_do_not_keep_in_step :
    ∃ s : platform.State, Reachable (Guard.of .fresh fun _ _ => True) s ∧
      (s.db.executions.find "e").map (·.status) = some .failed ∧ (s.db.pendingOf "e").length = 1 := by
  refine ⟨reach (Guard.check .fresh fun _ _ => True) (gated ++ transact 1 failed 5 "" 5), ?_, ?_, ?_⟩
  · exact reach_reachable fun _ _ _ => Guard.of_check
  · decide +kernel
  · decide +kernel

end Logon
