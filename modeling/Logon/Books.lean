import Logon.Auditing
import Logon.Dispatch

-- The tables are books that can be written up from the calls that have committed, and from nothing else.

namespace Logon

open System

-- Rows without the columns that are written later, or whose values are generated.

def ExecutionRow.opened (r : ExecutionRow) : ExecutionRow :=
  { r with status := .intake, updatedAt := r.createdAt }

def DispatchRow.opened (r : DispatchRow) : DispatchRow :=
  .of r.executionId r.queueName r.createdAt

def AuditRow.plain (r : AuditRow) : AuditRow :=
  { r with auditId := "", tenantId := "", createdAt := 0 }

def ApprovalRow.plea (r : ApprovalRow) : ApprovalRow :=
  { r with approvalId := "", status := .pending, decidedBy := none, decidedAt := none, expiresAt := none, createdAt := 0 }

def AuditRow.expiry (r : AuditRow) : Bool :=
  r.action = "EXECUTION_APPROVAL_EXPIRED"

-- Expiries are only counted, as sweeps do not tell which ones they have found.
structure Books where
  tenants    : List String
  executions : List ExecutionRow
  keys       : List IdempotencyRow
  dispatches : List DispatchRow
  findings   : List AuditRow
  expiries   : Nat

def Db.books (db : Db) : Books where
  tenants    := db.tenants
  executions := db.executions.rows.map (·.opened)
  keys       := db.idempotency.rows
  dispatches := db.dispatches.rows.map (·.opened)
  findings   := (db.audit.rows.filter (¬·.expiry)).map (·.plain)
  expiries   := db.audit.rows.countP (·.expiry)

-- What a request that is started says to the audit.
def ExecutionRequest.check (request : ExecutionRequest) : AuditRow where
  auditId     := ""
  executionId := request.identity.executionId
  tenantId    := ""
  action      := "EXECUTION_POLICY_CHECK"
  actorId     := request.identity.actorId
  allowed     := (evaluateExecutionPolicy request).allowed
  reason      := (evaluateExecutionPolicy request).reason
  createdAt   := 0

def ApprovalDecision.finding (decision : ApprovalDecision) : AuditRow where
  auditId     := ""
  executionId := decision.executionId
  tenantId    := ""
  action      := "EXECUTION_APPROVAL_DECISION"
  actorId     := decision.decidedBy
  allowed     := decision.status = .approved
  reason      := decision.reason.getD ("Approval " ++ decision.status.lowerText)
  createdAt   := 0

namespace Books

def empty : Books :=
  ⟨[], [], [], [], [], 0⟩

def withTenant (b : Books) (t : String) : Books :=
  { b with tenants := if t ∈ b.tenants then b.tenants else b.tenants ++ [t] }

def dispatch (b : Books) (e : String) (now : Time) : Books :=
  { b with dispatches := b.dispatches ++ [.of e "logon.execution" now] }

-- A new execution, which is dispatched at once if nothing stands against it.
def found (b : Books) (request : ExecutionRequest) (now : Time) : Books :=
  let b : Books := { b with
    executions := b.executions ++ [.of request .intake (request.createdAt.timestamptz.getD 0)]
    findings   := b.findings ++ [request.check] }
  if (evaluateExecutionPolicy request).status = .intake then b.dispatch request.identity.executionId now else b

def decide (b : Books) (decision : ApprovalDecision) (now : Time) : Books :=
  let b : Books := { b with findings := b.findings ++ [decision.finding] }
  if decision.status = .approved then b.dispatch decision.executionId now else b

-- What a call that has committed adds.
def enter (b : Books) : platform.Commit → Books
  | ⟨_, .start request requestHash options, result, now⟩ =>
    let b := b.withTenant request.identity.tenantId
    if result.reused then b else
      let b := b.found request now
      { b with keys := b.keys ++ (options.key.map fun key =>
          ⟨request.identity.tenantId, key, request.identity.executionId, requestHash, now⟩).toList }
  | ⟨_, .decideApproval decision, ⟨some _, _⟩, now⟩ => b.decide decision now
  | ⟨_, .decideApproval _, ⟨none, _⟩, _⟩            => { b with expiries := b.expiries + 1 }
  | ⟨_, .expireApprovalsOnce _, result, _⟩          => { b with expiries := b.expiries + result.rejected }
  | _                                               => b

end Books

-- The approval that a request asks for
def ExecutionRequest.plea (request : ExecutionRequest) : ApprovalRow where
  approvalId  := ""
  executionId := request.identity.executionId
  tenantId    := request.identity.tenantId
  requestedBy := request.identity.actorId
  status      := .pending
  reason      := (evaluateExecutionPolicy request).reason
  decidedBy   := none
  decidedAt   := none
  expiresAt   := none
  createdAt   := 0

-- A call asks for an approval, but does not get one if its generated id is in use.
def pleaOf : platform.Commit → Option ApprovalRow
  | ⟨_, .start request _ _, result, _⟩ =>
    if result.reused ∨ (evaluateExecutionPolicy request).status ≠ .approval then none else some request.plea
  | _ => none

section
variable {P : Premise} {now : Time} {db db' : Db} {e : String}

theorem Advance.books (h : Advance now db event db') : db'.books = db.books := by
  cases h
  simp only [Db.books, Db.advance]
  rw [Table.map_rows_modify]
  exact fun _ => rfl

theorem Expire.books (h : Expire P now a db row db') : db'.books = db.books := by
  cases h <;> rfl

theorem ClaimOne.books (h : ClaimOne P now leaseMs e db row db') : db'.books = db.books := by
  cases h
  case none => rfl
  case some =>
    simp only [Db.books, Db.claimDispatch]
    rw [Table.map_rows_modify]
    exact fun _ => rfl

theorem MarkSucceeded.books (h : MarkSucceeded P now e db db') : db'.books = db.books := by
  cases h
  case none => rfl
  case some =>
    simp only [Db.books, Db.succeedDispatch]
    rw [Table.map_rows_modify]
    exact fun _ => rfl

theorem MarkFailed.books (h : MarkFailed P now e error db db') : db'.books = db.books := by
  cases h
  case none => rfl
  case some =>
    simp only [Db.books, Db.failDispatch]
    rw [Table.map_rows_modify]
    exact fun _ => rfl

theorem Audit.books (h : Audit P now db e tenantId action actorId allowed reason db') :
    db'.books = if action = "EXECUTION_APPROVAL_EXPIRED" then { db.books with expiries := db.books.expiries + 1 }
      else { db.books with findings := db.books.findings ++ [⟨"", e, "", action, actorId, allowed, reason, 0⟩] } := by
  cases h
  case mk hn =>
    simp only [Db.books, Db.addAudit]
    rw [Table.rows_insert_new hn]
    split
    case isTrue he  => simp [he, AuditRow.expiry]
    case isFalse he => simp [he, AuditRow.expiry, AuditRow.plain]

theorem Reject.books (h : Reject P now e a db db') : db'.books = { db.books with expiries := db.books.expiries + 1 } := by
  cases h
  case mk hv hu => rw [hu.books, if_pos rfl, hv.books]

theorem RejectAll.books (h : RejectAll P now db claims rejected skipped db') :
    db'.books = { db.books with expiries := db.books.expiries + rejected } := by
  induction h
  case nil         => rfl
  case skip ih     => exact ih
  case reject hr _ ih =>
    simp only [ih, hr.books, Books.mk.injEq, true_and]
    omega

theorem Db.books_addDispatch (hn : db.dispatches.find e = none) :
    (db.addDispatch e now).books = db.books.dispatch e now := by
  simp only [Db.books, Db.addDispatch, Books.dispatch]
  rw [Table.rows_insert_new hn, List.map_append]
  rfl

-- The approvals that have been asked for.
def Db.pleas (db : Db) : List ApprovalRow :=
  db.approvals.rows.map (·.plea)

-- Only executions that have begun with `APPROVAL` have approvals.
def Db.AsksFirst (db : Db) : Prop :=
  ∀ plea ∈ db.pleas, (db.statuses plea.executionId).head? = some .approval

-- So there is no dispatch yet when they are approved.
theorem Open.find_dispatch {decision : ApprovalDecision} (ho : Open decision db execution row) (h : Held db)
    (ha : db.AsksFirst) : db.dispatches.find decision.executionId = none := by
  have hh : (db.statuses row.executionId).head? = some .approval :=
    ha row.plea <| List.mem_map_of_mem <| Table.mem_of_find ho.findApproval
  rw [ho.bound] at hh
  have hacc := h.ledger.accounts ho.findExecution
  by_contra hd
  obtain hi | hal := (h.dispatched _).mp <| Option.isSome_iff_ne_none.mpr hd
  · cases hi.symm.trans hh
  · exact absurd (hacc.lifecycle.rank_le_last (ho.status ▸ hacc.current) <| h.executed _ hal) (by decide)

theorem Decide.books {decision : ApprovalDecision} (h : Decide P now decision db outcome db') (hh : Held db)
    (ha : db.AsksFirst) : db'.books = db.books.enter ⟨pid, .decideApproval decision, outcome, now⟩ := by
  cases h
  case expired hr => exact hr.books
  case decided execution row n db₁ db₂ db₃ ho _ hd hv hs hu =>
    have hn := ho.find_dispatch hh ha
    have hn₂ : db₂.dispatches.find decision.executionId = none := by
      cases hv
      rw [hd]
      exact hn
    have hb₂ : db₂.books = db.books := by
      rw [hv.books, hd]
      rfl
    rw [hu.books, if_neg (by decide)]
    obtain ⟨hr, rfl⟩ | ⟨hp, -, rfl⟩ | ⟨-, hf, -⟩ := hs
    case inl       => simp [Books.enter, Books.decide, hr, hb₂, ApprovalDecision.finding]
    case inr.inl   => simp [Books.enter, Books.decide, hp, hb₂, Db.books_addDispatch hn₂, Books.dispatch, ApprovalDecision.finding]
    case inr.inr   => simp [hn₂] at hf

theorem Create.books {request : ExecutionRequest} (h : Create P now request db event db') (hh : Held db) :
    db'.books = db.books.found request now := by
  cases h
  case mk c t db₁ _ hf _ hc hn ha hu =>
    have hd : db.dispatches.find request.identity.executionId = none := by
      by_contra hd
      have hs : db.statuses request.identity.executionId = [] := hh.ledger.statuses_eq_nil hf
      obtain hi | hal := (hh.dispatched _).mp <| Option.isSome_iff_ne_none.mpr hd
      · simp [hs] at hi
      · simpa [hs] using hh.executed _ hal
    have hx : (db.addExecution request (createdEvent request (.iso t)) c t).books = { db.books with
        executions := db.books.executions ++ [.of request .intake (request.createdAt.timestamptz.getD 0)] } := by
      simp only [Db.books, Db.addExecution]
      rw [Table.rows_insert_new hf, List.map_append, hc]
      rfl
    rw [hu.books, if_neg (by decide), Books.found]
    cases ha
    case dispatch hs hd =>
      rw [if_pos hs, Db.books_addDispatch hd, hx]
      rfl
    case dispatched _ hf => exact absurd hd <| Option.isSome_iff_ne_none.mp hf
    all_goals
      rw [if_neg (by simp [*])]
      exact congrArg (fun b : Books => { b with findings := b.findings ++ [request.check] }) hx

theorem Db.pleas_setApproval : (db.setApproval a status decidedBy t).pleas = db.pleas := by
  rw [Db.pleas, Db.setApproval_approvals, Table.map_rows_modify]
  · rfl
  · exact fun _ => rfl

theorem Expire.pleas (h : Expire P now a db row db') : db'.pleas = db.pleas := by
  cases h
  case none => rfl
  case some => exact Db.pleas_setApproval

theorem Decide.pleas {decision : ApprovalDecision} (h : Decide P now decision db outcome db') : db'.pleas = db.pleas := by
  obtain ⟨_, _, _, _, -, -, -, ha⟩ := h.approvals
  exact (congrArg (·.rows.map ApprovalRow.plea) ha).trans Db.pleas_setApproval

theorem Db.Appends.isPrefix {kind : ExecutionStatus → Prop} (h : db.Appends db' e kind) :
    db.statuses e <+: db'.statuses e := by
  obtain ⟨later, hs, -⟩ := h
  exact ⟨later, hs.symm⟩

theorem head?_of_isPrefix {l l' : List α} (h : l <+: l') (hl : l.head? = some a) : l'.head? = some a :=
  List.singleton_prefix_iff_head?_eq_some.mp <| (List.singleton_prefix_iff_head?_eq_some.mpr hl).trans h

theorem Db.AsksFirst.grow (h : db.AsksFirst) (hs : ∀ e, db.statuses e <+: db'.statuses e) (hp : db'.pleas = db.pleas) :
    db'.AsksFirst := by
  intro plea hm
  rw [hp] at hm
  exact head?_of_isPrefix (hs _) <| h plea hm

-- Each audit record is in the name of the tenant of its execution.
def Db.Attributed (db : Db) : Prop :=
  ∀ row ∈ db.audit.rows, db.Owns row.tenantId row.executionId

theorem Db.Attributed.grow (h : db.Attributed) (hg : db.Grows db') (ha : db'.audit = db.audit) : db'.Attributed := by
  intro row hm
  rw [ha] at hm
  exact (h row hm).mono hg

theorem Audit.attributed (h : Audit P now db e tenantId action actorId allowed reason db') (ha : db.Attributed)
    (ho : db.Owns tenantId e) : db'.Attributed := by
  cases h
  exact Table.forall_insert ha ho

theorem Advance.grows (h : Advance now db event db') : db.Grows db' := by
  cases h
  exact db.grows_advance ..

theorem Reject.attributed (h : Reject P now e a db db') (ha : db.Attributed) : db'.Attributed := by
  cases h
  case mk row n t db₁ hf hv hu =>
    exact hu.attributed (ha.grow hv.grows hv.approvals.right) <| Db.Owns.mono hv.grows ⟨row, hf, rfl⟩

theorem RejectAll.attributed (h : RejectAll P now db claims rejected skipped db') (ha : db.Attributed) : db'.Attributed := by
  induction h
  case nil            => exact ha
  case skip ih        => exact ih ha
  case reject hr _ ih => exact ih <| hr.attributed ha

theorem Decide.attributed {decision : ApprovalDecision} (h : Decide P now decision db outcome db') (ha : db.Attributed) :
    db'.Attributed := by
  cases h
  case expired hr => exact hr.attributed ha
  case decided execution row n db₁ db₂ db₃ ho _ hd hv hs hu =>
    have ho₁ : db₁.Owns execution.tenantId decision.executionId := hd ▸ ho.owns
    have ha₂ : db₂.Attributed := (hd ▸ ha : db₁.Attributed).grow hv.grows hv.approvals.right
    have ho₂ := ho₁.mono hv.grows
    obtain ⟨-, rfl⟩ | ⟨-, -, rfl⟩ | ⟨-, -, rfl⟩ := hs
    all_goals exact hu.attributed ha₂ ho₂

theorem Create.attributed {request : ExecutionRequest} (h : Create P now request db event db') (ha : db.Attributed) :
    db'.Attributed := by
  cases h
  case mk c t db₁ _ hf _ _ _ hw hu =>
    have hx : db₁.executions = db.executions.insert (.of request (evaluateExecutionPolicy request).status c) :=
      hw.executions
    have keeps {t' e'} (ho : db.Owns t' e') : db₁.Owns t' e' := by
      obtain ⟨row, hr, ht⟩ := ho
      exact ⟨row, hx ▸ Table.find_insert_of_some hr, ht⟩
    have hau : db₁.audit = db.audit := hw.audit
    refine hu.attributed (fun row hm => keeps <| ha row (hau ▸ hm)) ⟨_, hx ▸ Table.find_insert_new hf, rfl⟩

-- The approvals after an execution is created.
theorem Create.pleas {request : ExecutionRequest} (h : Create P now request db event db') :
    db'.pleas = db.pleas ∨
      (evaluateExecutionPolicy request).status = .approval ∧ db'.pleas = db.pleas ++ [request.plea] := by
  cases h
  case mk hw hu =>
    cases hw
    case approval hs _ _ _ hn =>
      refine .inr ⟨hs, ?_⟩
      cases hu
      simp only [Db.pleas, Db.addAudit_approvals, Db.addApproval_approvals]
      rw [Table.rows_insert_new hn, List.map_append]
      rfl
    all_goals
      cases hu
      exact .inl rfl

theorem Create.asksFirst {request : ExecutionRequest} (h : Create P now request db event db') (hl : db.Ledger)
    (ha : db.AsksFirst) : db'.AsksFirst := by
  obtain hp | ⟨hs, hp⟩ := h.pleas
  case inl => exact ha.grow (fun _ => h.appends.isPrefix) hp
  case inr =>
    intro p hm
    rw [hp, List.mem_append, List.mem_singleton] at hm
    obtain hm | rfl := hm
    · exact head?_of_isPrefix h.appends.isPrefix <| ha p hm
    · have hn : db.eventsOf request.identity.executionId = [] := by
        cases h
        case mk hf _ _ _ _ _ => exact hl.orphans hf
      exact (congrArg List.head? (h.statuses hn)).trans (congrArg some hs)

-- What holds of the database and the calls that have committed
structure Booked (db : Db) (log : List platform.Commit) : Prop where
  held       : Held db
  asks       : db.AsksFirst
  attributed : db.Attributed
  pleas      : db.pleas.Sublist (log.filterMap pleaOf)
  books      : db.books = log.foldl Books.enter .empty

namespace Booked

variable {log : List platform.Commit} {c : Call} {r : c.Result}

theorem empty : Booked Db.empty [] where
  held       := .empty
  asks       := List.forall_mem_nil _
  attributed := List.forall_mem_nil _
  pleas      := .slnil
  books      := rfl

-- What most calls do: no approval is asked for.
theorem same {entry : platform.Commit} (h : Booked db log) (hh : Held db') (hs : ∀ e, db.statuses e <+: db'.statuses e)
    (hp : db'.pleas = db.pleas) (ha : db'.Attributed) (hb : db'.books = db.books.enter entry) :
    Booked db' (log ++ [entry]) where
  held       := hh
  asks       := h.asks.grow hs hp
  attributed := ha
  pleas      := by
    rw [hp, List.filterMap_append]
    exact h.pleas.trans <| List.sublist_append_left ..
  books      := by
    rw [List.foldl_append, ← h.books, hb]
    rfl

theorem start {request : ExecutionRequest} {options : StartExecutionOptions} {result : StartExecutionResult}
    (h : Booked db log) (hh : Held db') (hc : Start P now request requestHash options db result db') :
    Booked db' (log ++ [⟨pid, .start request requestHash options, result, now⟩]) := by
  have hw : Held (db.withTenant request.identity.tenantId) :=
    h.held.congr (h.held.ledger.change (.tenant : Change P now _ _)) rfl (fun _ => rfl) rfl
  have hbw : (db.withTenant request.identity.tenantId).books = db.books.withTenant request.identity.tenantId := rfl
  have haw : (db.withTenant request.identity.tenantId).AsksFirst := h.asks
  have htw : (db.withTenant request.identity.tenantId).Attributed := h.attributed
  have pleas {event : ExecutionEvent} {db₁ : Db}
      (hc : Create P now request (db.withTenant request.identity.tenantId) event db₁) :
      let entry : platform.Commit := ⟨pid, .start request requestHash options, ⟨event, false⟩, now⟩
      db₁.pleas.Sublist ((log ++ [entry]).filterMap pleaOf) := by
    intro entry
    rw [List.filterMap_append]
    obtain hp | ⟨hs, hp⟩ := hc.pleas
    · exact hp ▸ h.pleas.trans (List.sublist_append_left ..)
    · have ha : pleaOf entry = some request.plea := by
        simp [entry, pleaOf, hs]
      rw [hp, List.filterMap_cons_some ha]
      exact h.pleas.append_right _
  cases hc
  case reused => exact h.same hh (fun _ => List.prefix_refl _) rfl htw rfl
  case unkeyed hk hc =>
    refine ⟨hh, hc.asksFirst hw.ledger haw, hc.attributed htw, pleas hc, ?_⟩
    rw [List.foldl_append, ← h.books, hc.books hw, hbw]
    simp [Books.enter, hk]
  case keyed key _ db₁ hk hn hc =>
    have hp : db₁.pleas.Sublist _ := pleas hc
    refine ⟨hh, hc.asksFirst hw.ledger haw, hc.attributed htw, hp, ?_⟩
    have hn₁ : db₁.idempotency.find (request.identity.tenantId, key) = none := by
      rw [hc.idempotency]
      exact hn
    have hb : (db₁.addIdempotency ⟨request.identity.tenantId, key, request.identity.executionId, requestHash, now⟩).books =
        { db₁.books with keys := db₁.books.keys ++
          [⟨request.identity.tenantId, key, request.identity.executionId, requestHash, now⟩] } := by
      simp only [Db.books, Db.addIdempotency]
      rw [Table.rows_insert_new hn₁]
    rw [List.foldl_append, ← h.books, hb, hc.books hw, hbw]
    simp [Books.enter, hk]

theorem commit (h : Booked db log) (hc : c.Commits P now db r db') (hg : db.Grows db') :
    Booked db' (log ++ [⟨pid, c, r, now⟩]) := by
  have hh := hc.held h.held
  have hs e : db.statuses e <+: db'.statuses e := hc.appends.isPrefix
  cases c
  case start => exact h.start hh hc
  case decideApproval =>
    exact h.same hh hs (Decide.pleas hc) (Decide.attributed hc h.attributed) <| Decide.books hc h.held h.asks
  case expireApprovalsOnce =>
    cases hc
    case mk db₁ _ _ _ _ hx hr =>
      have hb : db₁.books = db.books := hx.unchanged Db.books fun _ _ _ _ => Expire.books
      have hp : db₁.pleas = db.pleas := hx.unchanged Db.pleas fun _ _ _ _ => Expire.pleas
      have ha : db₁.Attributed := by
        have he : db₁.executions = db.executions := hx.unchanged Db.executions fun _ _ _ _ h => by cases h <;> rfl
        intro row hm
        rw [hx.unchanged Db.audit fun _ _ _ _ => Expire.audit] at hm
        exact (h.attributed row hm).congr he
      refine h.same hh hs ?_ (hr.attributed ha) ?_
      · rw [← hp]
        exact hr.unchanged Db.pleas fun hr => congrArg (·.rows.map ApprovalRow.plea) hr.approvals
      · rw [hr.books, hb]
        rfl
  case transition =>
    have hv := hc.right.approvals
    exact h.same hh hs (congrArg (·.rows.map ApprovalRow.plea) hv.left) (h.attributed.grow hg hv.right) hc.right.books
  case fail =>
    have hv := hc.right.approvals
    exact h.same hh hs (congrArg (·.rows.map ApprovalRow.plea) hv.left) (h.attributed.grow hg hv.right) hc.right.books
  case claimDispatches =>
    cases hc
    case mk hx =>
      exact h.same hh hs (hx.unchanged Db.pleas fun _ _ _ _ h => congrArg (·.rows.map ApprovalRow.plea) h.approvals)
        (h.attributed.grow hg <| hx.unchanged Db.audit fun _ _ _ _ => ClaimOne.audit)
        (hx.unchanged Db.books fun _ _ _ _ => ClaimOne.books)
  case markDispatchSucceeded =>
    have hb := MarkSucceeded.books hc
    refine h.same hh hs ?_ (h.attributed.grow hg ?_) hb
    all_goals cases hc <;> rfl
  case markDispatchFailed    =>
    have hb := MarkFailed.books hc
    refine h.same hh hs ?_ (h.attributed.grow hg ?_) hb
    all_goals cases hc <;> rfl

end Booked
end

variable {G : Guard} {s : platform.State}

theorem Reachable.booked (h : Reachable G s) : Booked s.db s.log := by
  have ⟨_, hs⟩ := h.atomic G.meets_none
  exact AtomicSteps.log_invariant (Q := Booked) hs .empty fun _ _ _ _ _ _ _ hc hg hb => hb.commit hc hg

-- The calls that have committed determine the tables but for what is generated, and no table holds anything else.
theorem tables_are_books (h : Reachable G s) :
    s.db.books = s.log.foldl Books.enter .empty ∧ s.db.pleas.Sublist (s.log.filterMap pleaOf) ∧ s.db.Attributed :=
  ⟨h.booked.books, h.booked.pleas, h.booked.attributed⟩

open Sample in
-- Both of two decisions are begun, but only one is entered.
theorem tables_are_books_contended :
    let s := reach unchecked <| gated ++ [.spawn 1 decided, .spawn 2 decided, .begin 1, .begin 2] ++
      List.replicate 11 (.stmt 1 (ambient 5 "y")) ++ [.commit 1, .stmt 2 (ambient 5 "z"), .rollback 2]
    (s.db.books.findings.map (·.action) = ["EXECUTION_POLICY_CHECK", "EXECUTION_APPROVAL_DECISION"] ∧
      s.db.books.dispatches.length = 1) ∧
      s.db.books = s.log.foldl Books.enter .empty ∧ s.db.pleas.Sublist (s.log.filterMap pleaOf) ∧ s.db.Attributed :=
  ⟨by decide +kernel, tables_are_books (G := Guard.any) (reach_reachable fun _ _ _ _ => trivial)⟩

end Logon
