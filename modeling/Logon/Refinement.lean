import Logon.Cases
import Logon.Outbox

-- The platform refines the machine of cases: whatever is interleaved, each execution goes through its steps.

namespace Logon

open System PostgresExecutionService

-- An execution as the database and the queue have it.
def caseOf (db : Db) (q : Queue) (e : String) : Case where
  toFile   := db.file e
  dispatch := (db.dispatches.find e).map (·.status)
  queued   := q.Has e

namespace Case

variable {file : File} {dispatched : Bool}

theorem Shape.of_nil (h : Shape file dispatched) (hn : file.statuses = []) : file = ⟨[], [], []⟩ ∧ dispatched = false := by
  cases h <;> first | exact ⟨rfl, rfl⟩ | cases hn

-- An execution that is in `APPROVAL` since the beginning, or has come to it by a transition.
theorem Shape.of_approval (h : Shape file dispatched) (hl : Lifecycle file.statuses)
    (hc : file.statuses.getLast? = some .approval) (hv : file.verdicts ≠ []) :
    file = ⟨[.approval], [.pending], [checkFinding .approval]⟩ ∧ dispatched = false := by
  have one {status later} (hs : file.statuses = .approval :: status :: later) : False := by
    have := List.eq_singleton_of_nodup hl.nodup (by rw [hs]; rfl) hc
    simp [this] at hs
  cases h
  case absent  => cases hc
  case takenIn => exact absurd rfl hv
  case refused => exact absurd rfl hv
  case unasked => exact absurd rfl hv
  case waiting => exact ⟨rfl, rfl⟩
  case left    => exact (one rfl).elim
  case decided => exact (one rfl).elim
  case lapsed  => exact (one rfl).elim

theorem Shape.of_verdict (h : Shape file dispatched) (hv : file.verdicts = [verdict])
    (hc : file.statuses.getLast? ≠ some .approval) :
    ∃ status later, file = ⟨.approval :: status :: later, [verdict], file.findings⟩ := by
  cases h
  case absent  => cases hv
  case takenIn => cases hv
  case refused => cases hv
  case unasked => cases hv
  case waiting => exact absurd rfl hc
  case left    => cases hv; exact ⟨_, _, rfl⟩
  case decided => cases hv; exact ⟨_, _, rfl⟩
  case lapsed  => cases hv; exact ⟨_, _, rfl⟩

theorem Sound.eq_of_idle {c : Case} (h : c.Sound) (hf : c.toFile = file) (hd : c.dispatch.isSome = false) :
    c = ⟨file, none, false⟩ := by
  have hq : c.queued = false := by
    by_contra hq
    simpa [hd] using h.queued <| eq_true_of_ne_false hq
  obtain ⟨_, dispatch, queued⟩ := c
  cases dispatch
  case none   => simp_all
  case some _ => cases hd

theorem Shape.verdicts_length (h : Shape file dispatched) : file.verdicts.length ≤ 1 := by
  cases h <;> simp

end Case

section
variable {P : Premise} {now : Time} {db db' : Db} {q : Queue} {e : String}

theorem caseOf_congr (hf : db'.file e = db.file e) (hd : db'.dispatches.find e = db.dispatches.find e) :
    caseOf db' q e = caseOf db q e := by
  simp only [caseOf, hf, hd]

theorem caseOf_refl (hf : db'.file e = db.file e) (hd : db'.dispatches.find e = db.dispatches.find e) :
    Case.Steps (caseOf db q e) (caseOf db' q e) := by
  rw [caseOf_congr hf hd]

-- What is dispatched along with an execution that is created
theorem AwaitOrDispatch.find_dispatch {request : ExecutionRequest} {decision : PolicyDecision}
    (h : AwaitOrDispatch P now request decision db db') :
    (e ≠ request.identity.executionId → db'.dispatches.find e = db.dispatches.find e) ∧
    (e = request.identity.executionId → db.dispatches.find e = none →
      (db'.dispatches.find e).map (·.status) = if decision.status = .intake then some .pending else none) := by
  cases h
  case approval hs _ _ _ _  => exact ⟨fun _ => rfl, fun _ hn => by simp [hs, hn]⟩
  case collision hs _ _ _   => exact ⟨fun _ => rfl, fun _ hn => by simp [hs, hn]⟩
  case rejected hs          => exact ⟨fun _ => rfl, fun _ hn => by simp [hs, hn]⟩
  case dispatch hs _        =>
    refine ⟨fun hn => Table.find_insert_ne _ hn, ?_⟩
    rintro rfl hn
    have hf : (db.dispatches.insert (.of request.identity.executionId "logon.execution" now)).find
        request.identity.executionId = some _ := Table.find_insert_new hn
    simp [hs, hf]
  case dispatched hs hf     =>
    refine ⟨fun _ => rfl, ?_⟩
    rintro rfl hn
    simp [hn] at hf

theorem Create.find_dispatch {request : ExecutionRequest} (h : Create P now request db event db') :
    (e ≠ request.identity.executionId → db'.dispatches.find e = db.dispatches.find e) ∧
    (e = request.identity.executionId → db.dispatches.find e = none →
      (db'.dispatches.find e).map (·.status) =
        if (evaluateExecutionPolicy request).status = .intake then some .pending else none) := by
  cases h
  case mk ha hu =>
    cases hu
    exact ha.find_dispatch

-- An execution of which there is nothing on file
theorem caseOf_eq_absent (hs : (caseOf db q e).Sound) (hn : db.statuses e = []) : caseOf db q e = .absent :=
  have ⟨hf, hd⟩ := hs.shape.of_nil hn
  hs.eq_of_idle hf hd

-- An execution that waits for its approval
theorem caseOf_eq_waiting (hs : (caseOf db q e).Sound) (hl : db.Ledger) (hf : db.executions.find e = some row)
    (hr : row.status = .approval) (hv : (db.file e).verdicts ≠ []) :
    caseOf db q e = ⟨⟨[.approval], [.pending], [checkFinding .approval]⟩, none, false⟩ :=
  have ha := hl.accounts hf
  have ⟨hf, hd⟩ := hs.shape.of_approval ha.lifecycle (hr ▸ ha.current) hv
  hs.eq_of_idle hf hd

theorem Create.case_steps {request : ExecutionRequest} (h : Create P now request db event db') (hl : db.Ledger)
    (hs : (caseOf db q e).Sound) : Case.Steps (caseOf db q e) (caseOf db' q e) := by
  obtain ⟨hne, hd⟩ := h.find_dispatch (e := e)
  by_cases he : e = request.identity.executionId
  case neg => exact caseOf_refl (h.file_ne he) (hne he)
  case pos =>
    have hn : db.statuses e = [] := by
      cases h
      case mk hf _ _ _ _ _ => exact hl.statuses_eq_nil <| he ▸ hf
    have ha := caseOf_eq_absent hs hn
    have hf : db.file e = ⟨[], [], []⟩ := congrArg Case.toFile ha
    have hdn : db.dispatches.find e = none := Option.map_eq_none_iff.mp <| congrArg Case.dispatch ha
    have hq : decide (q.Has e) = false := congrArg Case.queued ha
    obtain ⟨asked, hasked, hf'⟩ := h.file hl (he ▸ hf)
    have hc : caseOf db' q e = ⟨⟨[(evaluateExecutionPolicy request).status], if asked then [.pending] else [],
        [checkFinding (evaluateExecutionPolicy request).status]⟩,
        if (evaluateExecutionPolicy request).status = .intake then some .pending else none, false⟩ := by
      rw [caseOf, hd he hdn, he, hf', ← he, hq]
    rw [ha, hc]
    exact .single <| .opened (PolicyDecision.status_initial _) hasked

theorem Start.case_steps {request : ExecutionRequest} (h : Start P now request digest options db result db')
    (hl : db.Ledger) (hs : (caseOf db q e).Sound) : Case.Steps (caseOf db q e) (caseOf db' q e) := by
  have hl' : (db.withTenant request.identity.tenantId).Ledger := hl.congr (by rfl) (by rfl)
  have hs' : (caseOf (db.withTenant request.identity.tenantId) q e).Sound := hs
  cases h
  case unkeyed hc => exact hc.case_steps hl' hs'
  case reused     => exact .refl
  case keyed hc   => exact hc.case_steps hl' hs'

theorem Advance.dispatches (h : Advance now db event db') : db'.dispatches = db.dispatches := by
  cases h
  rfl

theorem Advance.case_steps (h : Advance now db event db') (hl : db.Ledger) :
    Case.Steps (caseOf db q e) (caseOf db' q e) := by
  by_cases he : e = event.executionId
  case neg => exact caseOf_refl (h.file_ne he) (by rw [h.dispatches])
  case pos =>
    subst he
    obtain ⟨last, hs, hc⟩ : ∃ last, (db.statuses event.executionId).getLast? = some last ∧
        last.canTransition event.status := by
      cases h
      case mk row _ hf hc _ _ _ => exact ⟨_, (hl.accounts hf).current, hc⟩
    rw [caseOf, caseOf, h.file, h.dispatches]
    exact .single <| .moved hs hc

theorem Reject.file (h : Reject P now e a db db') :
    db'.file e = ⟨(db.file e).statuses ++ [.rejected], (db.file e).verdicts, (db.file e).findings ++ [expiryFinding]⟩ := by
  cases h
  case mk hv hu =>
    rw [hu.file e, hv.file]
    simp [expiryFinding]

theorem Reject.file_ne (h : Reject P now e' a db db') (hn : e ≠ e') : db'.file e = db.file e := by
  cases h
  case mk hv hu =>
    rw [hu.file e, hv.file_ne hn]
    simp [hn.symm]

theorem Db.verdicts_ne_nil (hf : db.approvals.find a = some row) : (db.file row.executionId).verdicts ≠ [] := by
  have hm : row ∈ db.approvalsOf row.executionId := List.mem_filter.mpr ⟨Table.mem_of_find hf, by simp⟩
  simpa [Db.file] using List.ne_nil_of_mem hm

theorem Audit.dispatches (h : Audit P now db e tenantId action actorId allowed reason db') :
    db'.dispatches = db.dispatches := by
  cases h
  rfl

-- What is dispatched along with a decision
theorem dispatched_of_decided {db₀ : Db} {decision : ApprovalDecision} (hd : db.dispatches = db₀.dispatches)
    (h : decision.status = .rejected ∧ db' = db ∨
      decision.status = .approved ∧ db.dispatches.find decision.executionId = none ∧
        db' = db.addDispatch decision.executionId now ∨
      decision.status = .approved ∧ (db.dispatches.find decision.executionId).isSome ∧ db' = db) :
    db'.file e = db.file e ∧ (e ≠ decision.executionId → db'.dispatches.find e = db₀.dispatches.find e) ∧
    (e = decision.executionId → db₀.dispatches.find e = none →
      (db'.dispatches.find e).map (·.status) = if decision.status = .approved then some .pending else none) := by
  rw [hd] at h
  obtain ⟨hs, rfl⟩ | ⟨hs, hf, rfl⟩ | ⟨hs, hf, rfl⟩ := h
  · exact ⟨rfl, fun _ => by rw [hd], fun _ hn => by simp [hd, hs, hn]⟩
  · refine ⟨rfl, ?_, ?_⟩
    · intro hn
      have hf : (db.dispatches.insert (.of decision.executionId "logon.execution" now)).find e = _ :=
        Table.find_insert_ne _ hn
      rw [Db.addDispatch_dispatches, hf, hd]
    · rintro rfl hn
      have hf : (db.dispatches.insert (.of decision.executionId "logon.execution" now)).find decision.executionId =
          some _ := Table.find_insert_new (hd ▸ hn)
      simp [hs, hf]
  · refine ⟨rfl, fun _ => by rw [hd], ?_⟩
    rintro rfl hn
    simp [hn] at hf

theorem Decide.case_steps {decision : ApprovalDecision} (h : Decide P now decision db outcome db') (hl : db.Ledger)
    (hs : (caseOf db q e).Sound) : Case.Steps (caseOf db q e) (caseOf db' q e) := by
  by_cases he : e = decision.executionId
  case neg =>
    cases h
    case expired ho _ _ _ hr =>
      have hf := (hr.file_ne he).trans <| Db.file_setApproval_ne ho.findApproval (ho.bound ▸ he) ..
      exact caseOf_refl hf (by rw [hr.dispatches, Db.setApproval_dispatches])
    case decided ho _ hd hv hdi hu =>
      subst hd
      obtain ⟨hf, hx, -⟩ := @dispatched_of_decided _ _ _ e _ _ hv.dispatches hdi
      refine caseOf_refl ?_ ?_
      · rw [hu.file, hf, hv.file_ne he, Db.file_setApproval_ne ho.findApproval (ho.bound ▸ he)]
        simp [Ne.symm he]
      · rw [hu.dispatches, hx he, Db.setApproval_dispatches]
  case pos =>
    subst he
    have waiting {execution row} (ho : Open decision db execution row) :
        caseOf db q decision.executionId = ⟨⟨[.approval], [.pending], [checkFinding .approval]⟩, none, false⟩ :=
      caseOf_eq_waiting hs hl ho.findExecution ho.status (ho.bound ▸ Db.verdicts_ne_nil ho.findApproval)
    have set {execution row} (ho : Open decision db execution row) (status : ApprovalStatus) (decidedBy : String) (t : Time) :
        (db.setApproval decision.approvalId status decidedBy t).file decision.executionId =
          ⟨[.approval], [status], [checkFinding .approval]⟩ := by
      have hf : db.file decision.executionId = _ := congrArg Case.toFile (waiting ho)
      have hset := (Db.file_setApproval ho.findApproval (ho.bound ▸ congrArg File.verdicts hf) status decidedBy t).right
      rwa [ho.bound, hf] at hset
    cases h
    case expired ho _ _ _ hr =>
      have hc := waiting ho
      have hx : (db.dispatches.find decision.executionId).map (·.status) = none := congrArg Case.dispatch hc
      have hq : decide (q.Has decision.executionId) = false := congrArg Case.queued hc
      have hc' : caseOf db' q decision.executionId =
          ⟨⟨[.approval, .rejected], [.expired], [checkFinding .approval] ++ [expiryFinding]⟩, none, false⟩ := by
        rw [caseOf, hr.file, set ho, hr.dispatches, Db.setApproval_dispatches, hx, hq]
        rfl
      rw [hc, hc']
      exact .single .lapsed
    case decided db₂ db₃ ho _ hd hv hdi hu =>
      have hc := waiting ho
      have hx : (db.dispatches.find decision.executionId).map (·.status) = none := congrArg Case.dispatch hc
      have hq : decide (q.Has decision.executionId) = false := congrArg Case.queued hc
      subst hd
      obtain ⟨hf, -, hx'⟩ := @dispatched_of_decided _ _ _ decision.executionId _ _ hv.dispatches hdi
      have hx' := hx' rfl <| Option.map_eq_none_iff.mp hx
      have hvf := hv.file
      simp only [decisionEvent, set ho] at hvf
      have hc' : caseOf db' q decision.executionId =
          ⟨⟨[.approval, nextStatus decision.status], [decision.status.toStatus],
            [checkFinding .approval] ++ [decisionFinding decision.status]⟩,
            if decision.status = .approved then some .pending else none, false⟩ := by
        rw [caseOf, hu.file, hf, hvf, hu.dispatches, hx', hq]
        simp [decisionFinding]
      rw [hc, hc']
      exact .single .decided

-- The approvals of an execution that are marked
def Lapses (e : String) (db db' : Db) (rows : List ApprovalRow) : Prop :=
  db'.file e = db.file e ∧ (∀ row ∈ rows, row.executionId ≠ e) ∨
  (∃ verdict, (db.file e).verdicts = [verdict]) ∧
    db'.file e = ⟨(db.file e).statuses, [.expired], (db.file e).findings⟩ ∧ ∃ row ∈ rows, row.executionId = e

theorem Expire.lapses (h : Expire P now a db row db') (hv : (db.file e).verdicts.length ≤ 1) :
    Lapses e db db' row.toList := by
  cases h
  case none => exact .inl ⟨rfl, nofun⟩
  case some row hf _ =>
    by_cases he : e = row.executionId
    case neg =>
      refine .inl ⟨Db.file_setApproval_ne hf he .., ?_⟩
      simpa using Ne.symm he
    case pos =>
      subst he
      obtain ⟨verdict, hv⟩ := List.length_eq_one_iff.mp <| Nat.le_antisymm hv <| List.length_pos_of_ne_nil <|
        Db.verdicts_ne_nil hf
      exact .inr ⟨⟨verdict, hv⟩, (Db.file_setApproval hf hv ..).right, by simp⟩

theorem Lapses.trans {rows rows' : List ApprovalRow} (h : Lapses e db db₁ rows) (h' : Lapses e db₁ db' rows') :
    Lapses e db db' (rows ++ rows') := by
  obtain ⟨hf, hn⟩ | ⟨hv, hf, row, hm, he⟩ := h
  case inl =>
    obtain ⟨hf', hn'⟩ | ⟨hv', hf', row, hm, he⟩ := h'
    case inl => exact .inl ⟨hf'.trans hf, List.forall_mem_append.mpr ⟨hn, hn'⟩⟩
    case inr => exact .inr ⟨hf ▸ hv', hf ▸ hf', row, List.mem_append_right _ hm, he⟩
  case inr =>
    refine .inr ⟨hv, ?_, row, List.mem_append_left _ hm, he⟩
    obtain ⟨hf', -⟩ | ⟨-, hf', -⟩ := h'
    case inl => rw [hf', hf]
    case inr => rw [hf', hf]

theorem Lapses.of_collects (h : Program.Collects (Expire P now) ids db rows db')
    (hv : (db.file e).verdicts.length ≤ 1) : Lapses e db db' rows := by
  induction h
  case nil          => exact .inl ⟨rfl, nofun⟩
  case cons hx _ ih =>
    have hl := hx.lapses hv
    refine hl.trans <| ih ?_
    obtain ⟨hf, -⟩ | ⟨-, hf, -⟩ := hl
    case inl => rwa [hf]
    case inr => simp [hf]

theorem RejectAll.file (h : RejectAll P now db claims rejected skipped db') :
    db'.file e = db.file e ∨
    (∃ row, db.executions.find e = some row ∧ row.status = .approval) ∧ (∃ claim ∈ claims, claim.executionId = e) ∧
      db'.file e =
        ⟨(db.file e).statuses ++ [.rejected], (db.file e).verdicts, (db.file e).findings ++ [expiryFinding]⟩ := by
  induction h
  case nil     => exact .inl rfl
  case skip ih =>
    refine ih.imp_right fun h => ⟨h.left, ?_, h.right.right⟩
    obtain ⟨-, ⟨claim, hm, he⟩, -⟩ := h
    exact ⟨claim, .tail _ hm, he⟩
  case reject db claim claims row _ _ db₁ db' hf hs hr _ ih =>
    by_cases he : e = claim.executionId
    case neg =>
      rw [hr.file_ne he, hr.findExecution_ne he] at ih
      refine ih.imp_right fun h => ⟨h.left, ?_, h.right.right⟩
      obtain ⟨-, ⟨claim, hm, he⟩, -⟩ := h
      exact ⟨claim, .tail _ hm, he⟩
    case pos =>
      subst he
      refine .inr ⟨⟨row, hf, hs⟩, ⟨claim, .head _, rfl⟩, ?_⟩
      obtain ⟨row', hf', hs'⟩ := hr.findExecution
      obtain hu | ⟨⟨row'', hf'', hs''⟩, -⟩ := ih
      case inl => rw [hu, hr.file]
      case inr =>
        cases hf'.symm.trans hf''
        exact absurd (hs'.symm.trans hs'') (by decide)

theorem Sweep.case_steps (h : Sweep P now limit db result db') (hl : db.Ledger) (hl' : db'.Ledger)
    (hs : (caseOf db q e).Sound) : Case.Steps (caseOf db q e) (caseOf db' q e) := by
  have hd := h.dispatches
  cases h
  case mk rows _ _ db₁ _ _ _ _ hx hr =>
    have hxe : db₁.executions = db.executions := hx.unchanged Db.executions fun _ _ _ _ hx => by cases hx <;> rfl
    obtain ⟨hf, hn⟩ | ⟨⟨verdict, hv⟩, hf, row, hm, he⟩ := Lapses.of_collects hx hs.shape.verdicts_length
    case inl =>
      obtain hu | ⟨-, ⟨claim, hm, he⟩, -⟩ := hr.file (e := e)
      case inl => exact caseOf_refl (hu.trans hf) (by rw [hd])
      case inr =>
        obtain ⟨row, hr, rfl⟩ := List.mem_map.mp hm
        exact absurd he (hn row hr)
    case inr =>
      obtain hu | ⟨⟨row', hf', hs'⟩, -, hu⟩ := hr.file (e := e)
      case inl =>
        obtain ⟨row', hf', hs'⟩ := hr.findExecution.right (.of row) <| List.mem_map_of_mem hm
        have hc := (hl'.accounts hf').current
        have hst : db'.statuses e = db.statuses e := by
          rw [show db'.statuses e = (db'.file e).statuses from rfl, hu, hf]
          rfl
        have hlast : (db.statuses e).getLast? ≠ some .approval := by
          rw [← hst, ← he]
          exact fun h => hs' <| Option.some.inj <| hc.symm.trans h
        obtain ⟨status, later, hw⟩ := hs.shape.of_verdict hv hlast
        have hw : db.file e = ⟨.approval :: status :: later, [verdict], (db.file e).findings⟩ := hw
        rw [caseOf, caseOf, hu, hf, hd, hw]
        exact .single .overrun
      case inr =>
        have hc := caseOf_eq_waiting hs hl (hxe ▸ hf') hs' (by simp [hv])
        have hfile : db.file e = ⟨[.approval], [.pending], [checkFinding .approval]⟩ := congrArg Case.toFile hc
        have hdn : (db.dispatches.find e).map (·.status) = none := congrArg Case.dispatch hc
        have hq : decide (q.Has e) = false := congrArg Case.queued hc
        have hc' : caseOf db' q e = ⟨⟨[.approval, .rejected], [.expired],
            [checkFinding .approval] ++ [expiryFinding]⟩, none, false⟩ := by
          rw [caseOf, hu, hf, hfile, hd, hdn, hq]
          rfl
        rw [hc, hc']
        exact .single .lapsed

-- Whatever else happens to a dispatch
theorem Touches.case_steps {entry : platform.Commit} (h : Touches entry e (db.dispatches.find e) (db'.dispatches.find e))
    (hf : db'.file e = db.file e) (hc : (db'.dispatches.find e).isSome = (db.dispatches.find e).isSome)
    (hq : ∀ row, db'.dispatches.find e = some row → row.status = .dispatched → q.Has e) :
    Case.Steps (caseOf db q e) (caseOf db' q e) := by
  rw [caseOf, caseOf, hf]
  generalize db.dispatches.find e = row at h hc
  generalize db'.dispatches.find e = row' at h hc hq
  cases h
  case same      => exact .refl
  case created   => cases hc
  case claimed row hcl _ =>
    refine .single <| .claimed ?_
    obtain hs | ⟨hs, -⟩ := hcl <;> simp [hs]
  case succeeded =>
    have hq := hq _ rfl rfl
    simp only [hq, decide_true]
    exact .single .succeeded
  case failed    => exact .single .failed

theorem Call.Commits.case_steps {c : Call} {r : c.Result} (h : c.Commits P now db r db') (hl : db.Ledger)
    (hs : (caseOf db q e).Sound) (hq : ∀ row, db'.dispatches.find e = some row → row.status = .dispatched → q.Has e) :
    Case.Steps (caseOf db q e) (caseOf db' q e) := by
  have touches {c : Call} {r : c.Result} (h : c.Commits P now db r db') (hf : db'.file e = db.file e)
      (hc : (db'.dispatches.find e).isSome = (db.dispatches.find e).isSome) :
      Case.Steps (caseOf db q e) (caseOf db' q e) := by
    have ht : Touches ⟨0, c, r, now⟩ e (db.dispatches.find e) (db'.dispatches.find e) := h.touches
    exact ht.case_steps hf hc hq
  have hl' := h.ledger hl
  cases c
  case start               => exact Start.case_steps h hl hs
  case decideApproval      => exact Decide.case_steps h hl hs
  case expireApprovalsOnce => exact Sweep.case_steps h hl hl' hs
  case transition          => exact h.right.case_steps hl
  case fail                => exact h.right.case_steps hl
  case claimDispatches =>
    refine touches h ?_ ?_
    · cases h
      case mk hx => exact hx.unchanged (·.file e) fun _ _ _ _ hx => by cases hx <;> rfl
    · cases h
      case mk hx => exact hx.unchanged (fun db => (db.dispatches.find e).isSome) fun _ _ _ _ => ClaimOne.isSome_find
  case markDispatchSucceeded =>
    refine touches h ?_ ?_
    · cases h <;> rfl
    · cases h
      · rfl
      · simp [Table.isSome_find_modify]
  case markDispatchFailed =>
    refine touches h ?_ ?_
    · cases h <;> rfl
    · cases h
      · rfl
      · simp [Table.isSome_find_modify]

end

-- What publishers rely on: only what is dispatched is queued.
def backed : Contract (loose platform Premise.none.answer fun _ _ => True) where
  Inv g         := ∀ e, g.world.Has e → (g.db.dispatches.find e).isSome
  Le g g'       := ∀ e, (g.db.dispatches.find e).isSome → (g'.db.dispatches.find e).isSome
  Guard _ o g   := ∀ job, o = .inr (.add job) → (g.db.dispatches.find job.jobId).isSome
  le_refl _ _   := id
  le_trans h h' := fun e he => h' e (h e he)
  tick _ h      := ⟨h, fun _ => id⟩
  op {pid o g r g'} hi hg hd := by
    cases hd
    case throw => exact ⟨hi, fun _ => id⟩
    case fault => exact ⟨hi, fun _ => id⟩
    case commit c now db' a _ _ hr =>
      have hd := (Call.grows c hr).dispatches
      exact ⟨fun e he => hd.isSome (hi e he), fun e => hd.isSome⟩
    case act a amb _ =>
      refine ⟨fun e he => ?_, fun _ => id⟩
      obtain ⟨job, hm, rfl⟩ := he
      cases Action.mem_act hm
      case inl hm => exact hi _ ⟨job, hm, rfl⟩
      case inr ha =>
        exact hg job (by rw [ha])

def backed.publishing : Publishing backed where
  Claimed claim g := (g.db.dispatches.find claim.executionId).isSome
  Queued _ _      := True
  claimed_le hl h := hl _ h
  queued_le _ h   := h
  take _          := by simp [backed]
  taken _ h       := fun claim hc =>
    have ⟨_, _, ht⟩ := h.took.left claim hc
    Option.isSome_iff_exists.mpr ⟨_, ht.find'⟩
  add _ h         := by
    rintro _ ⟨⟩
    exact h
  added           := trivial
  succeed _ _     := by simp [backed]
  fail _ _        := by simp [backed]

theorem backed.permits {host : Host} {o : platform.outer.Op} (h : ofService host o) : backed.Guard pid o g := by
  intro job hj
  cases hj
  exact h.elim

variable {host : Host} {s s' : platform.State}

abbrev ClientSteps (host : Host) : platform.Atomic → platform.Atomic → Prop :=
  AtomicSteps .none (fun code _ => Client host code) fun _ _ => True

-- The queue only ever gets more jobs, and only of what is dispatched.
theorem queue_case_steps {q q' : Queue} (hq : q.Has e → q'.Has e) (hd : q'.Has e → (db.dispatches.find e).isSome) :
    Case.Steps (caseOf db q e) (caseOf db q' e) := by
  by_cases hn : ¬q.Has e ∧ q'.Has e
  case neg =>
    have he : q.Has e ↔ q'.Has e := by
      constructor
      · exact hq
      · intro h'
        by_contra h
        exact hn ⟨h, h'⟩
    simp only [caseOf, he]
    exact .refl
  case pos =>
    obtain ⟨row, hr⟩ := Option.isSome_iff_exists.mp <| hd hn.right
    simp only [caseOf, hr, hn, Option.map_some, decide_true, decide_false]
    exact .single .queued

namespace ClientSteps

variable {a a' : platform.Atomic} {clock : Time}

theorem filed (h : ClientSteps host (System.initial Db.empty Queue.empty clock : platform.State).atomic a) :
    Filed a.toGlobal := by
  have hi : Filed (System.initial Db.empty Queue.empty clock : platform.State).toGlobal :=
    ⟨⟨List.nodup_nil, List.forall_mem_nil _⟩, fun _ _ hf => (by cases hf),
      fun _ => .unclaimed (List.forall_mem_nil _) fun _ hr => (by cases hr)⟩
  exact (Contract.sound h (fun _ _ _ hc _ => hc.safe outbox.publishing fun _ _ _ ho _ => outbox.permits ho) hi nofun).left

theorem isSome_dispatch (h : ClientSteps host (System.initial Db.empty Queue.empty clock : platform.State).atomic a) :
    ∀ e, a.world.Has e → (a.db.dispatches.find e).isSome := by
  have hi : backed.Inv (System.initial Db.empty Queue.empty clock : platform.State).toGlobal := by
    rintro e ⟨_, hm, _⟩
    cases hm
  exact (Contract.sound h (fun _ _ _ hc _ => hc.safe backed.publishing fun _ _ _ ho _ => backed.permits ho) hi nofun).left

theorem ledger (h : ClientSteps host (System.initial Db.empty Queue.empty clock : platform.State).atomic a) :
    a.db.Ledger :=
  AtomicSteps.db_invariant h .empty fun _ _ _ _ _ hc _ => hc.ledger

theorem case_step {spawnable : platform.Code → platform.Global → Prop}
    (h : Atomic.Step (loose platform Premise.none.answer fun _ _ => True) spawnable a a') (hl : a.db.Ledger)
    (hs : (caseOf a.db a.world e).Sound) (hf : Filed a'.toGlobal)
    (hb : ∀ e, a'.world.Has e → (a'.db.dispatches.find e).isSome) :
    Case.Steps (caseOf a.db a.world e) (caseOf a'.db a'.world e) := by
  cases h
  case spawn => exact .refl
  case tick  => exact .refl
  case op hd =>
    cases hd
    case throw        => exact .refl
    case fault        => exact .refl
    case commit hr    => exact (Call.commits _ hr).case_steps hl hs <| hf.queued e
    case act a amb _ => exact queue_case_steps Action.has_act <| hb e

theorem case_steps (h : ClientSteps host (System.initial Db.empty Queue.empty clock : platform.State).atomic a)
    (hs : (caseOf a.db a.world e).Sound) (h' : ClientSteps host a a') :
    Case.Steps (caseOf a.db a.world e) (caseOf a'.db a'.world e) := by
  induction h'
  case refl         => exact .refl
  case tail hb e ih =>
    have hb := h.trans hb
    have ha := hb.tail e
    exact ih.trans <| case_step e (ledger hb) (hs.steps ih) (filed ha) (isSome_dispatch ha)

end ClientSteps

theorem caseOf_initial : caseOf Db.empty Queue.empty e = .absent := by
  simp [caseOf, Case.absent, Db.file, Db.statuses, Db.eventsOf, Db.approvalsOf, Db.auditOf, Db.empty, Queue.Has,
    Queue.empty, Table.empty, Table.find]

theorem Reachable.case_steps (h : Reachable (Guard.clients host) s) (e : String) :
    Case.Steps .absent (caseOf s.db s.world e) := by
  obtain ⟨clock, ha⟩ := h.atomic <| Guard.clients_meets host
  have hi : (caseOf (System.initial Db.empty Queue.empty clock : platform.State).db Queue.empty e) = .absent := caseOf_initial
  exact hi ▸ ClientSteps.case_steps .refl (hi ▸ Case.Sound.absent) ha

theorem Reachable.case_sound (h : Reachable (Guard.clients host) s) (e : String) : (caseOf s.db s.world e).Sound :=
  Case.Sound.absent.steps <| h.case_steps e

theorem Reachable.later_case_steps (h : Reachable (Guard.clients host) s) (hs : Steps (Guard.clients host) s s') (e : String) :
    Case.Steps (caseOf s.db s.world e) (caseOf s'.db s'.world e) := by
  obtain ⟨_, ha⟩ := h.atomic <| Guard.clients_meets host
  exact ClientSteps.case_steps ha (h.case_sound e) <| h.atomicSteps hs <| Guard.clients_meets host

-- Every run of the platform is one of the machine of cases, as far as a single execution is concerned.
theorem platform_refines_cases (h : Reachable (Guard.clients host) s) (hs : Steps (Guard.clients host) s s') (e : String) :
    Case.Steps .absent (caseOf s.db s.world e) ∧ Case.Steps (caseOf s.db s.world e) (caseOf s'.db s'.world e) ∧
      (caseOf s'.db s'.world e).Sound := by
  have h₁ := h.later_case_steps hs e
  exact ⟨h.case_steps e, h₁, (h.case_sound e).steps h₁⟩

open Sample in
theorem worked_client {pid : Pid} {code : platform.Code} (h : .spawn pid code ∈ worked) : Client Sample.host code := by
  simp only [worked, List.mem_append, List.mem_cons, List.mem_replicate, List.not_mem_nil, or_false, reduceCtorEq,
    and_false, Label.spawn.injEq] at h
  obtain ⟨-, rfl⟩ | ⟨-, rfl⟩ := h <;> exact .work

open Sample in
-- Two workers get the job of an execution at a time.
theorem platform_refines_cases_worked :
    let s := reach unchecked published
    let s' := follow unchecked worked s
    caseOf s.db s.world "e" = ⟨⟨[.intake], [], [checkFinding .intake]⟩, some .dispatched, true⟩ ∧
      (caseOf s'.db s'.world "e").statuses = [.intake, .context] ∧
      Case.Steps .absent (caseOf s.db s.world "e") ∧ Case.Steps (caseOf s.db s.world "e") (caseOf s'.db s'.world "e") ∧
      (caseOf s'.db s'.world "e").Sound := by
  have hr : Reachable (Guard.clients Sample.host) (reach unchecked published) :=
    reach_reachable fun l hl s _ => Guard.clients_of_spawn (fun _ _ => published_client) hl s
  have hs : Steps (Guard.clients Sample.host) (reach unchecked published) (follow unchecked worked (reach unchecked published)) :=
    follow_steps fun l hl s _ => Guard.clients_of_spawn (fun _ _ => worked_client) hl s
  exact ⟨by decide, by decide, platform_refines_cases hr hs "e"⟩

end Logon
