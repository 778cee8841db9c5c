import Logon.Decision
import Logon.Twins

-- The event log is the journal of the calls that have committed.

namespace Logon

open System

variable {P : Premise} {now : Time} {db db' : Db}

-- The event that a call has appended if it returned a result.
inductive Call.Enters : (c : Call) → c.Result → ExecutionEvent → Prop
  | start {request requestHash options t} :
    Enters (.start request requestHash options) ⟨createdEvent request (.iso t), false⟩ (createdEvent request (.iso t))
  | decision {decision n} :
    Enters (.decideApproval decision) ⟨some decision, none⟩ (decisionEvent decision n)
  | lapse {decision n t} :
    Enters (.decideApproval decision) ⟨none, some (.approvalExpired decision.approvalId)⟩
      (expiryEvent decision.executionId decision.approvalId n t)
  | sweep {limit result e a n t} :
    Enters (.expireApprovalsOnce limit) result (expiryEvent e a n t)
  | transition {e status actorId payload n t} :
    Enters (.transition e status actorId payload) ⟨e, n, "EXECUTION_" ++ status.text, status, .iso t, actorId, payload⟩
      ⟨e, n, "EXECUTION_" ++ status.text, status, .iso t, actorId, payload⟩
  | fail {e actorId reason n t} :
    Enters (.fail e actorId reason) ⟨e, n, "EXECUTION_FAILED", .failed, .iso t, actorId, [("reason", .string reason)]⟩
      ⟨e, n, "EXECUTION_FAILED", .failed, .iso t, actorId, [("reason", .string reason)]⟩

-- Whether a call that has returned a result must have appended an event to the log of an execution.
def Call.Effective (e : String) : (c : Call) → c.Result → Prop
  | .start request _ _, result   => request.identity.executionId = e ∧ result.reused = false
  | .decideApproval decision, _  => decision.executionId = e
  | .transition e' _ _ _, _      => e' = e
  | .fail e' _ _, _              => e' = e
  | _, _                         => False

-- The events of an execution as the calls in the log account for them, one after the other.
inductive Journal (e : String) : List platform.Commit → List EventRow → Prop
  | nil : Journal e [] []
  | entry {c : Call} {r : c.Result} {log rows event pid now t} :
    Journal e log rows → c.Enters r event → event.executionId = e → event.sequence = rows.length + 1 →
    event.timestamp.timestamptz = some t → Journal e (log ++ [⟨pid, c, r, now⟩]) (rows ++ [.of event t])
  | other {c : Call} {r : c.Result} {log rows pid now} :
    Journal e log rows → ¬c.Effective e r → Journal e (log ++ [⟨pid, c, r, now⟩]) rows

section
variable {e : String} {log : List platform.Commit} {pid : Pid} {started : Time} {c : Call} {r : c.Result}

theorem Advance.eventsOf (h : Advance now db event db') (hl : db.Ledger) :
    ∃ t, event.timestamp.timestamptz = some t ∧
      event.sequence = (db.eventsOf event.executionId).length + 1 ∧
      db'.eventsOf event.executionId = db.eventsOf event.executionId ++ [.of event t] := by
  have ⟨_, _, hn⟩ := hl.accounts_advance h
  cases h
  case mk row t hf _ _ hk ht =>
    have hv : (db.advance event now t).eventsOf event.executionId = _ := Db.eventsOf_insert hk event.executionId
    exact ⟨t, ht, by simpa [Db.statuses] using hn, by simp [hv]⟩

theorem Advance.eventsOf_ne (h : Advance now db event db') (hn : event.executionId ≠ e) :
    db'.eventsOf e = db.eventsOf e := by
  cases h
  exact Db.eventsOf_insert_ne hn

theorem Journal.advance (h : Journal e log (db.eventsOf e)) (hl : db.Ledger) (hv : Advance now db event db')
    (he : c.Enters r event) (hn : event.executionId ≠ e → ¬c.Effective e r) :
    Journal e (log ++ [⟨pid, c, r, started⟩]) (db'.eventsOf e) := by
  by_cases hx : event.executionId = e
  case neg =>
    rw [hv.eventsOf_ne hx]
    exact h.other (hn hx)
  case pos =>
    obtain ⟨t, ht, hs, hv⟩ := hv.eventsOf hl
    rw [hx] at hs hv
    rw [hv]
    exact h.entry he hx hs ht

theorem Audit.eventsOf (h : Audit P now db e' tenantId action actorId allowed reason db') :
    db'.eventsOf e = db.eventsOf e := by
  cases h
  rfl

theorem Reject.eventsOf_ne (h : Reject P now e' a db db') (hn : e' ≠ e) : db'.eventsOf e = db.eventsOf e := by
  cases h
  case mk hv hu => exact hu.eventsOf.trans <| hv.eventsOf_ne hn

theorem Reject.exists_advance (h : Reject P now e' a db db') :
    ∃ n t db₁, Advance now db (expiryEvent e' a n t) db₁ ∧ ∀ e, db'.eventsOf e = db₁.eventsOf e := by
  cases h
  case mk n t db₁ _ hv hu => exact ⟨n, t, db₁, hv, fun _ => hu.eventsOf⟩

theorem Journal.create {request : ExecutionRequest} {options : StartExecutionOptions}
    (h : Journal e log (db.eventsOf e)) (hl : db.Ledger) (hc : Create P now request db event db') :
    Journal e (log ++ [⟨pid, .start request requestHash options, ⟨event, false⟩, started⟩]) (db'.eventsOf e) := by
  obtain ⟨t, ht, rfl, hv⟩ := hc.eventsOf
  rw [hv]
  split
  case isFalse he => exact (List.append_nil _).symm ▸ h.other fun hf => he hf.left
  case isTrue he  =>
    have hn : db.eventsOf e = [] := by
      cases hc
      case mk hf _ _ _ _ _ _ => exact hl.orphans <| he ▸ hf
    exact h.entry .start he (by rw [hn]; rfl) <| Timestamp.timestamptz_iso.mpr ⟨ht, rfl⟩

-- An execution that is not in `APPROVAL` is left alone by the loop of a sweep.
theorem RejectAll.eventsOf_of_ne (h : RejectAll P now db claims rejected skipped db')
    (hf : db.executions.find e = some row) (hs : row.status ≠ .approval) : db'.eventsOf e = db.eventsOf e := by
  induction h
  case nil     => rfl
  case skip ih => exact ih hf
  case reject db claim _ row' _ _ _ _ hf' hs' hr _ ih =>
    have hn : claim.executionId ≠ e := by
      rintro rfl
      cases hf.symm.trans hf'
      exact hs hs'
    exact (ih <| hr.findExecution_ne hn.symm ▸ hf).trans <| hr.eventsOf_ne hn

-- At most one event of an execution is appended there, even if it has several approvals that expire.
theorem Journal.rejectAll (h : Journal e log (db.eventsOf e)) (hl : db.Ledger)
    (hr : RejectAll P now db claims rejected skipped db') :
    Journal e (log ++ [⟨pid, .expireApprovalsOnce limit, result, started⟩]) (db'.eventsOf e) := by
  induction hr
  case nil     => exact h.other id
  case skip ih => exact ih h hl
  case reject db claim claims row _ _ db₁ db' hf hs hr hrs ih =>
    by_cases hx : claim.executionId = e
    case neg => exact ih (by rwa [hr.eventsOf_ne hx]) <| hr.changes.preserves Db.Ledger.change hl
    case pos =>
      obtain ⟨row', hf', hs'⟩ := hr.findExecution
      obtain ⟨n, t, db₂, hv, he⟩ := hr.exists_advance
      rw [hrs.eventsOf_of_ne (hx ▸ hf') (by simp [hs']), he]
      exact h.advance hl hv .sweep fun _ hf => hf

theorem Journal.commit (h : Journal e log (db.eventsOf e)) (hl : db.Ledger) (hc : c.Commits P now db r db') :
    Journal e (log ++ [⟨pid, c, r, started⟩]) (db'.eventsOf e) := by
  cases c
  case start request _ _ =>
    have hl' : (db.withTenant request.identity.tenantId).Ledger := hl.congr (by rfl) (by rfl)
    have h' : Journal e log ((db.withTenant request.identity.tenantId).eventsOf e) := h
    cases hc
    case unkeyed hc => exact h'.create hl' hc
    case reused     => exact h.other fun hf => nomatch hf.right
    case keyed db₁ _ _ hc =>
      show Journal e _ (db₁.eventsOf e)
      exact h'.create hl' hc
  case decideApproval decision =>
    have hl' status decidedBy t : (db.setApproval decision.approvalId status decidedBy t).Ledger :=
      hl.congr (by rfl) (by rfl)
    have h' status decidedBy t : Journal e log ((db.setApproval decision.approvalId status decidedBy t).eventsOf e) := h
    cases hc
    case expired hr =>
      obtain ⟨n, t, db₁, hv, he⟩ := hr.exists_advance
      rw [he]
      exact (h' ..).advance (hl' ..) hv .lapse fun hn => hn
    case decided n _ db₂ db₃ _ _ hd hv hs hu =>
      subst hd
      have hx : db₃.events = db₂.events := by
        obtain ⟨-, rfl⟩ | ⟨-, -, rfl⟩ | ⟨-, -, rfl⟩ := hs <;> rfl
      rw [hu.eventsOf, Db.eventsOf, hx]
      exact (h' ..).advance (hl' ..) hv .decision fun hn => hn
  case expireApprovalsOnce =>
    cases hc
    case mk db₁ _ _ _ _ hx hr =>
      have hv : db₁.events = db.events := hx.unchanged Db.events fun _ _ _ _ => Expire.events
      have h' : Journal e log (db₁.eventsOf e) := by rwa [Db.eventsOf, hv]
      have hl' := (Changes.of_collects (fun _ _ _ _ => Expire.changes) hx).preserves Db.Ledger.change hl
      exact h'.rejectAll hl' hr
  case transition =>
    obtain ⟨⟨n, t, rfl⟩, hv⟩ := hc
    exact h.advance hl hv .transition fun hn => hn
  case fail =>
    obtain ⟨⟨n, t, rfl⟩, hv⟩ := hc
    exact h.advance hl hv .fail fun hn => hn
  case claimDispatches =>
    cases hc
    case mk hc =>
      have hv : db'.events = db.events := hc.unchanged Db.events fun _ _ _ _ => ClaimOne.events
      rw [Db.eventsOf, hv]
      exact h.other id
  case markDispatchSucceeded => cases hc <;> exact h.other id
  case markDispatchFailed    => cases hc <;> exact h.other id

-- The decisions about an execution that have been committed, whatever they led to.
def decides (e : String) : platform.Commit → Bool
  | ⟨_, .decideApproval decision, _, _⟩ => decision.executionId = e
  | _                                   => false

-- A decision ends the waiting for good.
structure Once (e : String) (db : Db) (log : List platform.Commit) : Prop where
  count : log.countP (decides e) ≤ 1
  after : 0 < log.countP (decides e) → .approval ∈ db.statuses e ∧ (db.statuses e).getLast? ≠ some .approval

theorem Db.Ledger.nodup (h : db.Ledger) (e : String) : (db.statuses e).Nodup := by
  cases hf : db.executions.find e
  case none     => simp [h.statuses_eq_nil hf]
  case some row => exact (h.accounts hf).lifecycle.nodup

-- An execution that has left `APPROVAL` does not return.
theorem Call.Commits.left (hc : c.Commits P now db r db') (hl : db.Ledger)
    (h : .approval ∈ db.statuses e ∧ (db.statuses e).getLast? ≠ some .approval) :
    .approval ∈ db'.statuses e ∧ (db'.statuses e).getLast? ≠ some .approval := by
  obtain ⟨l, hs, _⟩ := hc.appends (e := e)
  have hn := (hc.ledger hl).nodup e
  rw [hs] at hn ⊢
  refine ⟨List.mem_append_left _ h.left, fun hx => ?_⟩
  cases hl' : l.getLast?
  case none   =>
    rw [List.getLast?_eq_none_iff] at hl'
    simp only [hl', List.append_nil] at hx
    exact h.right hx
  case some s =>
    simp only [List.getLast?_append, hl', Option.some_or, Option.some.injEq] at hx
    subst hx
    exact (List.nodup_append.mp hn).right.right _ h.left _ (List.mem_of_getLast? hl') rfl

theorem Decide.statuses {decision : ApprovalDecision} (h : Decide P now decision db outcome db') (hl : db.Ledger) :
    (db.statuses decision.executionId).getLast? = some .approval ∧
    ∃ s, s ≠ .approval ∧ db'.statuses decision.executionId = db.statuses decision.executionId ++ [s] := by
  have current {execution row} (ho : Open decision db execution row) :
      (db.statuses decision.executionId).getLast? = some .approval :=
    ho.status ▸ (hl.accounts ho.findExecution).current
  cases h
  case expired ho _ _ _ hr =>
    obtain ⟨n, t, db₁, hv, he⟩ := hr.exists_advance
    refine ⟨current ho, .rejected, by decide, ?_⟩
    rw [Db.statuses, he]
    exact hv.statuses
  case decided n _ db₂ db₃ ho _ hd hv hs hu =>
    subst hd
    refine ⟨current ho, _, PostgresExecutionService.nextStatus_ne_approval decision.status, ?_⟩
    have hx : db₃.events = db₂.events := by
      obtain ⟨-, rfl⟩ | ⟨-, -, rfl⟩ | ⟨-, -, rfl⟩ := hs <;> rfl
    rw [Db.statuses, hu.eventsOf, Db.eventsOf, hx]
    exact hv.statuses

theorem Once.nil : Once e Db.empty [] where
  count := Nat.zero_le 1
  after := nofun

theorem Once.commit (h : Once e db log) (hl : db.Ledger) (hc : c.Commits P now db r db') :
    Once e db' (log ++ [⟨pid, c, r, started⟩]) := by
  cases hd : decides e (⟨pid, c, r, started⟩ : platform.Commit)
  case false =>
    have hn : List.countP (decides e) (log ++ [⟨pid, c, r, started⟩]) = log.countP (decides e) := by
      simp [List.countP_append, hd]
    exact ⟨hn ▸ h.count, fun hp => hc.left hl <| h.after (hn ▸ hp)⟩
  case true =>
    cases c
    case decideApproval decision =>
      obtain rfl : decision.executionId = e := of_decide_eq_true hd
      obtain ⟨ha, s, hs, he⟩ := Decide.statuses hc hl
      have hz : log.countP (decides decision.executionId) = 0 := by
        by_contra hz
        exact (h.after <| Nat.pos_of_ne_zero hz).right ha
      refine ⟨by simp [List.countP_append, hz, hd], fun _ => ?_⟩
      rw [he]
      exact ⟨List.mem_append_left _ <| List.mem_of_getLast? ha, by simpa using hs⟩
    all_goals cases hd

end

variable {G : Guard} {s : platform.State}

-- Nothing is in the event log that the calls do not account for, and nothing is missing that they have returned.
theorem events_are_the_journal (h : Reachable G s) (e : String) :
    Journal e s.log (s.db.eventsOf e) ∧ s.log.countP (decides e) ≤ 1 := by
  have ⟨_, hs⟩ := h.atomic G.meets_none
  have hi : s.db.Ledger ∧ Journal e s.log (s.db.eventsOf e) ∧ Once e s.db s.log :=
    AtomicSteps.log_invariant (Q := fun db log => db.Ledger ∧ Journal e log (db.eventsOf e) ∧ Once e db log) hs
      ⟨.empty, .nil, .nil⟩ fun _ _ _ _ _ _ _ hc _ hi =>
        ⟨hc.ledger hi.left, hi.right.left.commit hi.left hc, hi.right.right.commit hi.left hc⟩
  exact ⟨hi.right.left, hi.right.right.count⟩

open Sample in
-- A decision that comes too late, as another one is already made.
theorem events_are_the_journal_contended :
    let s := reach unchecked <| gated ++ [.spawn 1 decided, .spawn 2 decided, .begin 1, .begin 2] ++
      List.replicate 11 (.stmt 1 (ambient 5 "y")) ++ [.commit 1, .stmt 2 (ambient 5 "z"), .rollback 2]
    (s.db.eventsOf "e").map (·.eventType) = ["EXECUTION_APPROVAL", "EXECUTION_EXECUTION"] ∧
      Journal "e" s.log (s.db.eventsOf "e") ∧ s.log.countP (decides "e") ≤ 1 :=
  ⟨by decide +kernel, events_are_the_journal (G := Guard.any) (reach_reachable fun _ _ _ _ => trivial) "e"⟩

end Logon
