import Logon.Runtime.Platform

-- The transactions of the platform lock what they rely on.

namespace Logon

open PgExecutionStore

namespace Tx

variable {H : Resource → Prop} {α β : Type}

-- A program that is guarded from given locks on.
abbrev Guarded (p : Tx α) (H : Resource → Prop) (Q : Except KernelError α → (Resource → Prop) → Prop) :
    Prop :=
  engine.Guarded Statement.footprint p H Q

-- A program after which any other may follow that is guarded with the same locks, and which throws no
-- error of the worker.
def Keeps (p : Tx α) (H : Resource → Prop) : Prop :=
  p.Guarded H fun res K => (∀ x, H x → K x) ∧ ∀ e, res = .error e → ¬e.ofWorker

theorem Keeps.guarded {p : Tx α} (h : p.Keeps H) : p.Guarded H fun _ _ => True :=
  Engine.Guarded.mono (fun _ => id) (fun _ _ _ _ _ => trivial) h

-- What is kept from some locks on is kept from fewer locks on.
theorem Keeps.weaken {p : Tx α} (h : p.Keeps K) (hl : ∀ x, H x → K x) :
    p.Guarded K fun res K' => (∀ x, H x → K' x) ∧ ∀ e, res = .error e → ¬e.ofWorker :=
  Engine.Guarded.mono (fun _ => id) (fun _ _ _ hl' h => ⟨fun x hx => hl' x (h.left x (hl x hx)), h.right⟩) h

theorem Keeps.pure (a : α) : Keeps (.pure a) H :=
  ⟨fun _ => id, nofun⟩

theorem Keeps.throw {e : KernelError} (h : e.ofWorker = false) : Keeps (.throw e : Tx α) H := by
  refine ⟨fun _ => id, fun _ he => ?_⟩
  cases he
  exact Bool.eq_false_iff.mp h

theorem Keeps.bind {p : Tx α} {f : α → Tx β} (h : p.Keeps H)
    (hf : ∀ a K, (∀ x, H x → K x) → (f a).Keeps K) : Keeps (p.bind f) H := by
  apply Engine.Guarded.bind
  apply Engine.Guarded.mono (fun _ => id) _ h
  intro res K K' hK ⟨hH, he⟩
  have hH' x (h : H x) := hK x (hH x h)
  cases res
  case ok a    => exact (hf a K' hH').weaken hH'
  case error e =>
    refine ⟨hH', fun _ h => ?_⟩
    cases h
    exact he e rfl

theorem Keeps.query {o : Statement} {k : o.Reply → Tx α}
    (hf : ∀ r, ∀ x ∈ o.footprint r, H x ∨ x ∈ o.locks r)
    (hk : ∀ r K, (∀ x, H x → K x) → (∀ x ∈ o.locks r, K x) → (k r).Keeps K) :
    Keeps ((query o).bind k) H :=
  fun r => ⟨hf r, (hk r _ (fun _ => .inl) (fun _ => .inr)).weaken fun _ => .inl⟩

theorem Keeps.tryCatch {p : Tx α} {f : KernelError → Tx α} (h : p.Keeps H)
    (hf : ∀ e K, ¬e.ofWorker → (∀ x, H x → K x) → (f e).Keeps K) : Keeps (p.tryCatch f) H := by
  apply Engine.Guarded.tryCatch
  apply Engine.Guarded.mono (fun _ => id) _ h
  intro res K K' hK ⟨hH, he⟩
  have hH' x (h : H x) := hK x (hH x h)
  cases res
  case ok a    => exact ⟨hH', nofun⟩
  case error e => exact (hf e K' (he e rfl) hH').weaken hH'

-- A statement that locks whatever it uses.
theorem Keeps.self {o : Statement} {k : o.Reply → Tx α} (hf : ∀ r, ∀ x ∈ o.footprint r, x ∈ o.locks r)
    (hk : ∀ r K, (∀ x, H x → K x) → (k r).Keeps K) : Keeps ((Logon.query o).bind k) H :=
  .query (fun r x hx => .inr (hf r x hx)) fun r K hK _ => hk r K hK

theorem Keeps.collect {f : β → Tx (Option α)} (hf : ∀ b K, (f b).Keeps K) (bs : List β) :
    Keeps (Program.collect f bs) H := by
  induction bs generalizing H
  case nil => exact .pure _
  case cons b bs ih => exact (hf b H).bind fun _ _ _ => ih.bind fun _ _ _ => .pure _

theorem Keeps.lockCandidates {lock : β → Tx Candidate} (hl : ∀ b K, (lock b).Keeps K) (n : Nat) (bs : List β) :
    Keeps (Logon.lockCandidates lock n bs) H := by
  fun_induction Logon.lockCandidates lock n bs generalizing H
  case case1 => exact .pure _
  case case2 => exact .pure _
  case case3 n b bs ih₁ ih₂ =>
    refine (hl b H).bind fun c K _ => ?_
    split
    · exact ih₁.bind fun _ _ _ => .pure _
    · exact ih₂

theorem Keeps.lockExecution {k : ExecutionStatus → Tx α}
    (hk : ∀ s K, (∀ x, H x → K x) → K (.execution e) → (k s).Keeps K) :
    Keeps ((PgExecutionStore.lockExecution e).bind k) H := by
  refine .query (by rintro (_ | _) <;> simp [Statement.footprint, Statement.locks]) fun r K hK hl => ?_
  cases r
  case none     => exact .throw rfl
  case some row => exact hk row.status K hK <| hl _ (by simp [Statement.locks])

-- A single statement.
theorem Keeps.one {o : Statement} (hf : ∀ r, ∀ x ∈ o.footprint r, H x ∨ x ∈ o.locks r) :
    Keeps (Logon.query o) H :=
  .query hf fun _ _ _ _ => .pure _

theorem newDate_keeps : newDate.Keeps H :=
  .query (by simp [Statement.footprint]) fun _ _ _ _ => .pure _

end Tx

open Tx Statement

variable {H : Resource → Prop}

namespace PgExecutionStore

theorem ensureTenant_keeps : (ensureTenant t).Keeps H :=
  .self (by rintro (_ | _) <;> simp [footprint, locks]) fun _ _ _ => .pure _

theorem createApproval_keeps : (createApproval request).Keeps H :=
  .self (by rintro (_ | _) <;> simp [footprint, locks]) fun _ _ _ => .pure _

theorem createDispatch_keeps : (createDispatch e q).Keeps H :=
  .self (by rintro (_ | _) <;> simp [footprint, locks]) fun _ _ _ => .pure _

theorem appendAudit_keeps : (appendAudit record).Keeps H :=
  .self (by simp [footprint, locks]) fun _ _ _ => .pure _

theorem appendEvent_keeps (h : H (.execution event.executionId)) : (appendEvent event).Keeps H :=
  .query (by simp [footprint, h]) fun _ _ _ _ => .pure _

theorem latestEvent_keeps : (latestEvent e).Keeps H :=
  .query (by simp [footprint]) fun _ _ _ _ => .pure _

theorem findIdempotency_keeps (h : H (.advisory (t ++ ":" ++ key))) : (findIdempotency t key).Keeps H :=
  .one (by simp [footprint, h])

theorem putIdempotency_keeps (h : H (.advisory (t ++ ":" ++ key))) : (putIdempotency t key e requestHash).Keeps H :=
  .query (by rintro (_ | _) <;> simp [footprint, h]) fun _ _ _ _ => .pure _

theorem claimExpiredApprovals_keeps : (claimExpiredApprovals limit).Keeps H := by
  refine .query (by simp [footprint]) fun rows _ _ _ => ?_
  refine (Keeps.lockCandidates (fun _ _ => .one (by simp [footprint])) _ _).bind fun _ _ _ => ?_
  refine .query (by simp [footprint]) fun _ _ _ _ => ?_
  refine (Keeps.collect (fun _ _ => .one ?_) _).bind fun _ _ _ => .pure _
  rintro (_ | _) <;> simp [footprint, locks]

theorem claimDispatches_keeps : (claimDispatches limit leaseMs).Keeps H := by
  refine .query (by simp [footprint]) fun ids _ _ _ => ?_
  refine (Keeps.lockCandidates (fun _ _ => .one ?_) _ _).bind fun _ _ _ => ?_
  · rintro (_ | _ | _) <;> simp [footprint, locks]
  refine .query (by simp [footprint]) fun _ _ _ _ => ?_
  refine (Keeps.collect (fun _ _ => .one ?_) _).bind fun _ _ _ => .pure _
  rintro (_ | _) <;> simp [footprint, locks]

theorem markDispatchSucceeded_keeps : (markDispatchSucceeded e).Keeps H :=
  .self (by rintro (_ | _) <;> simp [footprint, locks]) fun _ _ _ => .pure _

theorem markDispatchFailed_keeps : (markDispatchFailed e error).Keeps H :=
  .self (by rintro (_ | _) <;> simp [footprint, locks]) fun _ _ _ => .pure _

theorem decideApproval_keeps : (PgExecutionStore.decideApproval decision).Keeps H := by
  refine .query (by rintro (_ | _) <;> simp [footprint, locks]) fun r K _ hl => ?_
  cases r
  case none => exact .throw rfl
  case some p =>
    have h : K (.approval decision.approvalId) := hl _ (by simp [locks])
    dsimp only
    split
    · exact .throw rfl
    split
    · exact .throw rfl
    refine Keeps.bind ?_ fun expired K' hK => ?_
    · unfold decideApproval.expired
      split
      · exact .pure _
      · exact .query (by simp [footprint]) fun _ _ _ _ => .pure _
    have h := hK _ h
    split
    · exact .query (by simp [footprint, h]) fun _ _ _ _ => .throw rfl
    · exact .query (by simp [footprint, h]) fun _ _ _ _ => .pure _

end PgExecutionStore

theorem nextSequence_keeps (h : H (.execution e)) : (nextSequence e).Keeps H :=
  .query (by simp [footprint, h]) fun _ _ _ _ => .pure _

theorem updateStatus_keeps (h : H (.execution e)) : (updateStatus e status).Keeps H :=
  .query (by simp [footprint, h]) fun _ _ _ _ => .pure _

theorem assertTransition_keeps : (assertTransition src dst).Keeps H := by
  unfold assertTransition
  split
  · exact .pure _
  · exact .throw rfl

namespace PostgresExecutionService

theorem lookupTenant_keeps (h : H (.execution e)) : (lookupTenant e).Keeps H := by
  refine .query (by simp [footprint, h]) fun r _ _ _ => ?_
  cases r
  · exact .throw rfl
  · exact .pure _

theorem rejectExpiredExecution_keeps (h : H (.execution e)) :
    (rejectExpiredExecution e a actor).Keeps H := by
  refine (nextSequence_keeps h).bind fun _ K₁ h₁ => ?_
  refine newDate_keeps.bind fun _ K₂ h₂ => ?_
  have h := h₂ _ (h₁ _ h)
  refine (updateStatus_keeps h).bind fun _ K₃ h₃ => ?_
  have h := h₃ _ h
  refine (appendEvent_keeps h).bind fun _ K₄ h₄ => ?_
  refine (lookupTenant_keeps (h₄ _ h)).bind fun _ K₅ h₅ => ?_
  exact .query (by simp [footprint]) fun _ _ _ _ => appendAudit_keeps

theorem dispatchApproved_keeps : (dispatchApproved e approvalStatus).Keeps H := by
  unfold dispatchApproved
  split
  · exact createDispatch_keeps
  · exact .pure _

theorem applyDecision_keeps (h : H (.execution decision.executionId)) :
    (applyDecision decision approvalStatus current).Keeps H := by
  refine assertTransition_keeps.bind fun _ K₁ h₁ => ?_
  have h := h₁ _ h
  refine (nextSequence_keeps h).bind fun _ K₂ h₂ => ?_
  have h := h₂ _ h
  refine (updateStatus_keeps h).bind fun _ K₃ h₃ => ?_
  have h := h₃ _ h
  refine (appendEvent_keeps h).bind fun _ K₄ h₄ => ?_
  have h := h₄ _ h
  refine dispatchApproved_keeps.bind fun _ K₅ h₅ => ?_
  refine (lookupTenant_keeps (h₅ _ h)).bind fun _ K₆ h₆ => ?_
  refine .query (by simp [footprint]) fun _ _ _ _ => ?_
  exact appendAudit_keeps.bind fun _ _ _ => .pure _

theorem decideApproval_keeps : (decideApproval decision).Keeps H := by
  refine .lockExecution fun current K _ h => ?_
  split
  · exact .throw rfl
  refine Keeps.bind (.tryCatch (PgExecutionStore.decideApproval_keeps.bind fun _ _ _ => .pure _) fun e K' he h' => ?_)
    fun approvalStatus K' h' => ?_
  · split
    · exact (rejectExpiredExecution_keeps (h' _ h)).bind fun _ _ _ => .pure _
    · exact .throw (Bool.eq_false_iff.mpr he)
  · cases approvalStatus
    · exact .pure _
    · exact applyDecision_keeps (h' _ h)

theorem rejectClaims_keeps (claims : List ExpiredApprovalClaim) (rejected skipped : Nat) :
    (rejectClaims claims rejected skipped).Keeps H := by
  induction claims generalizing H rejected skipped
  case nil => exact .pure _
  case cons claim claims ih =>
    refine .lockExecution fun status K _ h => ?_
    split
    · exact ih _ _
    · exact (rejectExpiredExecution_keeps h).bind fun _ _ _ => ih _ _

theorem expireApprovalsOnce_keeps : (expireApprovalsOnce limit).Keeps H :=
  claimExpiredApprovals_keeps.bind fun _ _ _ => (rejectClaims_keeps _ _ _).bind fun _ _ _ => .pure _

theorem move_keeps (h : H (.execution e)) : (move e status type actor payload).Keeps H := by
  refine newDate_keeps.bind fun _ K₁ h₁ => ?_
  have h := h₁ _ h
  refine (nextSequence_keeps h).bind fun _ K₂ h₂ => ?_
  have h := h₂ _ h
  exact (updateStatus_keeps h).bind fun _ K₃ h₃ => appendEvent_keeps (h₃ _ h)

theorem transition_keeps : (transition e status actor payload).Keeps H := by
  refine .lockExecution fun current K _ h => ?_
  exact assertTransition_keeps.bind fun _ K₁ h₁ => move_keeps (h₁ _ h)

theorem fail_keeps : (PostgresExecutionService.fail e actor reason).Keeps H := by
  refine .lockExecution fun current K _ h => ?_
  split
  · exact .throw rfl
  · exact move_keeps h

theorem awaitOrDispatch_keeps : (awaitOrDispatch request decision).Keeps H := by
  unfold awaitOrDispatch
  split
  · refine .query (by simp [footprint]) fun _ _ _ _ => .query (by simp [footprint]) fun _ _ _ _ => ?_
    exact newDate_keeps.bind fun _ _ _ => createApproval_keeps
  split
  · exact createDispatch_keeps
  · exact .pure _

theorem create_keeps : (create request).Keeps H := by
  refine .query (by simp [footprint, locks]) fun _ K _ hl => ?_
  have h : K (.execution request.identity.executionId) := hl _ (by simp [locks])
  refine newDate_keeps.bind fun _ K₁ h₁ => ?_
  refine (appendEvent_keeps (h₁ _ h)).bind fun _ _ _ => awaitOrDispatch_keeps.bind fun _ _ _ => ?_
  refine .query (by simp [footprint]) fun _ _ _ _ => newDate_keeps.bind fun _ _ _ => ?_
  exact appendAudit_keeps.bind fun _ _ _ => .pure _

theorem recordKey_keeps (h : H (.advisory (request.identity.tenantId ++ ":" ++ key))) :
    (recordKey request key requestHash).Keeps H := by
  refine (putIdempotency_keeps h).bind fun _ K₁ h₁ => ?_
  refine (findIdempotency_keeps (h₁ _ h)).bind fun recorded _ _ => ?_
  cases recorded
  · exact .throw rfl
  dsimp only
  split
  · exact .throw rfl
  split
  · refine latestEvent_keeps.bind fun event _ _ => ?_
    cases event
    · exact .throw rfl
    · exact .pure _
  · exact .pure _

theorem start_keeps : (start request requestHash options).Keeps H := by
  refine ensureTenant_keeps.bind fun _ _ _ => ?_
  split
  case h_1 => exact create_keeps.bind fun _ _ _ => .pure _
  case h_2 key _ =>
    simp only [findReusable, Program.bind_def, Program.bind_assoc]
    refine .query (by simp [footprint]) fun _ K _ hl => ?_
    have h : K (.advisory (request.identity.tenantId ++ ":" ++ key)) := hl _ (by simp [locks])
    refine (findIdempotency_keeps h).bind fun existing K₁ h₁ => ?_
    cases existing
    case none =>
      refine create_keeps.bind fun _ K₂ h₂ => ?_
      refine (recordKey_keeps (h₂ _ (h₁ _ h))).bind fun recorded _ _ => ?_
      cases recorded
      · exact .pure _
      · exact .pure _
    case some existing =>
      dsimp only
      split
      · exact .throw rfl
      simp only [Program.bind_assoc]
      refine latestEvent_keeps.bind fun event _ _ => ?_
      cases event
      · exact .throw rfl
      · exact .pure _

end PostgresExecutionService

theorem Call.keeps (c : Call) : c.body.Keeps H := by
  cases c
  case start                 => exact PostgresExecutionService.start_keeps
  case decideApproval        => exact PostgresExecutionService.decideApproval_keeps
  case expireApprovalsOnce   => exact PostgresExecutionService.expireApprovalsOnce_keeps
  case transition            => exact PostgresExecutionService.transition_keeps
  case fail                  => exact PostgresExecutionService.fail_keeps
  case claimDispatches       => exact claimDispatches_keeps
  case markDispatchSucceeded => exact markDispatchSucceeded_keeps
  case markDispatchFailed    => exact markDispatchFailed_keeps

end Logon
