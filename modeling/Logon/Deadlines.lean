import Logon.Books

-- Whoever is asked for an approval has the time that the code promises, up to how far the clocks are apart.

namespace Logon

open System PostgresExecutionService

-- What replies tell of the time if, within a transaction, the clock of its process is at most `d` off from that of the
-- database when the transaction began.
def Statement.Timely (d : Int) (now : Time) (db : Db) : (o : Statement) → o.Reply → Prop
  | .dateNow, t       => now - d ≤ t ∧ t ≤ now + d
  | .scanApprovals, l => ∀ c ∈ l, ∃ row, db.approvals.find c.fst = some row ∧ ∃ x ∈ row.expiresAt, x ≤ now
  | _, _              => True

def Premise.timely (d : Int) : Premise :=
  fun now o db r => o.Timely d now db r

theorem Premise.timely_stable (d : Int) : (Premise.timely d).Stable := by
  intro now o r db db' hg _ hp
  cases o
  case scanApprovals =>
    intro c hc
    obtain ⟨row, hf, x, hx, hn⟩ := hp c hc
    obtain ⟨row', hf', hs⟩ := hg.approvals _ _ hf
    exact ⟨row', hf', x, hs.expiresAt ▸ hx, hn⟩
  all_goals exact hp

-- Only clocks are restricted.
def Guard.timely (d : Int) : Guard
  | .stmt pid amb, s => ∀ c k' tr now k, s.procs pid = some (.inside c ⟨.op .dateNow k', tr, now⟩ k) →
    now - d ≤ amb.dateNow ∧ amb.dateNow ≤ now + d
  | _, _ => True

theorem Guard.meets_timely (d : Int) : (Guard.timely d).Meets (.timely d) (fun _ _ => True) fun _ _ => True where
  stable := Premise.timely_stable d
  spawn  := fun _ => trivial
  commit := fun _ _ => trivial
  stmt {pid amb c k tr now s o k' r} hg hp hr := by
    cases o
    case dateNow =>
      cases hr
      exact hg _ _ _ _ _ hp
    case scanApprovals =>
      cases hr
      intro c hc
      obtain ⟨row, hm, rfl⟩ := List.mem_map.mp hc
      have hm := List.mem_filter.mp <| (List.perm_insertionSort _ _).subset hm
      have ho := of_decide_eq_true hm.right
      exact ⟨row, Table.find_of_mem hm.left, ho.left.right⟩
    all_goals trivial

-- What has made an approval what it is.
inductive Concludes (row : ApprovalRow) : platform.Commit → Prop
  | decided {pid decision now} :
    decision.approvalId = row.approvalId → row.status = decision.status.toStatus → row.decidedBy = some decision.decidedBy →
    Concludes row ⟨pid, .decideApproval decision, ⟨some decision, none⟩, now⟩
  | late {pid decision now} :
    decision.approvalId = row.approvalId → row.status = .expired →
    Concludes row ⟨pid, .decideApproval decision, ⟨none, some (.approvalExpired decision.approvalId)⟩, now⟩
  | swept {pid limit result now} :
    row.status = .expired → Concludes row ⟨pid, .expireApprovalsOnce limit, result, now⟩

-- An approval has been asked for, and what has settled it has done so on the right side of its expiry.
structure Timed (d : Int) (log : List platform.Commit) (row : ApprovalRow) (x : Time) : Prop where
  expiresAt : row.expiresAt = some x
  asked     : ∃ entry ∈ log, pleaOf entry = some row.plea ∧ entry.startedAt + DEFAULT_APPROVAL_TTL_MS - d ≤ x ∧
              x ≤ entry.startedAt + DEFAULT_APPROVAL_TTL_MS + d
  settled   : row.status ≠ .pending → ∃ entry ∈ log, Concludes row entry ∧
              (row.status = .expired → x ≤ entry.startedAt + d) ∧ (row.status ≠ .expired → entry.startedAt - d < x)

def Db.OnTime (d : Int) (db : Db) (log : List platform.Commit) : Prop :=
  ∀ row ∈ db.approvals.rows, ∃ x, Timed d log row x

section
variable {d : Int} {now : Time} {db db' : Db} {log : List platform.Commit} {row : ApprovalRow} {entry : platform.Commit}

theorem expiry_within {now t d : Int} (hl : now - d ≤ t) (hu : t ≤ now + d) :
    now + DEFAULT_APPROVAL_TTL_MS - d ≤ t + DEFAULT_APPROVAL_TTL_MS ∧
    t + DEFAULT_APPROVAL_TTL_MS ≤ now + DEFAULT_APPROVAL_TTL_MS + d := by
  omega

theorem expiry_lower {asked settled x d : Int} (hl : asked + DEFAULT_APPROVAL_TTL_MS - d ≤ x) (hx : x ≤ settled + d) :
    asked + DEFAULT_APPROVAL_TTL_MS - 2 * d ≤ settled := by
  omega

theorem expiry_upper {asked settled x d : Int} (hx : settled - d < x) (hu : x ≤ asked + DEFAULT_APPROVAL_TTL_MS + d) :
    settled < asked + DEFAULT_APPROVAL_TTL_MS + 2 * d := by
  omega

theorem Timed.mono (h : Timed d log row x) (hl : log ⊆ log') : Timed d log' row x where
  expiresAt := h.expiresAt
  asked     := by
    obtain ⟨e, hm, he⟩ := h.asked
    exact ⟨e, hl hm, he⟩
  settled hs := by
    obtain ⟨e, hm, he⟩ := h.settled hs
    exact ⟨e, hl hm, he⟩

namespace Db.OnTime

theorem mono (h : db.OnTime d log) (hl : log ⊆ log') (ha : db'.approvals = db.approvals) : db'.OnTime d log' := by
  intro row hm
  rw [ha] at hm
  obtain ⟨x, hx⟩ := h row hm
  exact ⟨x, hx.mono hl⟩

theorem concat (h : db.OnTime d log) (ha : db'.approvals = db.approvals) : db'.OnTime d (log ++ [entry]) :=
  h.mono (List.subset_append_left _ _) ha

-- An approval is settled, and the others stay as they are.
theorem settle (h : db.OnTime d log) (hm : entry ∈ log) {f : ApprovalRow → ApprovalRow}
    (hk : ∀ row, (f row).approvalId = row.approvalId) (ha : db'.approvals = db.approvals.modify a f hk)
    (he : ∀ row, (f row).expiresAt = row.expiresAt) (hp : ∀ row, (f row).plea = row.plea)
    (hf : ∀ row x, db.approvals.find a = some row → row.expiresAt = some x → Concludes (f row) entry ∧
      ((f row).status = .expired → x ≤ entry.startedAt + d) ∧ ((f row).status ≠ .expired → entry.startedAt - d < x)) :
    db'.OnTime d log := by
  intro row' hm'
  have hr := Table.find_of_mem hm'
  rw [ha, Table.find_modify] at hr
  split at hr
  case isFalse => exact h row' <| Table.mem_of_find hr
  case isTrue hi =>
    rw [hi] at hr
    obtain ⟨row, hr', rfl⟩ := Option.map_eq_some_iff.mp hr
    obtain ⟨x, hx⟩ := h row <| Table.mem_of_find hr'
    exact ⟨x, (he row).trans hx.expiresAt, hp row ▸ hx.asked, fun _ => ⟨entry, hm, hf row x hr' hx.expiresAt⟩⟩

-- An approval is asked for.
theorem create {request : ExecutionRequest} (h : db.OnTime d log) (hc : Create (.timely d) now request db event db')
    (hs : entry.startedAt = now) (hp : (evaluateExecutionPolicy request).status = .approval → pleaOf entry = some request.plea) :
    db'.OnTime d (log ++ [entry]) := by
  cases hc
  case mk ha hu =>
    cases ha
    case approval a t c hst ht _ _ _ =>
      cases hu
      have hm : entry ∈ log ++ [entry] := List.mem_append_right _ <| List.mem_singleton_self _
      obtain ⟨hl, hr⟩ := expiry_within ht.left ht.right
      refine Table.forall_insert (h.concat rfl) ⟨t + DEFAULT_APPROVAL_TTL_MS, rfl, ⟨entry, hm, hp hst, ?_, ?_⟩, ?_⟩
      · exact hs ▸ hl
      · exact hs ▸ hr
      · exact fun hn => absurd rfl hn
    all_goals
      cases hu
      exact h.concat rfl

theorem decide {decision : ApprovalDecision} (h : db.OnTime d log) (hc : Decide (.timely d) now decision db outcome db') :
    db'.OnTime d (log ++ [⟨pid, .decideApproval decision, outcome, now⟩]) := by
  cases hc
  case expired execution old y t ho hy ht hle hr =>
    have ⟨_, hu⟩ : now - d ≤ t ∧ t ≤ now + d := ht
    have ha : db'.approvals = db.approvals.modify decision.approvalId (·.expire now) fun _ => rfl := hr.approvals
    refine (h.concat rfl).settle (List.mem_append_right _ <| List.mem_singleton_self _) _ ha (fun _ => rfl) (fun _ => rfl) fun row x hf hx => ?_
    cases hf.symm.trans ho.findApproval
    cases hx.symm.trans hy
    refine ⟨.late (Table.key_of_find hf).symm rfl, fun _ => le_trans hle ht.right, fun hn => absurd rfl hn⟩
  case decided execution old n db₁ db₂ db₃ ho hx hd hv hs hu =>
    have ha : db'.approvals = db.approvals.modify decision.approvalId
        (·.decide decision.status.toStatus decision.decidedBy (decision.decidedAt.timestamptz.getD now)) fun _ => rfl := by
      subst hd
      cases hv
      cases hu
      obtain ⟨-, rfl⟩ | ⟨-, -, rfl⟩ | ⟨-, -, rfl⟩ := hs <;> rfl
    refine (h.concat rfl).settle (List.mem_append_right _ <| List.mem_singleton_self _) _ ha (fun _ => rfl) (fun _ => rfl) fun row x hf hy => ?_
    cases hf.symm.trans ho.findApproval
    obtain ⟨t, ht, hlt⟩ := hx x hy
    refine ⟨.decided (Table.key_of_find hf).symm rfl rfl, ?_, fun _ => lt_of_le_of_lt ht.left hlt⟩
    exact fun hn => absurd hn decision.status.toStatus_ne_expired

theorem sweep {limit : Int} {result : ExpireApprovalsResult} (h : db.OnTime d log)
    (hc : Sweep (.timely d) now limit db result db') (hd : 0 ≤ d) :
    db'.OnTime d (log ++ [⟨pid, .expireApprovalsOnce limit, result, now⟩]) := by
  cases hc
  case mk candidates locked ids rows rejected skipped db₁ hs _ hl hp hx hr =>
    let entry : platform.Commit := ⟨pid, .expireApprovalsOnce limit, ⟨rows.length, rejected, skipped⟩, now⟩
    -- What is swept has been due all the time.
    let due (db : Db) : Prop := ∀ a ∈ ids, ∃ row, db.approvals.find a = some row ∧ ∃ x ∈ row.expiresAt, x ≤ now
    have hi : due db := by
      intro a ha
      obtain ⟨c, hc, rfl⟩ := List.mem_map.mp <| hp.subset ha
      exact hs c (hl.mem c hc).left
    have hm : entry ∈ log ++ [entry] := List.mem_append_right _ <| List.mem_singleton_self _
    have ⟨ht, _⟩ : db₁.OnTime d (log ++ [entry]) ∧ due db₁ := by
      refine hx.preserves (Q := fun db => db.OnTime d (log ++ [entry]) ∧ due db) ?_ ⟨h.concat rfl, hi⟩
      intro a db row db' ha he ⟨ht, hi⟩
      cases he
      case none => exact ⟨ht, hi⟩
      case some row hf _ =>
        refine ⟨ht.settle hm _ (db.setApproval_approvals ..) (fun _ => rfl) (fun _ => rfl) fun row x hf hx => ?_, ?_⟩
        · obtain ⟨_, hf', y, hy, hle⟩ := hi a ha
          cases hf.symm.trans hf'
          cases hx.symm.trans hy
          exact ⟨.swept rfl, fun _ => le_trans hle <| le_add_of_nonneg_right hd, fun hn => absurd rfl hn⟩
        · intro a' ha'
          obtain ⟨row', hf', hx'⟩ := hi a' ha'
          rw [db.setApproval_approvals, Table.find_modify]
          split
          · exact ⟨_, congrArg _ hf', hx'⟩
          · exact ⟨row', hf', hx'⟩
    exact ht.mono (List.Subset.refl _) <| hr.unchanged Db.approvals Reject.approvals

theorem commit {c : Call} {r : c.Result} (h : db.OnTime d log) (hd : 0 ≤ d) (hc : c.Commits (.timely d) now db r db') :
    db'.OnTime d (log ++ [⟨pid, c, r, now⟩]) := by
  cases c
  case start request requestHash options =>
    have hw : (db.withTenant request.identity.tenantId).OnTime d log := h
    have hp {event} (hs : (evaluateExecutionPolicy request).status = .approval) :
        pleaOf ⟨pid, .start request requestHash options, ⟨event, false⟩, now⟩ = some request.plea := by
      simp [pleaOf, hs]
    cases hc
    case unkeyed hc => exact hw.create hc rfl hp
    case reused     => exact hw.concat rfl
    case keyed hc   => exact (hw.create hc rfl hp).mono (List.Subset.refl _) rfl
  case decideApproval      => exact h.decide hc
  case expireApprovalsOnce => exact h.sweep hc hd
  case transition          => exact h.concat hc.right.approvals.left
  case fail                => exact h.concat hc.right.approvals.left
  case claimDispatches =>
    cases hc
    case mk hx => exact h.concat <| hx.unchanged Db.approvals fun _ _ _ _ => ClaimOne.approvals
  case markDispatchSucceeded => cases hc <;> exact h.concat rfl
  case markDispatchFailed    => cases hc <;> exact h.concat rfl

end Db.OnTime
end

-- No approval expires before its time is over, but for the clocks, and none is decided after it.
theorem approvals_have_their_time {d : Int} {s : platform.State} {row : ApprovalRow} (hd : 0 ≤ d)
    (h : Reachable (Guard.timely d) s) (hm : row ∈ s.db.approvals.rows) :
    ∃ asked ∈ s.log, pleaOf asked = some row.plea ∧
      (row.status ≠ .pending → ∃ settled ∈ s.log, Concludes row settled ∧
        (row.status = .expired → asked.startedAt + DEFAULT_APPROVAL_TTL_MS - 2 * d ≤ settled.startedAt) ∧
        (row.status ≠ .expired → settled.startedAt < asked.startedAt + DEFAULT_APPROVAL_TTL_MS + 2 * d)) := by
  have ⟨_, hs⟩ := h.atomic <| Guard.meets_timely d
  have ht : s.db.OnTime d s.log :=
    AtomicSteps.log_invariant (Q := Db.OnTime d) hs (List.forall_mem_nil _) fun _ _ _ _ _ _ _ hc _ ht => ht.commit hd hc
  obtain ⟨x, hx⟩ := ht row hm
  obtain ⟨asked, ha, hp, hl, hu⟩ := hx.asked
  refine ⟨asked, ha, hp, fun hn => ?_⟩
  obtain ⟨settled, hs, hc, hx, hn⟩ := hx.settled hn
  exact ⟨settled, hs, hc, fun he => expiry_lower hl (hx he), fun he => expiry_upper (hn he) hu⟩

namespace Sample

-- Whether the clock of a process is at most two milliseconds off when it runs a statement.
def nearly : platform.Label → platform.State → Bool
  | .stmt pid amb, s => (s.procs pid).all fun
    | .inside _ t _ => t.startedAt - 2 ≤ amb.dateNow ∧ amb.dateNow ≤ t.startedAt + 2
    | _             => true
  | _, _ => true

theorem nearly_timely {l : platform.Label} {s : platform.State} (h : nearly l s) : Guard.timely 2 l s := by
  cases l
  case stmt pid amb =>
    intro c k' tr now k hp
    simpa [nearly, hp] using h
  all_goals trivial

-- A decision that begins a moment before the approval expires, by a clock that is ahead.
def hasty : List platform.Label :=
  transact 0 (started true none) 1 "a" 11 ++ .tick 86400000 :: transact 1 decided 86400001 "b" 11

end Sample

open Sample in
theorem approvals_have_their_time_hasty :
    let s := reach nearly hasty
    ∃ row ∈ s.db.approvals.rows, row.status = .expired ∧ ∃ asked ∈ s.log, pleaOf asked = some row.plea ∧
      ∃ settled ∈ s.log, Concludes row settled ∧ asked.startedAt + DEFAULT_APPROVAL_TTL_MS - 4 ≤ settled.startedAt := by
  intro s
  have hr : Reachable (Guard.timely 2) s := reach_reachable fun _ _ _ => nearly_timely
  obtain ⟨row, hm, hs⟩ : ∃ row ∈ s.db.approvals.rows, row.status = .expired := by decide +kernel
  obtain ⟨asked, ha, hp, hn⟩ := approvals_have_their_time (by decide) hr hm
  obtain ⟨settled, hl, hc, hx, _⟩ := hn (by rw [hs]; decide)
  exact ⟨row, hm, hs, asked, ha, hp, settled, hl, hc, hx hs⟩

end Logon
