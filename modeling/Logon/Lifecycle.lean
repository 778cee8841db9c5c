import Logon.Runtime.Reachable

-- The event log of each execution is a path through the state machine.

namespace Logon

section
variable {α : Type} {f : α → Nat} {l : List α}

theorem foldl_max_range' (n : Nat) : (List.range' 1 n).foldl max 0 = n := by
  induction n
  case zero      => rfl
  case succ n ih => simp [List.range'_concat, ih, Nat.add_comm]

-- In a list that is numbered from one on, the last item has the highest number.
theorem find?_numbered (h : l.map f = List.range' 1 l.length) : l.find? (f · = l.length) = l.getLast? := by
  obtain rfl | ⟨l, a, rfl⟩ := List.eq_nil_or_concat l
  case inl => rfl
  case inr =>
    have hl : l.map f ++ [f a] = List.range' 1 l.length ++ [1 + l.length] := by
      simpa [List.range'_concat] using h
    have ⟨hl, ha⟩ := List.append_inj hl (by simp)
    simp only [List.cons.injEq, and_true] at ha
    have hn : l.find? (f · = l.length + 1) = none := by
      rw [List.find?_eq_none]
      intro b hb
      have : f b ∈ List.range' 1 l.length := hl ▸ List.mem_map_of_mem hb
      simp at this ⊢
      omega
    simp [List.find?_append, hn, ha, Nat.add_comm 1]

theorem numbered_concat (h : l.map f = List.range' 1 l.length) (ha : f a = l.length + 1) :
    (l ++ [a]).map f = List.range' 1 (l ++ [a]).length := by
  simp [h, ha, List.range'_concat, Nat.add_comm]

end

namespace Db

variable {db db' : Db} {P : Premise} {now : Time}

def statuses (db : Db) (e : String) : List ExecutionStatus :=
  (db.eventsOf e).map (·.status)

-- The sequences of an execution's events are one, two, and so on.
def Numbered (db : Db) (e : String) : Prop :=
  (db.eventsOf e).map (·.sequence) = List.range' 1 (db.eventsOf e).length

theorem Numbered.maxSequence (h : db.Numbered e) : db.maxSequence e = (db.eventsOf e).length := by
  rw [Db.maxSequence, ← List.foldl_map, h, foldl_max_range']

theorem Numbered.latestEvent (h : db.Numbered e) : db.latestEvent e = (db.eventsOf e).getLast? := by
  rw [Db.latestEvent, h.maxSequence]
  exact find?_numbered h

-- The events of an execution account for its status.
structure Accounts (db : Db) (e : String) (status : ExecutionStatus) : Prop where
  numbered  : db.Numbered e
  lifecycle : Lifecycle (db.statuses e)
  current   : (db.statuses e).getLast? = some status

theorem Accounts.congr (hv : db'.eventsOf e = db.eventsOf e) (h : db.Accounts e status) :
    db'.Accounts e status where
  numbered  := by rw [Numbered, hv]; exact h.numbered
  lifecycle := by rw [statuses, hv]; exact h.lifecycle
  current   := by rw [statuses, hv]; exact h.current

structure Ledger (db : Db) : Prop where
  accounts : ∀ {e row}, db.executions.find e = some row → db.Accounts e row.status
  orphans  : ∀ {e}, db.executions.find e = none → db.eventsOf e = []

theorem Ledger.empty : Db.empty.Ledger where
  accounts := nofun
  orphans  := fun _ => rfl

theorem Ledger.congr (he : db'.executions = db.executions) (hv : db'.events = db.events) (h : db.Ledger) :
    db'.Ledger where
  accounts hf := (h.accounts (he ▸ hf)).congr (by simp only [eventsOf, hv])
  orphans hf  := by simpa only [eventsOf, hv] using h.orphans (he ▸ hf)

theorem Ledger.advance (ha : Advance now db event db') (h : db.Ledger) : db'.Ledger := by
  cases ha
  case mk row c hf ht hs hn hc =>
    have hv e : (db.advance event now c).eventsOf e = _ := eventsOf_insert hn e
    have hx e : (db.advance event now c).executions.find e = _ := Table.find_modify db.executions _ e _ (by simp)
    constructor
    case accounts =>
      intro e row' hf'
      rw [hx] at hf'
      split at hf'
      case isTrue he =>
        subst he
        rw [hf] at hf'
        cases hf'
        have ha := h.accounts hf
        have hv : (db.advance event now c).eventsOf event.executionId =
            db.eventsOf event.executionId ++ [EventRow.of event c] := by
          simp [hv]
        constructor
        case numbered =>
          rw [Numbered, hv]
          exact numbered_concat ha.numbered <| hs.trans (by rw [ha.numbered.maxSequence])
        case lifecycle =>
          simp only [statuses, hv, List.map_append]
          exact ha.lifecycle.concat ha.current ht
        case current => simp [statuses, hv]
      case isFalse he =>
        refine (h.accounts hf').congr ?_
        simp [hv, Ne.symm he]
    case orphans =>
      intro e hf'
      rw [hx] at hf'
      split at hf'
      case isTrue he =>
        subst he
        simp [hf] at hf'
      case isFalse he => simp [hv, Ne.symm he, h.orphans hf']

theorem Ledger.addExecution {request : ExecutionRequest}
    (hf : db.executions.find request.identity.executionId = none)
    (hn : db.events.find (request.identity.executionId, 1) = none) (h : db.Ledger) :
    (db.addExecution request (createdEvent request (.iso t)) c t).Ledger := by
  have hv e : (db.addExecution request (createdEvent request (.iso t)) c t).eventsOf e = _ :=
    eventsOf_insert hn e
  have hx e : (db.addExecution request (createdEvent request (.iso t)) c t).executions.find e = _ :=
    Table.find_insert db.executions _ e
  constructor
  case accounts =>
    intro e row hf'
    rw [hx] at hf'
    split at hf'
    case isTrue hr =>
      replace hr : e = request.identity.executionId := hr
      subst hr
      rw [hf] at hf'
      cases hf'
      have hv : (db.addExecution request (createdEvent request (.iso t)) c t).eventsOf
          request.identity.executionId = [EventRow.of (createdEvent request (.iso t)) t] := by
        simp [hv, h.orphans hf]
      constructor
      case numbered  => simp [Numbered, hv]
      case lifecycle =>
        simpa [statuses, hv] using Lifecycle.singleton (evaluateExecutionPolicy request).status_initial
      case current   => simp [statuses, hv]
    case isFalse hr =>
      replace hr : e ≠ request.identity.executionId := hr
      refine (h.accounts hf').congr ?_
      simp [hv, hr.symm]
  case orphans =>
    intro e hf'
    rw [hx] at hf'
    split at hf'
    case isTrue => cases hf'
    case isFalse hr =>
      replace hr : e ≠ request.identity.executionId := hr
      simp [hv, hr.symm, h.orphans hf']

-- No other changes concern executions or events.
theorem Ledger.change (hc : Change P now db db') (h : db.Ledger) : db'.Ledger := by
  cases hc
  case execution hf _ hn => exact h.addExecution hf hn
  case advance hv        => exact h.advance hv
  all_goals refine h.congr ?_ ?_ <;> rfl

end Db

-- The events that an execution has got have statuses of a kind.
def Db.Appends (db db' : Db) (e : String) (kind : ExecutionStatus → Prop) : Prop :=
  ∃ l, db'.statuses e = db.statuses e ++ l ∧ ∀ s ∈ l, kind s

namespace Db.Appends

variable {db db' : Db} {kind : ExecutionStatus → Prop}

theorem congr (h : db'.events = db.events) : db.Appends db' e kind :=
  ⟨[], by simp [statuses, eventsOf, h], by simp⟩

theorem refl : db.Appends db e kind :=
  congr rfl

theorem same (hk : ∀ s, ¬kind s) (h : db.Appends db' e kind) : db'.statuses e = db.statuses e := by
  have ⟨l, he, hl⟩ := h
  have : l = [] := List.eq_nil_iff_forall_not_mem.mpr fun s hs => hk s (hl s hs)
  simpa [this] using he

theorem mono {kind' : ExecutionStatus → Prop} (hk : ∀ s, kind s → kind' s) (h : db.Appends db' e kind) :
    db.Appends db' e kind' := by
  have ⟨l, he, hl⟩ := h
  exact ⟨l, he, fun s hs => hk s (hl s hs)⟩

theorem trans (h₁ : db.Appends db₁ e kind) (h₂ : db₁.Appends db' e kind) : db.Appends db' e kind := by
  have ⟨l₁, he₁, hl₁⟩ := h₁
  have ⟨l₂, he₂, hl₂⟩ := h₂
  refine ⟨l₁ ++ l₂, by rw [he₂, he₁, List.append_assoc], ?_⟩
  intro s hs
  exact (List.mem_append.mp hs).elim (hl₁ s) (hl₂ s)

theorem mem (h : db.Appends db' e kind) (hm : status ∈ db.statuses e) : status ∈ db'.statuses e := by
  have ⟨l, he, _⟩ := h
  simp [he, hm]

-- Only the first event of an execution tells how it has begun.
theorem head_iff (h : db.Appends db' e kind) (hk : kind status → db.statuses e ≠ []) :
    (db'.statuses e).head? = some status ↔ (db.statuses e).head? = some status := by
  have ⟨l, hl, hk'⟩ := h
  rw [hl]
  cases hs : db.statuses e
  case cons => simp
  case nil  =>
    simp only [List.nil_append, List.head?_nil, reduceCtorEq, iff_false]
    intro hh
    exact hk (hk' _ <| List.mem_of_head? hh) hs

theorem mem_tail (h : db.Appends db' e kind)
    (hm : status ∈ (db'.statuses e).tail) : status ∈ (db.statuses e).tail ∨ kind status := by
  have ⟨l, hl, hk'⟩ := h
  rw [hl] at hm
  by_cases hn : db.statuses e = []
  case pos =>
    rw [hn, List.nil_append] at hm
    exact .inr <| hk' _ <| List.mem_of_mem_tail hm
  case neg =>
    rw [List.tail_append_of_ne_nil hn] at hm
    exact (List.mem_append.mp hm).imp_right (hk' _)

theorem insert {event : ExecutionEvent} (hn : db.events.find (event.executionId, event.sequence) = none)
    (he : db'.events = db.events.insert (.of event c)) (hk : e = event.executionId → kind event.status) :
    db.Appends db' e kind := by
  have hv : db'.eventsOf e = db.eventsOf e ++ if event.executionId = e then [.of event c] else [] := by
    rw [eventsOf, he]
    exact eventsOf_insert hn e
  refine ⟨_, by rw [statuses, hv, List.map_append]; rfl, ?_⟩
  split
  case isTrue h => simpa using hk h.symm
  case isFalse  => simp

end Db.Appends

section
variable {P : Premise} {now : Time} {db db' : Db}

theorem Advance.appends (h : Advance now db event db') :
    db.Appends db' e fun s => e = event.executionId ∧ s = event.status := by
  cases h
  case mk hn _ => exact .insert hn rfl fun he => ⟨he, rfl⟩

theorem Advance.find (h : Advance now db event db') :
    ∃ c, db'.events.find (event.executionId, event.sequence) = some (.of event c) := by
  cases h
  case mk c _ _ _ hn _ => exact ⟨c, Table.find_insert_new hn⟩

theorem Advance.findExecution (h : Advance now db event db') :
    ∃ row, db'.executions.find event.executionId = some row ∧ row.status = event.status := by
  cases h
  case mk row c hf _ _ _ _ => exact ⟨row.update event.status now, by simp [Table.find_modify_self, hf], rfl⟩

theorem Advance.findExecution_ne (h : Advance now db event db') (hn : e ≠ event.executionId) :
    db'.executions.find e = db.executions.find e := by
  cases h
  exact Table.find_modify_ne _ _ (by simp) hn

theorem Advance.statuses (h : Advance now db event db') :
    db'.statuses event.executionId = db.statuses event.executionId ++ [event.status] := by
  cases h
  case mk c _ _ _ hn _ =>
    have hv : (db.advance event now c).eventsOf event.executionId = _ := Db.eventsOf_insert hn event.executionId
    simp [Db.statuses, hv]

theorem Create.appends {request : ExecutionRequest} (h : Create P now request db event db') :
    db.Appends db' e fun s => e = request.identity.executionId ∧ s.Initial := by
  cases h
  case mk hn ha hu =>
    cases hu
    exact .insert hn ha.events fun he => ⟨he, (evaluateExecutionPolicy request).status_initial⟩

theorem Create.statuses {request : ExecutionRequest} (h : Create P now request db event db')
    (hn : db.eventsOf request.identity.executionId = []) :
    db'.statuses request.identity.executionId = [(evaluateExecutionPolicy request).status] := by
  cases h
  case mk c t db₁ _ _ _ _ hf ha hu =>
    have hv : db'.eventsOf request.identity.executionId =
        (db.addExecution request (createdEvent request (.iso t)) c t).eventsOf request.identity.executionId := by
      cases hu
      simp only [Db.eventsOf, Db.addAudit_events, ha.events]
    have hv' : (db.addExecution request (createdEvent request (.iso t)) c t).eventsOf request.identity.executionId = _ :=
      Db.eventsOf_insert hf request.identity.executionId
    simp [Db.statuses, hv, hv', hn]

theorem Audit.executions (h : Audit P now db e tenantId action actorId allowed reason db') :
    db'.executions = db.executions := by
  cases h
  rfl

theorem Reject.findExecution (h : Reject P now e a db db') :
    ∃ row, db'.executions.find e = some row ∧ row.status = .rejected := by
  cases h
  case mk hv hu => exact hu.executions ▸ hv.findExecution

theorem Reject.findExecution_ne (h : Reject P now e' a db db') (hn : e ≠ e') :
    db'.executions.find e = db.executions.find e := by
  cases h
  case mk hv hu => exact hu.executions ▸ hv.findExecution_ne hn

theorem Reject.appends (h : Reject P now e' a db db') : db.Appends db' e fun s => e = e' ∧ s = .rejected := by
  cases h
  case mk hv hu =>
    cases hu
    exact hv.appends.trans <| .congr rfl

-- The statuses that a transaction may give to an execution.
def Call.Gives (e : String) (s : ExecutionStatus) : Call → Prop
  | .start request _ _       => e = request.identity.executionId ∧ s.Initial
  | .decideApproval decision => e = decision.executionId ∧ (s = .rejected ∨ s = PostgresExecutionService.nextStatus decision.status)
  | .expireApprovalsOnce _   => s = .rejected
  | .transition e' s' _ _    => e = e' ∧ s = s'
  | .fail e' _ _             => e = e' ∧ s = .failed
  | _                        => False

theorem Decide.appends {decision : ApprovalDecision} (h : Decide P now decision db outcome db') :
    db.Appends db' e fun s =>
      e = decision.executionId ∧ (s = .rejected ∨ s = PostgresExecutionService.nextStatus decision.status) := by
  cases h
  case expired hr => exact .trans (.congr rfl) <| hr.appends.mono fun _ => And.imp_right .inl
  case decided hd hv hs hu =>
    subst hd
    refine .trans (.congr rfl) <| (hv.appends.mono fun _ => And.imp_right .inr).trans <| .congr ?_
    cases hu
    obtain ⟨-, rfl⟩ | ⟨-, -, rfl⟩ | ⟨-, -, rfl⟩ := hs <;> rfl

theorem RejectAll.unchanged (f : Db → γ) (hf : ∀ {e a db db'}, Reject P now e a db db' → f db' = f db)
    (h : RejectAll P now db claims rejected skipped db') : f db' = f db := by
  induction h
  case nil            => rfl
  case skip ih        => exact ih
  case reject hr _ ih => rw [ih, hf hr]

theorem RejectAll.appends (h : RejectAll P now db claims rejected skipped db') :
    db.Appends db' e fun s => e ∈ claims.map (·.executionId) ∧ s = .rejected := by
  induction h
  case nil            => exact .refl
  case skip ih        => exact ih.mono fun _ => And.imp_left <| List.mem_cons_of_mem _
  case reject hr _ ih =>
    refine (hr.appends.mono fun _ ⟨he, hs⟩ => ?_).trans <| ih.mono fun _ => And.imp_left <| List.mem_cons_of_mem _
    exact ⟨by simp [he], hs⟩

theorem Expire.events (h : Expire P now a db row db') : db'.events = db.events := by
  cases h <;> rfl

theorem ClaimOne.events (h : ClaimOne P now leaseMs e db row db') : db'.events = db.events := by
  cases h <;> rfl

theorem Db.Ledger.accounts_advance (h : db.Ledger) (hv : Advance now db event db') :
    ∃ status, db.Accounts event.executionId status ∧ event.sequence = (db.statuses event.executionId).length + 1 := by
  cases hv
  case mk row c hf ht hs hn hc =>
    have ha := h.accounts hf
    exact ⟨row.status, ha, by rw [hs, ha.numbered.maxSequence, Db.statuses, List.length_map]⟩

theorem Db.Ledger.statuses_eq_nil (h : db.Ledger) (hf : db.executions.find e = none) : db.statuses e = [] := by
  simp [statuses, h.orphans hf]

theorem Db.Ledger.exists_row (h : db.Ledger) (hs : db.statuses e ≠ []) : ∃ row, db.executions.find e = some row := by
  cases hf : db.executions.find e
  case none     => exact absurd (h.statuses_eq_nil hf) hs
  case some row => exact ⟨row, rfl⟩

theorem Call.Commits.appends {c : Call} {r : c.Result} (h : c.Commits P now db r db') :
    db.Appends db' e (c.Gives e) := by
  cases c
  case start =>
    cases h
    case unkeyed hc => exact .trans (.congr rfl) hc.appends
    case reused     => exact .congr rfl
    case keyed hc   => exact .trans (.congr rfl) <| hc.appends.trans (.congr rfl)
  case decideApproval => exact Decide.appends h
  case expireApprovalsOnce =>
    cases h
    case mk hc hr =>
      exact .trans (.congr <| hc.unchanged Db.events fun _ _ _ _ => Expire.events) <| hr.appends.mono fun _ => And.right
  case transition =>
    obtain ⟨⟨_, _, rfl⟩, hv⟩ := h
    exact hv.appends
  case fail =>
    obtain ⟨⟨_, _, rfl⟩, hv⟩ := h
    exact hv.appends
  case claimDispatches =>
    cases h
    case mk hc => exact .congr <| hc.unchanged Db.events fun _ _ _ _ => ClaimOne.events
  case markDispatchSucceeded => cases h <;> exact .congr rfl
  case markDispatchFailed    => cases h <;> exact .congr rfl

-- Only a transition takes an execution to `APPROVAL` that did not begin there.
theorem Call.Commits.approval_mem_tail {c : Call} {r : c.Result} (h : c.Commits P now db r db') (hl : db.Ledger)
    (hm : .approval ∈ (db'.statuses e).tail) :
    .approval ∈ (db.statuses e).tail ∨ ∃ actorId payload, c = .transition e .approval actorId payload := by
  have hg := h.appends.mem_tail hm
  cases c
  case start request _ _ =>
    -- A new execution has only one status so far.
    obtain hm' | ⟨rfl, _⟩ := hg
    case inl => exact .inl hm'
    refine .inl ?_
    have hn {db₁ db₂ event} (hc : Create P now request db₁ event db₂) (hv : db₁.events = db.events)
        (hx : db₁.executions = db.executions) :
        db₂.statuses request.identity.executionId = [(evaluateExecutionPolicy request).status] := by
      apply hc.statuses
      cases hc
      case mk hf _ _ _ _ _ =>
        rw [Db.eventsOf, hv]
        exact hl.orphans (hx ▸ hf)
    cases h
    case unkeyed hc => simp [hn hc rfl rfl] at hm
    case reused     => exact hm
    case keyed hc   =>
      have hs := hn hc rfl rfl
      simp only [Db.statuses, Db.eventsOf, Db.addIdempotency_events] at hm hs
      simp [hs] at hm
  case transition =>
    obtain hm' | ⟨rfl, rfl⟩ := hg
    · exact .inl hm'
    · exact .inr ⟨_, _, rfl⟩
  case decideApproval decision =>
    obtain hm' | ⟨_, hs | hs⟩ := hg
    · exact .inl hm'
    · cases hs
    · exact absurd hs.symm <| PostgresExecutionService.nextStatus_ne_approval _
  case fail                  => exact .inl <| hg.elim id fun hk => by cases hk.right
  case expireApprovalsOnce   => exact .inl <| hg.elim id fun hk => by cases hk
  case claimDispatches       => exact .inl <| hg.elim id fun hk => by cases hk
  case markDispatchSucceeded => exact .inl <| hg.elim id fun hk => by cases hk
  case markDispatchFailed    => exact .inl <| hg.elim id fun hk => by cases hk

end

variable {G : Guard} {s : platform.State}

theorem Call.Commits.ledger {c : Call} {r : c.Result} (h : c.Commits P now db r db') (hl : db.Ledger) :
    db'.Ledger :=
  h.changes.preserves Db.Ledger.change hl

theorem Reachable.ledger (h : Reachable G s) : s.db.Ledger := by
  have ⟨_, hs⟩ := h.atomic G.meets_none
  exact AtomicSteps.db_invariant hs .empty fun _ _ _ _ _ hc _ => hc.ledger

theorem events_follow_the_state_machine (h : Reachable G s) (hf : s.db.executions.find e = some row) :
    (s.db.eventsOf e).map (·.sequence) = List.range' 1 (s.db.eventsOf e).length ∧
    1 ≤ (s.db.eventsOf e).length ∧ (s.db.eventsOf e).length ≤ 13 ∧
    (∃ first, (s.db.statuses e).head? = some first ∧ first.Initial) ∧
    (s.db.statuses e).IsChain (·.canTransition ·) ∧
    (s.db.statuses e).Nodup ∧
    (∀ i status, (s.db.statuses e)[i]? = some status → status.Terminal → i + 1 = (s.db.eventsOf e).length) ∧
    (s.db.latestEvent e).map (·.status) = some row.status := by
  have ha := h.ledger.accounts hf
  have hl : (s.db.statuses e).length = (s.db.eventsOf e).length := List.length_map _
  refine ⟨ha.numbered, ?pos, ?le, ha.lifecycle.initial, ha.lifecycle.path, ha.lifecycle.nodup, ?last, ?latest⟩
  case pos    => exact hl ▸ List.length_pos_iff.mpr ha.lifecycle.ne_nil
  case le     => exact hl ▸ ha.lifecycle.length_le
  case last   => exact fun i status hi ht => hl ▸ ha.lifecycle.terminal_last hi ht
  case latest => rw [ha.numbered.latestEvent, ← List.getLast?_map]; exact ha.current

-- Three clients have transactions about an execution at the same time: one approves it, one moves it on, and one lets it
-- fail.
def Sample.crowded : List platform.Label :=
  gated ++ [
    .spawn 1 decided,
    .spawn 2 (do return .moved (← PostgresExecutionService.Process.transition "e" .evidence "worker" [])),
    .spawn 3 (do return .moved (← PostgresExecutionService.Process.fail "e" "worker" "lost")),
    .begin 3, .begin 2, .begin 1
  ] ++ List.replicate 11 (.stmt 1 (ambient 5 "b")) ++ [.commit 1] ++ List.replicate 5 (.stmt 2 (ambient 6 "")) ++ [.commit 2] ++
  List.replicate 5 (.stmt 3 (ambient 7 "")) ++ [.commit 3]

open Sample in
theorem events_follow_the_state_machine_gated :
    let s := reach unchecked crowded
    s.db.statuses "e" = [.approval, .execution, .evidence, .failed] ∧
    ∃ row, s.db.executions.find "e" = some row ∧ s.db.Numbered "e" ∧ (s.db.statuses "e").IsChain (·.canTransition ·) ∧
      (s.db.latestEvent "e").map (·.status) = some row.status := by
  intro s
  have hr : Reachable Guard.any s := reach_reachable fun _ _ _ _ => trivial
  have hx : (s.db.executions.find "e").isSome := by decide +kernel
  obtain ⟨row, hf⟩ := Option.isSome_iff_exists.mp hx
  have ⟨hn, _, _, _, hp, _, _, hl⟩ := events_follow_the_state_machine hr hf
  exact ⟨by decide +kernel, row, hf, hn, hp, hl⟩

end Logon
