import Logon.Database.Constraints
import Logon.Runtime.Alone

-- What the parts of a transaction do if nobody interferes. None of these parts fails.

namespace Logon

open Program PgExecutionStore

namespace Db

theorem le_foldl_max (f : α → Nat) (l : List α) (n : Nat) :
    n ≤ l.foldl (fun m a => max m (f a)) n ∧ ∀ a ∈ l, f a ≤ l.foldl (fun m a => max m (f a)) n := by
  induction l generalizing n
  case nil => simp
  case cons b l ih =>
    have ⟨hn, hl⟩ := ih (max n (f b))
    refine ⟨Nat.le_trans (Nat.le_max_left _ _) hn, fun a ha => ?_⟩
    cases ha
    case head       => exact Nat.le_trans (Nat.le_max_right _ _) hn
    case tail ha    => exact hl a ha

-- The next sequence of an execution is not in use.
theorem find_nextSequence (db : Db) (e : String) : db.events.find (e, db.maxSequence e + 1) = none := by
  rw [find_events, List.find?_eq_none]
  intro ev hev
  have := (le_foldl_max EventRow.sequence (db.eventsOf e) 0).right ev hev
  simp only [decide_eq_true_eq]
  unfold maxSequence
  omega

theorem grows_updateExecution (db : Db) (e : String) (status : ExecutionStatus) (now : Time) :
    db.Grows { db with executions := db.executions.modify e (·.update status now) } :=
  grows_effect (.updateExecution e status) now db

theorem grows_advance (db : Db) (event : ExecutionEvent) (now c : Time) : db.Grows (db.advance event now c) :=
  (db.grows_updateExecution event.executionId event.status now).trans <| grows_effect (.insertEvent event) c _

end Db

variable {allow : Db → Ambient → Prop} {now : Time} {db db' : Db}

section
variable {o : Statement} {Q : o.Reply → Prop}

theorem query_alone {res : Except KernelError o.Reply} (h : (query o).Runs (engine.alone allow now) db res db')
    (hr : ∀ amb, allow db amb → ∃ r, o.reply now amb db = .ok r ∧ Q r) :
    ∃ r, res = .ok r ∧ Q r ∧ db' = o.effect r db := by
  obtain ⟨r, db₁, ⟨⟨amb, ha, ho⟩, -, rfl⟩, rfl, rfl⟩ | ⟨e, ⟨amb, ha, he⟩, -⟩ := h
  case inl =>
    have ⟨r', ho', hq⟩ := hr amb ha
    cases ho.symm.trans ho'
    exact ⟨r, rfl, hq, rfl⟩
  case inr =>
    have ⟨_, ho', _⟩ := hr amb ha
    cases he.symm.trans ho'

-- A statement whose reply only depends on the database.
theorem query_replies {r : o.Reply} {res : Except KernelError o.Reply}
    (h : (query o).Runs (engine.alone allow now) db res db') (hr : ∀ amb, o.reply now amb db = .ok r) :
    ∃ r', res = .ok r' ∧ r' = r ∧ db' = o.effect r db := by
  have ⟨r', he, hq, hd⟩ := @query_alone allow now db db' o (· = r) res h fun amb _ => ⟨r, hr amb, rfl⟩
  exact ⟨r', he, hq, hq ▸ hd⟩

-- A statement that writes nothing.
theorem query_reads {r : o.Reply} {res : Except KernelError o.Reply}
    (h : (query o).Runs (engine.alone allow now) db res db') (hr : ∀ amb, o.reply now amb db = .ok r)
    (he : o.effect r db = db) : ∃ r', res = .ok r' ∧ r' = r ∧ db = db' := by
  have ⟨r', hr', hq, hd⟩ := query_replies h hr
  exact ⟨r', hr', hq, he.symm.trans hd.symm⟩

end

theorem randomUUID_alone (h : (query .randomUUID).Runs (engine.alone allow now) db res db') :
    ∃ u, res = .ok u ∧ (∃ amb, allow db amb ∧ amb.uuid = u) ∧ db = db' := by
  have ⟨u, hu, hq, hd⟩ := @query_alone allow now db db' .randomUUID (fun u => ∃ amb, allow db amb ∧ amb.uuid = u) res h
    fun amb ha => ⟨amb.uuid, rfl, amb, ha, rfl⟩
  exact ⟨u, hu, hq, hd.symm⟩

theorem dateNow_alone (h : (query .dateNow).Runs (engine.alone allow now) db res db') :
    ∃ t, res = .ok t ∧ (∃ amb, allow db amb ∧ amb.dateNow = t) ∧ db = db' := by
  have ⟨t, ht, hq, hd⟩ := @query_alone allow now db db' .dateNow (fun t => ∃ amb, allow db amb ∧ amb.dateNow = t) res h
    fun amb ha => ⟨amb.dateNow, rfl, amb, ha, rfl⟩
  exact ⟨t, ht, hq, hd.symm⟩

theorem newDate_alone (h : newDate.Runs (engine.alone allow now) db res db') :
    ∃ d, res = .ok d ∧ (∃ amb, allow db amb ∧ d = .iso amb.dateNow) ∧ db = db' := by
  obtain ⟨_, _, ⟨⟨amb, ha, rfl⟩, rfl⟩, h⟩ := Runs.after h dateNow_alone
  exact ⟨_, h.left, ⟨amb, ha, rfl⟩, h.right.symm⟩

theorem Ambient.Proper.timestamptz {amb : Ambient} (h : amb.Proper) :
    (Timestamp.iso amb.dateNow).timestamptz = some amb.dateNow :=
  Timestamp.timestamptz_iso.mpr ⟨h.now, rfl⟩

-- What an event needs to be stored.
def ExecutionEvent.Storable (event : ExecutionEvent) : Prop :=
  Logon.Storable event.type ∧ Logon.Storable event.actorId ∧ event.payload.toJson.Storable

theorem storable_type (status : ExecutionStatus) : Storable ("EXECUTION_" ++ status.text) := by
  cases status <;> decide

theorem Payload.storable_nil : (Payload.toJson []).Storable :=
  List.forall_mem_nil _

-- A payload whose values are texts.
theorem Payload.storable_cons {name text : String} {payload : Payload} :
    (Payload.toJson ((name, .string text) :: payload)).Storable ↔
    Storable name ∧ Storable text ∧ payload.toJson.Storable := by
  simp [Payload.toJson, JsValue.toJsonMembers, JsValue.toJson, Json.Storable, Json.strings, Json.memberStrings]

theorem storable_reason (request : ExecutionRequest) : Storable (evaluateExecutionPolicy request).reason := by
  unfold evaluateExecutionPolicy
  split
  case isTrue  => exact (by decide : Storable "Objective is required.")
  case isFalse => exact (by decide : Storable "Execution request satisfies baseline kernel policy.")

namespace PgExecutionStore

theorem lockExecution_alone (h : (lockExecution e).Runs (engine.alone allow now) db res db')
    (hf : db.executions.find e = some row) : ∃ s, res = .ok s ∧ s = row.status ∧ db = db' := by
  obtain ⟨_, _, ⟨rfl, rfl⟩, h⟩ := Runs.after h fun h => query_reads h (fun _ => rfl) rfl
  rw [hf] at h
  exact ⟨row.status, h.left, rfl, h.right.symm⟩

theorem lockExecution_fails (h : (lockExecution e).Runs (engine.alone allow now) db res db')
    (hf : db.executions.find e = none) : ∃ e', res = .error e' ∧ e' = .executionNotFound e := by
  obtain ⟨_, _, ⟨rfl, rfl⟩, h⟩ := Runs.after h fun h => query_reads h (fun _ => rfl) rfl
  rw [hf] at h
  exact ⟨_, h.left, rfl⟩

theorem appendEvent_alone (h : (appendEvent event).Runs (engine.alone allow now) db res db') (hs : event.Storable)
    (ht : event.timestamp.timestamptz = some c) (hn : db.events.find (event.executionId, event.sequence) = none)
    (hx : db.HasExecution event.executionId) :
    ∃ ev, res = .ok ev ∧ ev = event ∧ db' = { db with events := db.events.insert (.of event c) } := by
  have ⟨hty, ha, hp⟩ := hs
  have hr (amb : Ambient) : Statement.reply (.insertEvent event) now amb db = .ok c := by
    simp only [Statement.reply, Statement.bind_ok, Statement.castTime_ok, Statement.require_ok, Statement.checkTexts_ok,
      Statement.checkJson_ok]
    exact ⟨(), by simp [hty, ha], (), hp, c, ht, (), by simp [hn], (), hx, rfl⟩
  obtain ⟨_, _, ⟨-, hd⟩, h⟩ := Runs.after h fun h => query_replies h hr
  exact ⟨event, h.left, rfl, h.right.trans (by rw [hd]; rfl)⟩

theorem appendEvent_fails (h : (appendEvent event).Runs (engine.alone allow now) db res db')
    (hs : ¬(event.Storable ∧ event.timestamp.timestamptz.isSome)) : ∃ e, res = .error e ∧ e.isDatabase := by
  refine Runs.fails (Q := fun e _ => e.isDatabase) h fun h => ?_
  obtain ⟨r, _, ⟨⟨amb, _, ho⟩, -, -⟩, -⟩ | ⟨e, ⟨amb, _, he⟩, hr, -⟩ := h
  case inl =>
    have ho : Statement.reply (.insertEvent event) now amb db = .ok r := ho
    simp only [Statement.reply, Statement.bind_ok, Statement.castTime_ok, Statement.checkTexts_ok, Statement.checkJson_ok] at ho
    obtain ⟨_, ht, _, hp, _, hc, _⟩ := ho
    exact absurd ⟨⟨ht _ (.head _), ht _ (.tail _ <| .head _), hp⟩, by simp [hc]⟩ hs
  case inr =>
    have he : Statement.reply (.insertEvent event) now amb db = .error e := he
    exact ⟨e, hr, Statement.reply_error he⟩

theorem appendAudit_alone (h : (appendAudit record).Runs (engine.alone allow now) db res db')
    (hs : ∀ text ∈ [record.auditId, record.action, record.actorId, record.reason], Storable text)
    (ht : record.createdAt.timestamptz = some c) (hn : db.audit.find record.auditId = none)
    (hm : record.tenantId ∈ db.tenants) (hx : db.HasExecution record.executionId) :
    ∃ u, res = .ok u ∧ db' = db.addAudit record c := by
  have hr (amb : Ambient) : Statement.reply (.insertAudit record) now amb db = .ok c := by
    simp only [Statement.reply, Statement.bind_ok, Statement.castTime_ok, Statement.require_ok, Statement.checkTexts_ok]
    exact ⟨(), hs, c, ht, (), by simp [hn], (), ⟨hm, hx⟩, rfl⟩
  obtain ⟨_, _, ⟨-, hd⟩, h⟩ := Runs.after h fun h => query_replies h hr
  exact ⟨_, h.left, h.right.trans (by rw [hd]; rfl)⟩

-- A second dispatch of an execution is not inserted.
theorem createDispatch_alone (h : (createDispatch e "logon.execution").Runs (engine.alone allow now) db res db')
    (hx : db.HasExecution e) : ∃ u, res = .ok u ∧ db' = db.addDispatch e now := by
  cases hf : db.dispatches.find e
  case none =>
    have hr (amb : Ambient) : Statement.reply (.insertDispatch e "logon.execution") now amb db = .ok (some now) := by
      simp only [Statement.reply, hf, Statement.bind_ok, Statement.require_ok]
      exact ⟨(), hx, rfl⟩
    obtain ⟨_, _, ⟨-, hd⟩, h⟩ := Runs.after h fun h => query_replies h hr
    exact ⟨_, h.left, h.right.trans (by rw [hd]; rfl)⟩
  case some row =>
    have hr (amb : Ambient) : Statement.reply (.insertDispatch e "logon.execution") now amb db = .ok none := by
      simp [Statement.reply, hf]
    obtain ⟨_, _, ⟨-, hd⟩, h⟩ := Runs.after h fun h => query_replies h hr
    refine ⟨_, h.left, h.right.trans ?_⟩
    have hi : db.dispatches.insert (.of e "logon.execution" now) = db.dispatches := Table.insert_of_some hf
    rw [hd, Db.addDispatch, hi]
    rfl

end PgExecutionStore

theorem nextSequence_alone (h : (nextSequence e).Runs (engine.alone allow now) db res db') :
    ∃ n, res = .ok n ∧ n = db.maxSequence e + 1 ∧ db = db' := by
  obtain ⟨_, _, ⟨rfl, rfl⟩, h⟩ := Runs.after h fun h => query_reads h (fun _ => rfl) rfl
  exact ⟨_, h.left, rfl, h.right.symm⟩

theorem updateStatus_alone (h : (updateStatus e status).Runs (engine.alone allow now) db res db') :
    ∃ u, res = .ok u ∧ db' = { db with executions := db.executions.modify e (·.update status now) } := by
  obtain ⟨_, _, ⟨-, hd⟩, h⟩ := Runs.after h fun h => query_replies h fun _ => rfl
  exact ⟨_, h.left, h.right.trans (by rw [hd]; rfl)⟩

theorem assertTransition_alone (h : (assertTransition src dst).Runs (engine.alone allow now) db res db')
    (hc : src.canTransition dst) : ∃ u, res = .ok u ∧ db = db' := by
  rw [assertTransition, if_pos hc] at h
  exact ⟨_, h.left, h.right.symm⟩

theorem assertTransition_fails (h : (assertTransition src dst).Runs (engine.alone allow now) db res db')
    (hc : ¬src.canTransition dst) : ∃ e, res = .error e ∧ e = .invalidExecutionTransition src dst := by
  rw [assertTransition, if_neg hc] at h
  exact ⟨_, h.left, rfl⟩

namespace PostgresExecutionService

theorem lookupTenant_alone (h : (lookupTenant e).Runs (engine.alone allow now) db res db') (ho : db.Owns t e) :
    ∃ t', res = .ok t' ∧ t' = t ∧ db = db' := by
  obtain ⟨row, hf, rfl⟩ := ho
  obtain ⟨_, _, ⟨rfl, rfl⟩, h⟩ := Runs.after h fun h => query_reads h (fun _ => rfl) rfl
  rw [hf] at h
  exact ⟨_, h.left, rfl, h.right.symm⟩

-- The event of a `transition` or a `fail` is stored if its texts are.
theorem move_returns (h : (move e status type actorId payload).Runs (engine.alone allow now) db res db')
    (ha : ∀ db amb, allow db amb → Timestamp.Legible amb.dateNow) (hx : db.HasExecution e)
    (hs : Storable type ∧ Storable actorId ∧ payload.toJson.Storable) : ∃ event, res = .ok event := by
  obtain ⟨_, _, ⟨⟨amb, hamb, rfl⟩, rfl⟩, h⟩ := Runs.after h newDate_alone
  obtain ⟨_, _, ⟨rfl, rfl⟩, h⟩ := Runs.after h nextSequence_alone
  obtain ⟨_, _, rfl, h⟩ := Runs.after h updateStatus_alone
  obtain ⟨event, he, _⟩ := appendEvent_alone h hs (Timestamp.timestamptz_iso.mpr ⟨ha _ _ hamb, rfl⟩)
    (db.find_nextSequence e) (hx.mono (db.grows_updateExecution ..))
  exact ⟨event, he⟩

theorem move_fails (h : (move e status type actorId payload).Runs (engine.alone allow now) db res db')
    (hs : ¬(Storable actorId ∧ payload.toJson.Storable)) : ∃ error, res = .error error ∧ error.isDatabase := by
  obtain ⟨_, _, ⟨_, rfl⟩, h⟩ := Runs.after h newDate_alone
  obtain ⟨_, _, ⟨rfl, rfl⟩, h⟩ := Runs.after h nextSequence_alone
  obtain ⟨_, _, rfl, h⟩ := Runs.after h updateStatus_alone
  exact appendEvent_fails h fun h => hs h.left.right

theorem move_ok_iff (h : (move e status type actorId payload).Runs (engine.alone allow now) db res db')
    (ha : ∀ db amb, allow db amb → Timestamp.Legible amb.dateNow) (ht : Storable type) (hx : db.HasExecution e) :
    (∃ event, res = .ok event) ↔ Storable actorId ∧ payload.toJson.Storable := by
  refine ⟨fun ⟨event, he⟩ => ?_, fun hs => move_returns h ha hx ⟨ht, hs⟩⟩
  by_contra hs
  have ⟨error, he', _⟩ := move_fails h hs
  cases he.symm.trans he'

theorem transition_ok_iff
    (h : (transition e status actorId payload).Runs (engine.alone allow now) db res db')
    (ha : ∀ db amb, allow db amb → Timestamp.Legible amb.dateNow) :
    (∃ event, res = .ok event) ↔ (∃ row, db.executions.find e = some row ∧ row.status.canTransition status) ∧
      Storable actorId ∧ payload.toJson.Storable := by
  cases hf : db.executions.find e
  case none =>
    have ⟨_, he, _⟩ := Runs.fails h fun h => lockExecution_fails h hf
    simp [he]
  case some row =>
    obtain ⟨_, _, ⟨rfl, rfl⟩, h⟩ := Runs.after h fun h => lockExecution_alone h hf
    by_cases hc : row.status.canTransition status
    case neg =>
      have ⟨_, he, _⟩ := Runs.fails h fun h => assertTransition_fails h hc
      simp [he, hc]
    case pos =>
      obtain ⟨_, _, rfl, h⟩ := Runs.after h fun h => assertTransition_alone h hc
      simp [move_ok_iff h ha (storable_type status) (by simp [Db.HasExecution, hf]), hc]

theorem fail_ok_iff (h : (PostgresExecutionService.fail e actorId reason).Runs (engine.alone allow now) db res db')
    (ha : ∀ db amb, allow db amb → Timestamp.Legible amb.dateNow) :
    (∃ event, res = .ok event) ↔ (∃ row, db.executions.find e = some row ∧ ¬row.status.Terminal) ∧
      Storable actorId ∧ Storable reason := by
  cases hf : db.executions.find e
  case none =>
    have ⟨_, he, _⟩ := Runs.fails h fun h => lockExecution_fails h hf
    simp [he]
  case some row =>
    obtain ⟨_, _, ⟨rfl, rfl⟩, h⟩ := Runs.after h fun h => lockExecution_alone h hf
    split at h
    case isTrue ht => simp [h.left, ht]
    case isFalse ht =>
      have hn : Storable "reason" := by decide
      simp [move_ok_iff h ha (storable_type .failed) (by simp [Db.HasExecution, hf]), ht, Payload.storable_cons, hn,
        Payload.storable_nil]

end PostgresExecutionService
end Logon
