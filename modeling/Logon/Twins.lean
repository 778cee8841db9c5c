import Logon.Decision
import Logon.Lifecycle
import Logon.Memory

-- The kernel in memory and the one on the database agree about the calls that both can serve.

namespace Logon

open System Program ExecutionKernel

-- What two events have to agree in. Payloads are compared by what they are serialized to.
def ExecutionEvent.view (event : ExecutionEvent) : Nat × ExecutionStatus × String × String × Json :=
  (event.sequence, event.status, event.type, event.actorId, event.payload.toJson)

def EventRow.view (row : EventRow) : Nat × ExecutionStatus × String × String × Json :=
  (row.sequence, row.status, row.eventType, row.actorId, row.payloadJson)

theorem EventRow.view_of (event : ExecutionEvent) (c : Time) : (EventRow.of event c).view = event.view :=
  rfl

-- The logs of both kernels are the same, and those on the database are in order.
structure Paired (kernel : ExecutionKernel) (db : Db) : Prop where
  agree  : ∀ e, (kernel.list e).map ExecutionEvent.view = (db.eventsOf e).map EventRow.view
  ledger : db.Ledger

namespace Paired

variable {kernel kernel' : ExecutionKernel} {db db' : Db}

theorem new : Paired .new .empty where
  agree  := fun _ => rfl
  ledger := .empty

theorem statuses (h : Paired kernel db) (e : String) : (kernel.list e).map (·.status) = db.statuses e := by
  have := congrArg (List.map (·.snd.fst)) (h.agree e)
  simpa [ExecutionEvent.view, EventRow.view, Db.statuses, Function.comp_def] using this

theorem length (h : Paired kernel db) (e : String) : (kernel.list e).length = (db.eventsOf e).length := by
  simpa using congrArg List.length (h.agree e)

theorem latestStatus (h : Paired kernel db) (e : String) :
    kernel.latestStatus e = (db.executions.find e).map (·.status) := by
  have hs : kernel.latestStatus e = (db.statuses e).getLast? := by
    rw [← h.statuses, List.getLast?_map]
    rfl
  cases hf : db.executions.find e
  case none     => simp [hs, h.ledger.statuses_eq_nil hf]
  case some row => rw [hs, (h.ledger.accounts hf).current]; rfl

-- Both logs of an execution get the same event.
theorem add {event : ExecutionEvent} {row : EventRow} (h : Paired kernel db) (hl : db'.Ledger)
    (hk : kernel'.list = Function.update kernel.list e (kernel.list e ++ [event]))
    (hd : ∀ e', db'.eventsOf e' = db.eventsOf e' ++ if e = e' then [row] else [])
    (hv : event.view = row.view) : Paired kernel' db' where
  agree e' := by
    rw [hk, hd, Function.update_apply]
    by_cases he : e' = e
    · subst he
      simp [h.agree, hv]
    · simp [he, Ne.symm he, h.agree]
  ledger := hl

-- Nothing happens to the logs.
theorem same (h : Paired kernel db) (hk : kernel'.list = kernel.list) : Paired kernel' db where
  agree  := by rw [hk]; exact h.agree
  ledger := h.ledger

theorem nextSequence (h : Paired kernel db) (hf : db.executions.find e = some row) :
    db.maxSequence e + 1 = (kernel.list e).length + 1 := by
  rw [h.length, (h.ledger.accounts hf).numbered.maxSequence]

-- An execution advances on the database.
theorem advance {event : ExecutionEvent} (h : Paired kernel db) (hv : Advance now db event db')
    (hk : kernel'.list = Function.update kernel.list event.executionId (kernel.list event.executionId ++ [event']))
    (he : { event' with timestamp := event.timestamp, sequence := event.sequence } = event)
    (hs : event'.sequence = (kernel.list event.executionId).length + 1) : Paired kernel' db' := by
  have hl : db'.Ledger := h.ledger.advance hv
  cases hv
  case mk row c hf _ hn hu _ =>
    refine h.add hl hk (fun e' => Db.eventsOf_insert hu e') ?_
    rw [EventRow.view_of, ← he]
    simp only [ExecutionEvent.view, Prod.mk.injEq, and_true]
    rw [hs, hn, h.nextSequence hf]

end Paired

section
variable {kernel : ExecutionKernel} {moment : Moment} {g g' : platform.Global} {res : Except KernelError ExecutionEvent}

theorem Paired.found (h : Paired kernel db) (hl : kernel.latestStatus e = some current) :
    ∃ row, db.executions.find e = some row ∧ row.status = current := by
  rw [h.latestStatus] at hl
  exact Option.map_eq_some_iff.mp hl

-- Requests always have a hash.
theorem requestHash_isSome (host : Host) (request : ExecutionRequest) :
    ∃ digest, PostgresExecutionService.requestHash host request = some digest := by
  simp [PostgresExecutionService.requestHash, ExecutionRequest.toJs, JsValue.canonicalJson, JsValue.canonicalize,
    JsValue.toJson]

theorem Create.eventsOf {request : ExecutionRequest} (h : Create P now request db created db') :
    ∃ t, Timestamp.Legible t ∧ created = createdEvent request (.iso t) ∧
      ∀ e, db'.eventsOf e = db.eventsOf e ++ if request.identity.executionId = e then [.of created t] else [] := by
  cases h
  case mk c t db₁ ht _ _ _ hf ha hu =>
    refine ⟨t, ht, rfl, fun e => ?_⟩
    have hv : db'.eventsOf e = (db.addExecution request (createdEvent request (.iso t)) c t).eventsOf e := by
      cases hu
      simp only [Db.eventsOf, Db.addAudit_events, ha.events]
    rw [hv]
    exact Db.eventsOf_insert hf e

end

end Logon
