import Mathlib.Data.Set.Finite.Basic
import Logon.Recovery

-- From every state on, executions can take exactly the courses that the state machine has, each on its own.

namespace Logon

open System Program PostgresExecutionService

namespace Lifecycle

variable {statuses later : List ExecutionStatus} {status : ExecutionStatus}

end Lifecycle

-- The ids that executions can have: the schema refuses the empty one, and PostgreSQL stores no zero characters.
structure Suitable (e : String) : Prop where
  nonempty : e ≠ ""
  storable : Storable e

-- A request that begins an execution with a certain status.
def ExecutionStatus.request (e : String) (status : ExecutionStatus) : ExecutionRequest where
  identity         := ⟨e, "t", "u", "g", "1"⟩
  objective        := if status = .rejected then " " else "pay"
  context          := []
  policySet        := []
  requestedTools   := []
  requiresApproval := status = .approval
  evidenceRequired := false
  createdAt        := .iso 0

namespace ExecutionStatus

variable {status : ExecutionStatus}

end ExecutionStatus

variable {host : Host} {s s' : platform.State} {status last : ExecutionStatus}

namespace Resting

variable (h : Resting host s)
include h

end Resting

-- What the histories of all executions can become: finitely many executions go on, each along the state machine.
structure Db.Extends (db : Db) (histories : String → List ExecutionStatus) : Prop where
  finite    : { e | Suitable e ∧ histories e ≠ db.statuses e }.Finite
  extend    : ∀ e, Suitable e → db.statuses e <+: histories e
  lifecycle : ∀ e, Suitable e → histories e ≠ [] → Lifecycle (histories e)

variable {histories : String → List ExecutionStatus}

theorem Db.Grows.statuses {db db' : Db} (h : db.Grows db') (e : String) : db.statuses e <+: db'.statuses e :=
  (h.events e).map _

theorem Db.Grows.extends {db db' : Db} (h : db.Grows db') (hl : db'.Ledger)
    (he : ∀ e, Suitable e → db'.statuses e = histories e) : db.Extends histories where
  extend e hn        := he e hn ▸ h.statuses e
  lifecycle e hn hne := by
    rw [← he e hn] at hne ⊢
    obtain ⟨row, hf⟩ := hl.exists_row hne
    exact (hl.accounts hf).lifecycle
  finite             := by
    refine (List.finite_toSet (db'.executions.rows.map (·.executionId))).subset ?_
    rintro e ⟨hn, hne⟩
    rw [← he e hn] at hne
    have hs : db'.statuses e ≠ [] := by
      intro hs
      have hp := h.statuses e
      rw [hs, List.prefix_nil] at hp
      exact hne (hs.trans hp.symm)
    obtain ⟨row, hf⟩ := hl.exists_row hs
    exact List.mem_map.mpr ⟨row, Table.mem_of_find hf, Table.key_of_find hf⟩

end Logon
