import Mathlib.Data.List.Nodup
import Mathlib.Data.List.Chain
import Mathlib.Data.List.Perm.Subperm

namespace Logon

inductive ExecutionStatus
  | intake
  | context
  | policyCheck
  | planning
  | toolPermissionCheck
  | action
  | validation
  | approval
  | execution
  | evidence
  | outcome
  | evaluation
  | learning
  | failed
  | rejected
  deriving DecidableEq, Repr

namespace ExecutionStatus

def text : ExecutionStatus → String
  | intake              => "INTAKE"
  | context             => "CONTEXT"
  | policyCheck         => "POLICY_CHECK"
  | planning            => "PLANNING"
  | toolPermissionCheck => "TOOL_PERMISSION_CHECK"
  | action              => "ACTION"
  | validation          => "VALIDATION"
  | approval            => "APPROVAL"
  | execution           => "EXECUTION"
  | evidence            => "EVIDENCE"
  | outcome             => "OUTCOME"
  | evaluation          => "EVALUATION"
  | learning            => "LEARNING"
  | failed              => "FAILED"
  | rejected            => "REJECTED"

def transitions : ExecutionStatus → List ExecutionStatus
  | intake              => [context, failed]
  | context             => [policyCheck, failed]
  | policyCheck         => [planning, rejected, failed]
  | planning            => [toolPermissionCheck, failed]
  | toolPermissionCheck => [action, approval, rejected, failed]
  | action              => [validation, failed]
  | validation          => [approval, execution, failed]
  | approval            => [execution, rejected, failed]
  | execution           => [evidence, failed]
  | evidence            => [outcome, failed]
  | outcome             => [evaluation, failed]
  | evaluation          => [learning, failed]
  | learning            => []
  | failed              => []
  | rejected            => []

def canTransition (src dst : ExecutionStatus) : Bool :=
  dst ∈ src.transitions

-- The statuses which `fail` refuses to leave, and which the worker takes for done.
def Terminal (s : ExecutionStatus) : Prop :=
  s = failed ∨ s = rejected ∨ s = learning

instance (s : ExecutionStatus) : Decidable s.Terminal :=
  inferInstanceAs (Decidable (_ ∨ _))

-- The statuses that `start` can give to an execution.
def Initial (s : ExecutionStatus) : Prop :=
  s = intake ∨ s = approval ∨ s = rejected

instance (s : ExecutionStatus) : Decidable s.Initial :=
  inferInstanceAs (Decidable (_ ∨ _))

-- The position of a status in the longest lifecycles. All ways to end share the last one.
def rank : ExecutionStatus → Nat
  | intake              => 0
  | context             => 1
  | policyCheck         => 2
  | planning            => 3
  | toolPermissionCheck => 4
  | action              => 5
  | validation          => 6
  | approval            => 7
  | execution           => 8
  | evidence            => 9
  | outcome             => 10
  | evaluation          => 11
  | learning            => 12
  | failed              => 12
  | rejected            => 12

variable {src dst : ExecutionStatus}

theorem rank_le (s : ExecutionStatus) : s.rank ≤ 12 := by
  cases s <;> decide

-- Transitions never lead back, so they cannot go around in circles.
theorem rank_lt_of_canTransition (h : src.canTransition dst) : src.rank < dst.rank := by
  cases src <;> cases dst <;> first | decide | exact absurd h (by decide)

theorem terminal_iff_transitions_nil : src.Terminal ↔ src.transitions = [] := by
  cases src <;> decide

theorem canTransition_failed_iff : src.canTransition failed ↔ ¬src.Terminal := by
  cases src <;> decide

theorem not_terminal_of_canTransition (h : src.canTransition dst) : ¬src.Terminal := by
  intro ht
  rw [canTransition, terminal_iff_transitions_nil.mp ht] at h
  simp at h

theorem canTransition_context_iff : src.canTransition context ↔ src = intake := by
  cases src <;> decide

end ExecutionStatus

-- The statuses that an execution has gone through, oldest first.
structure Lifecycle (statuses : List ExecutionStatus) : Prop where
  initial : ∃ s, statuses.head? = some s ∧ s.Initial
  path    : statuses.IsChain (·.canTransition ·)

namespace Lifecycle

variable {statuses : List ExecutionStatus} {s s' : ExecutionStatus}

theorem singleton (h : s.Initial) : Lifecycle [s] where
  initial := ⟨s, rfl, h⟩
  path    := .singleton s

theorem concat (h : Lifecycle statuses) (hl : statuses.getLast? = some s) (ht : s.canTransition s') :
    Lifecycle (statuses ++ [s']) where
  initial := by
    have ⟨s, hs, hi⟩ := h.initial
    exact ⟨s, by simp [List.head?_append, hs], hi⟩
  path := by
    rw [List.isChain_append]
    refine ⟨h.path, .singleton s', ?_⟩
    intro a ha b hb
    cases hl.symm.trans ha
    cases hb
    exact ht

theorem ranks (h : Lifecycle statuses) : (statuses.map ExecutionStatus.rank).Pairwise (· < ·) := by
  rw [List.pairwise_map, ← List.isChain_iff_pairwise]
  exact h.path.imp fun _ _ => ExecutionStatus.rank_lt_of_canTransition

theorem nodup (h : Lifecycle statuses) : statuses.Nodup :=
  .of_map _ <| h.ranks.imp fun h => Nat.ne_of_lt h

theorem length_le (h : Lifecycle statuses) : statuses.length ≤ 13 := by
  rw [← List.length_map ExecutionStatus.rank]
  have hr : (statuses.map ExecutionStatus.rank).Nodup := h.ranks.imp fun h => Nat.ne_of_lt h
  have hs : statuses.map ExecutionStatus.rank ⊆ List.range 13 := by
    intro n hn
    have ⟨s, _, hs⟩ := List.mem_map.mp hn
    have := s.rank_le
    exact List.mem_range.mpr (by omega)
  simpa using (List.subperm_of_subset hr hs).length_le

theorem ne_nil (h : Lifecycle statuses) : statuses ≠ [] := by
  intro hn
  have ⟨_, hs, _⟩ := h.initial
  simp [hn] at hs

theorem rank_le_last (h : Lifecycle statuses) (hl : statuses.getLast? = some s) (hm : s' ∈ statuses) :
    s'.rank ≤ s.rank := by
  obtain ⟨l, rfl⟩ := List.getLast?_eq_some_iff.mp hl
  have hr := h.ranks
  simp only [List.map_append, List.map_cons, List.map_nil, List.pairwise_append] at hr
  cases List.mem_append.mp hm
  case inl hm => exact Nat.le_of_lt <| hr.right.right _ (List.mem_map_of_mem hm) _ (by simp)
  case inr hm => exact Nat.le_of_eq <| congrArg _ <| List.mem_singleton.mp hm

-- The other way to execution does not go by approval.
theorem approval_of_canTransition_execution (h : Lifecycle statuses) (hl : statuses.getLast? = some s)
    (hm : .approval ∈ statuses) (ht : s.canTransition .execution) : s = .approval := by
  have := h.rank_le_last hl hm
  cases s <;> simp_all [ExecutionStatus.rank, ExecutionStatus.canTransition, ExecutionStatus.transitions]

-- A terminal status is the last one.
theorem terminal_last (h : Lifecycle statuses) (hi : statuses[i]? = some s) (ht : s.Terminal) :
    i + 1 = statuses.length := by
  have ⟨hl, hs⟩ := List.getElem?_eq_some_iff.mp hi
  by_contra hn
  have hc := List.isChain_iff_getElem.mp h.path i (by omega)
  rw [hs] at hc
  exact ExecutionStatus.not_terminal_of_canTransition hc ht

end Lifecycle
end Logon
