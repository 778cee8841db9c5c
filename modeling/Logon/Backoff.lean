import Logon.Runtime.Polling

-- How long the dispatcher waits between its ticks.

namespace Logon

def TickOutcome.Failing : TickOutcome → Prop
  | .result failed => failed > 0
  | .thrown        => True

instance : DecidablePred TickOutcome.Failing
  | .result failed => inferInstanceAs (Decidable (failed > 0))
  | .thrown        => .isTrue trivial

namespace ExecutionOutboxDispatcher

-- The delays that follow some ticks.
def delays (d : ExecutionOutboxDispatcher) : (failureBackoffMs : Int) → List TickOutcome → List Int
  | _, []      => []
  | f, o :: os => (d.next f o).snd :: d.delays (d.next f o).fst os

-- What is expected of the delays after some ticks.
structure WellPaced (d : ExecutionOutboxDispatcher) (failureBackoffMs : Int) (outcomes : List TickOutcome) : Prop where
  bounded : ∀ delay ∈ d.delays failureBackoffMs outcomes, d.pollIntervalMs ≤ delay ∧ delay ≤ d.maxBackoffMs
  grows   : ∀ (i : Nat) (o o' : TickOutcome) (delay delay' : Int),
    outcomes[i]? = some o → outcomes[i + 1]? = some o' → o.Failing → o'.Failing →
    (d.delays failureBackoffMs outcomes)[i]? = some delay →
    (d.delays failureBackoffMs outcomes)[i + 1]? = some delay' → delay ≤ delay'
  resets  : ∀ (i : Nat) (o : TickOutcome) (delay : Int), outcomes[i]? = some o → ¬o.Failing →
    (d.delays failureBackoffMs outcomes)[i]? = some delay → delay = d.pollIntervalMs

-- A backoff that a dispatcher can have, if its limit leaves room for the first one.
def Sensible (d : ExecutionOutboxDispatcher) (failureBackoffMs : Int) : Prop :=
  failureBackoffMs = 0 ∨ d.pollIntervalMs * 2 ≤ failureBackoffMs ∧ failureBackoffMs ≤ d.maxBackoffMs

variable {d : ExecutionOutboxDispatcher} {f : Int} {o : TickOutcome}

theorem next_failing (h : o.Failing) : d.next f o = (d.failureBackoff f, d.failureBackoff f) := by
  cases o
  case result => exact if_pos h
  case thrown => rfl

theorem next_successful (h : ¬o.Failing) : d.next f o = (0, d.pollIntervalMs) := by
  cases o
  case result => exact if_neg h
  case thrown => exact absurd trivial h

theorem new_pollIntervalMs (options : ExecutionOutboxDispatcherOptions) : 100 ≤ (new options).pollIntervalMs := by
  simp only [new, clamp]
  omega

theorem new_maxBackoffMs (options : ExecutionOutboxDispatcherOptions) :
    (new options).pollIntervalMs ≤ (new options).maxBackoffMs := by
  simp only [new, clamp]
  omega

theorem failureBackoff_bounds (hp : 0 < d.pollIntervalMs) (hm : d.pollIntervalMs * 2 ≤ d.maxBackoffMs)
    (hf : d.Sensible f) : d.pollIntervalMs * 2 ≤ d.failureBackoff f ∧ d.failureBackoff f ≤ d.maxBackoffMs := by
  unfold failureBackoff
  cases hf
  case inl hf => simp [hf, hm]
  case inr hf =>
    split
    case isTrue  => omega
    case isFalse => omega

theorem failureBackoff_grows (hp : 0 < d.pollIntervalMs) (hf : d.pollIntervalMs * 2 ≤ f ∧ f ≤ d.maxBackoffMs) :
    f ≤ d.failureBackoff f := by
  unfold failureBackoff
  split <;> omega

theorem next_sensible (hp : 0 < d.pollIntervalMs) (hm : d.pollIntervalMs * 2 ≤ d.maxBackoffMs) (hf : d.Sensible f)
    (o : TickOutcome) : d.Sensible (d.next f o).fst := by
  by_cases ho : o.Failing
  case pos => exact next_failing ho ▸ .inr (failureBackoff_bounds hp hm hf)
  case neg => exact next_successful ho ▸ .inl rfl

theorem next_delay (hp : 0 < d.pollIntervalMs) (hm : d.pollIntervalMs * 2 ≤ d.maxBackoffMs) (hf : d.Sensible f)
    (o : TickOutcome) : d.pollIntervalMs ≤ (d.next f o).snd ∧ (d.next f o).snd ≤ d.maxBackoffMs := by
  by_cases ho : o.Failing
  case pos =>
    have hb := failureBackoff_bounds hp hm hf
    simp only [next_failing ho]
    omega
  case neg =>
    simp only [next_successful ho]
    omega

theorem WellPaced.tail (h : d.WellPaced f (o :: os)) : d.WellPaced (d.next f o).fst os where
  bounded := fun delay hd => h.bounded delay <| List.mem_cons_of_mem _ hd
  grows   := fun i => h.grows (i + 1)
  resets  := fun i => h.resets (i + 1)

-- The first failure after a success brings the doubled poll interval.
theorem WellPaced.double_le (h : d.WellPaced 0 os) (ho : o ∈ os) (hf : o.Failing) :
    d.pollIntervalMs * 2 ≤ d.maxBackoffMs := by
  induction os
  case nil => nomatch ho
  case cons o' os ih =>
    by_cases hf' : o'.Failing
    case pos =>
      have hb := (h.bounded _ List.mem_cons_self).right
      simpa [next_failing hf', failureBackoff] using hb
    case neg =>
      have ht := next_successful hf' ▸ h.tail
      cases List.mem_cons.mp ho
      case inl ho => exact absurd (ho ▸ hf) hf'
      case inr ho => exact ih ht ho

theorem WellPaced.of_sensible (hp : 0 < d.pollIntervalMs) (hm : d.pollIntervalMs * 2 ≤ d.maxBackoffMs)
    (hf : d.Sensible f) (outcomes : List TickOutcome) : d.WellPaced f outcomes := by
  induction outcomes generalizing f
  case nil => constructor <;> simp [delays]
  case cons o os ih =>
    have ih := ih (next_sensible hp hm hf o)
    constructor
    case bounded =>
      intro delay hd
      cases List.mem_cons.mp hd
      case inl hd => exact hd ▸ next_delay hp hm hf o
      case inr hd => exact ih.bounded delay hd
    case resets =>
      intro i o' delay ho hn hd
      cases i
      case succ i => exact ih.resets i o' delay ho hn hd
      case zero   =>
        cases ho
        cases hd
        simp [next_successful hn]
    case grows =>
      intro i o₁ o₂ delay₁ delay₂ h₁ h₂ hf₁ hf₂ hd₁ hd₂
      cases i
      case succ i => exact ih.grows i o₁ o₂ delay₁ delay₂ h₁ h₂ hf₁ hf₂ hd₁ hd₂
      case zero   =>
        cases os
        case nil => cases h₂
        case cons o' os =>
          cases h₁
          cases h₂
          cases hd₁
          cases hd₂
          simp only [next_failing hf₁, next_failing hf₂]
          exact failureBackoff_grows hp <| failureBackoff_bounds hp hm hf

theorem WellPaced.of_successful (hm : d.pollIntervalMs ≤ d.maxBackoffMs) (h : ∀ o ∈ outcomes, ¬o.Failing) :
    d.WellPaced 0 outcomes := by
  induction outcomes
  case nil => constructor <;> simp [delays]
  case cons o os ih =>
    have ⟨ho, hs⟩ := List.forall_mem_cons.mp h
    have ih := ih hs
    have hn := next_successful (d := d) (f := 0) ho
    constructor
    case bounded =>
      intro delay hd
      simp only [delays, hn, List.mem_cons] at hd
      cases hd
      case inl hd => exact ⟨Int.le_of_eq hd.symm, hd ▸ hm⟩
      case inr hd => exact ih.bounded delay hd
    case grows =>
      intro i o₁ _ _ _ h₁ _ hf₁
      exact absurd hf₁ <| h o₁ <| List.mem_of_getElem? h₁
    case resets =>
      intro i o' delay ho' hn' hd
      simp only [delays, hn] at hd
      cases i
      case succ i => exact ih.resets i o' delay ho' hn' hd
      case zero   => exact (Option.some.inj hd).symm

theorem delays_are_well_paced (options : ExecutionOutboxDispatcherOptions) (outcomes : List TickOutcome) :
    (new options).WellPaced 0 outcomes ↔
    (∀ o ∈ outcomes, ¬o.Failing) ∨ (new options).pollIntervalMs * 2 ≤ (new options).maxBackoffMs := by
  have hp := new_pollIntervalMs options
  constructor
  case mp  =>
    intro h
    by_cases hs : ∀ o ∈ outcomes, ¬o.Failing
    case pos => exact .inl hs
    case neg =>
      have ⟨o, ho, hf⟩ : ∃ o ∈ outcomes, o.Failing := by simpa using hs
      exact .inr <| h.double_le ho hf
  case mpr =>
    intro h
    cases h
    case inl h => exact .of_successful (new_maxBackoffMs options) h
    case inr h => exact .of_sensible (by omega) h (.inl rfl) outcomes

-- The first delay after a failure exceeds the limit, and the second one is shorter.
theorem delays_exceed_bounds :
    let d := new ⟨some 60000, none⟩
    d.maxBackoffMs = 60000 ∧ d.delays 0 [.thrown, .thrown] = [120000, 60000] ∧ ¬d.WellPaced 0 [.thrown, .thrown] := by
  refine ⟨by decide, by decide, fun h => ?_⟩
  exact absurd (h.bounded 120000 (by decide)).right (by decide)

end ExecutionOutboxDispatcher
end Logon
