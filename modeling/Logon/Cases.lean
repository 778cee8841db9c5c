import Logon.Auditing

-- What becomes of an execution, as somebody sees it who knows nothing of transactions, locks and leases.

namespace Logon

open PostgresExecutionService

structure Case extends File where
  dispatch : Option DispatchStatus
  queued   : Bool
  deriving DecidableEq

namespace Case

def absent : Case :=
  ⟨⟨[], [], []⟩, none, false⟩

-- An approval is not `asked` for if there is another one that has got its generated id.
inductive Step : Case → Case → Prop
  | opened {status asked} :
    status.Initial → (asked = true → status = .approval) →
    Step absent ⟨⟨[status], if asked then [.pending] else [], [checkFinding status]⟩,
      if status = .intake then some .pending else none, false⟩
  | decided {decision findings} :
    Step ⟨⟨[.approval], [.pending], findings⟩, none, false⟩
      ⟨⟨[.approval, nextStatus decision], [decision.toStatus], findings ++ [decisionFinding decision]⟩,
        if decision = .approved then some .pending else none, false⟩
  | lapsed {findings} :
    Step ⟨⟨[.approval], [.pending], findings⟩, none, false⟩
      ⟨⟨[.approval, .rejected], [.expired], findings ++ [expiryFinding]⟩, none, false⟩
  -- A sweep marks the approval of an execution that does not wait for it any more.
  | overrun {status later verdict findings dispatch queued} :
    Step ⟨⟨.approval :: status :: later, [verdict], findings⟩, dispatch, queued⟩
      ⟨⟨.approval :: status :: later, [.expired], findings⟩, dispatch, queued⟩
  | moved {statuses verdicts findings dispatch queued last status} :
    statuses.getLast? = some last → last.canTransition status →
    Step ⟨⟨statuses, verdicts, findings⟩, dispatch, queued⟩
      ⟨⟨statuses ++ [status], verdicts, findings⟩, dispatch, queued⟩
  | claimed {file status queued} :
    status ≠ .dispatched → Step ⟨file, some status, queued⟩ ⟨file, some .processing, queued⟩
  | queued {file status} :
    Step ⟨file, some status, false⟩ ⟨file, some status, true⟩
  | succeeded {file status} :
    Step ⟨file, some status, true⟩ ⟨file, some .dispatched, true⟩
  -- Whoever reports a failure need not have the last claim.
  | failed {file status queued} :
    Step ⟨file, some status, queued⟩ ⟨file, some .pending, queued⟩

abbrev Steps : Case → Case → Prop :=
  Relation.ReflTransGen Step

-- What there can be on file about an execution that is dispatched or is not.
inductive Shape : File → (dispatched : Bool) → Prop
  | absent :
    Shape ⟨[], [], []⟩ false
  | takenIn {later} :
    Shape ⟨.intake :: later, [], [checkFinding .intake]⟩ true
  | refused {later} :
    Shape ⟨.rejected :: later, [], [checkFinding .rejected]⟩ false
  | unasked {later} :
    Shape ⟨.approval :: later, [], [checkFinding .approval]⟩ false
  | waiting :
    Shape ⟨[.approval], [.pending], [checkFinding .approval]⟩ false
  | left {verdict status later} :
    verdict = .pending ∨ verdict = .expired →
    Shape ⟨.approval :: status :: later, [verdict], [checkFinding .approval]⟩ false
  -- The verdict can be overrun.
  | decided {decision verdict later} :
    verdict = decision.toStatus ∨ verdict = .expired →
    Shape ⟨.approval :: nextStatus decision :: later, [verdict], [checkFinding .approval, decisionFinding decision]⟩
      (decision = .approved)
  | lapsed {later} :
    Shape ⟨.approval :: .rejected :: later, [.expired], [checkFinding .approval, expiryFinding]⟩ false

structure Sound (c : Case) : Prop where
  shape     : Shape c.toFile c.dispatch.isSome
  lifecycle : c.statuses ≠ [] → Lifecycle c.statuses
  -- Nothing is queued that is not dispatched, and what has been dispatched is queued.
  queued    : c.queued → c.dispatch.isSome
  delivered : c.dispatch = some .dispatched → c.queued

variable {c c' : Case} {file : File} {dispatched : Bool}

theorem Sound.absent : absent.Sound where
  shape     := .absent
  lifecycle := fun h => absurd rfl h
  queued    := nofun
  delivered := nofun

theorem Shape.opened (hs : status.Initial) (ha : asked = true → status = .approval) :
    Shape ⟨[status], if asked then [.pending] else [], [checkFinding status]⟩
      (if status = .intake then some DispatchStatus.pending else none).isSome := by
  cases asked
  case true =>
    obtain rfl := ha rfl
    exact .waiting
  case false =>
    obtain rfl | rfl | rfl := hs
    · exact .takenIn
    · exact .unasked
    · exact .refused

theorem Shape.moved (h : Shape file dispatched) (hn : file.statuses ≠ []) :
    Shape ⟨file.statuses ++ [status], file.verdicts, file.findings⟩ dispatched := by
  cases h
  case absent     => exact absurd rfl hn
  case takenIn    => exact .takenIn
  case refused    => exact .refused
  case unasked    => exact .unasked
  case waiting    => exact .left <| .inl rfl
  case left hv    => exact .left hv
  case decided hv => exact .decided hv
  case lapsed     => exact .lapsed

theorem Shape.overrun (h : Shape ⟨.approval :: status :: later, [verdict], findings⟩ dispatched) :
    Shape ⟨.approval :: status :: later, [.expired], findings⟩ dispatched := by
  cases h
  case left    => exact .left <| .inr rfl
  case decided => exact .decided <| .inr rfl
  case lapsed  => exact .lapsed

-- Whoever still waits has not been decided about.
theorem Shape.waiting_findings (h : Shape ⟨[.approval], [.pending], findings⟩ dispatched) :
    findings = [checkFinding .approval] := by
  cases h
  rfl

theorem ne_dispatched {p : Prop} [Decidable p] :
    (if p then some DispatchStatus.pending else none) ≠ some .dispatched := by
  split <;> decide

theorem Sound.step (h : c.Sound) (e : Step c c') : c'.Sound := by
  cases e
  case opened hs ha =>
    exact ⟨.opened hs ha, fun _ => .singleton hs, nofun, fun hd => absurd hd ne_dispatched⟩
  case decided decision findings =>
    obtain rfl := h.shape.waiting_findings
    have hc : ExecutionStatus.canTransition .approval (nextStatus decision) := by cases decision <;> rfl
    refine ⟨?_, fun _ => (h.lifecycle <| List.cons_ne_nil _ _).concat rfl hc, nofun, fun hd => absurd hd ne_dispatched⟩
    have hs : Shape ⟨[.approval, nextStatus decision], [decision.toStatus],
        [checkFinding .approval, decisionFinding decision]⟩ (decision = .approved) := .decided <| .inl rfl
    cases decision <;> exact hs
  case lapsed =>
    obtain rfl := h.shape.waiting_findings
    exact ⟨.lapsed, fun _ => (h.lifecycle <| List.cons_ne_nil _ _).concat rfl rfl, nofun, nofun⟩
  case overrun       => exact ⟨h.shape.overrun, h.lifecycle, h.queued, h.delivered⟩
  case moved statuses verdicts findings _ _ _ status hl hc =>
    have hn : statuses ≠ [] := by
      rintro rfl
      cases hl
    exact ⟨h.shape.moved hn, fun _ => (h.lifecycle hn).concat hl hc, h.queued, h.delivered⟩
  case claimed       => exact ⟨h.shape, h.lifecycle, fun _ => rfl, nofun⟩
  case queued        => exact ⟨h.shape, h.lifecycle, fun _ => rfl, fun _ => rfl⟩
  case succeeded     => exact ⟨h.shape, h.lifecycle, fun _ => rfl, fun _ => rfl⟩
  case failed        => exact ⟨h.shape, h.lifecycle, fun _ => rfl, nofun⟩

theorem Sound.steps (h : c.Sound) (e : Steps c c') : c'.Sound := by
  induction e
  case refl      => exact h
  case tail e ih => exact ih.step e

end Case
end Logon
