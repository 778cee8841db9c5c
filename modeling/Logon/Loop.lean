import Logon.Dispatch
import Logon.Runtime.Claims
import Logon.Runtime.Parties

-- Clients, expiry, the outbox, the queue and its workers as one closed loop, in which workers may get a
-- job any number of times.

namespace Logon

open System PostgresExecutionService

theorem Queue.mem_add {q : Queue} {job job' : Job} (h : job' ∈ (q.add job).jobs) : job' ∈ q.jobs ∨ job' = job := by
  unfold add at h
  split at h
  case isTrue  => exact .inl h
  case isFalse => simpa using h

theorem Action.mem_act {a : Action} {q : Queue} {job : Job} (h : job ∈ (a.act amb db q).snd.jobs) :
    job ∈ q.jobs ∨ a = .add job := by
  cases a
  case latestEvent =>
    simp only [act] at h
    split at h <;> exact .inl h
  case add job' =>
    simp only [act] at h
    split at h
    case h_1 => exact (Queue.mem_add h).imp_right fun he => by rw [he]
    case h_2 =>
      split at h
      case isTrue  => exact (Queue.mem_add h).imp_right fun he => by rw [he]
      case isFalse => exact .inl h

-- What is true of the loop as a whole: nobody enters `APPROVAL` later on, and all that is queued has been
-- dispatched.
structure Closed (g : platform.Global) : Prop where
  held   : Held g.db
  direct : ∀ e, .approval ∉ (g.db.statuses e).tail
  queued : ∀ job ∈ g.world.jobs, (g.db.dispatches.find job.executionId).isSome

theorem Db.Accounts.latestEvent {db : Db} (h : db.Accounts e status) :
    ∃ ev, db.latestEvent e = some ev ∧ ev.status = status := by
  rw [h.numbered.latestEvent]
  have hc := h.current
  rw [Db.statuses, List.getLast?_map] at hc
  exact Option.map_eq_some_iff.mp hc

-- What is dispatched is there, and not waiting for an approval.
theorem Closed.latestEvent {g : platform.Global} (h : Closed g) (hd : (g.db.dispatches.find e).isSome) :
    ∃ ev, g.db.latestEvent e = some ev ∧ ev.status ≠ .approval := by
  have hd := (h.held.dispatched e).mp hd
  have hs : g.db.statuses e ≠ [] := by
    intro hn
    cases hd
    case inl hi => simp [hn] at hi
    case inr ha => simpa [hn] using h.held.executed e ha
  cases hf : g.db.executions.find e
  case none => exact absurd (h.held.ledger.statuses_eq_nil hf) hs
  case some row =>
    have ha := h.held.ledger.accounts hf
    have ⟨ev, hl, hv⟩ := ha.latestEvent
    refine ⟨ev, hl, fun hw => ?_⟩
    have hc : (g.db.statuses e).getLast? = some .approval := by rw [ha.current, ← hv, hw]
    cases hd
    case inl hi =>
      have ⟨tail, ht⟩ := List.head?_eq_some_iff.mp hi
      have hm := h.direct e
      rw [ht] at hc hm
      cases tail
      case nil  => cases hc
      case cons => exact hm <| List.mem_of_getLast? <| List.getLast?_cons_cons ▸ hc
    case inr hx => exact absurd (ha.lifecycle.rank_le_last hc <| h.held.executed e hx) (by decide)

-- What the parties of the loop rely on.
def loop : Contract (loose platform Premise.none.answer fun _ _ => True) where
  Inv := Closed
  Le g g' := g.db.Grows g'.db
  Guard _ o g :=
    match o with
    | .inl (.transition _ status _ _) => status ≠ .approval
    | .inr (.add job)                 => (g.db.dispatches.find job.executionId).isSome
    | _                               => True
  le_refl g := .refl g.db
  le_trans  := .trans
  tick _ h  := ⟨⟨h.held, h.direct, h.queued⟩, .refl _⟩
  op {pid o g r g'} hi hg hd := by
    cases hd
    case throw => exact ⟨hi, .refl _⟩
    case fault => exact ⟨hi, .refl _⟩
    case commit c now db' a _ _ hr =>
      have hc := Call.commits c hr
      have hgr := Call.grows c hr
      refine ⟨⟨hc.held hi.held, fun e hm => ?_, fun job hj => hgr.dispatches.isSome <| hi.queued job hj⟩, hgr⟩
      cases hc.approval_mem_tail hi.held.ledger hm
      case inl hm => exact hi.direct e hm
      case inr ht =>
        have ⟨_, _, ht⟩ := ht
        subst ht
        exact hg rfl
    case act a amb _ =>
      refine ⟨⟨hi.held, hi.direct, fun job hj => ?_⟩, .refl _⟩
      cases Action.mem_act hj
      case inl hj => exact hi.queued job hj
      case inr ha =>
        subst ha
        exact hg

def loop.publishing : Publishing loop where
  Claimed claim g := (g.db.dispatches.find claim.executionId).isSome
  Queued _ _      := True
  claimed_le hl h := hl.dispatches.isSome h
  queued_le _ h   := h
  take _          := trivial
  taken _ h       := fun claim hc =>
    have ⟨_, _, ht⟩ := h.took.left claim hc
    Option.isSome_iff_exists.mpr ⟨_, ht.find'⟩
  add _ h         := h
  added           := trivial
  succeed _ _     := trivial
  fail _ _        := trivial

theorem latestEvent_fine :
    Fine loop pid (perform (.latestEvent e)) g fun latest _ =>
      (g.db.dispatches.find e).isSome → ∃ ev, latest = some (.of ev) ∧ ev.status ≠ .approval := by
  apply Safe.act
  · exact fun _ _ _ => trivial
  · intro g' amb _ hl hi _ _
    simp only [Action.act]
    cases amb.failure
    case some => exact Bool.false_ne_true
    case none =>
      intro hd
      obtain ⟨ev, he, hs⟩ := hi.latestEvent (hl.dispatches.isSome hd)
      exact ⟨ev, congrArg (Option.map ExecutionEvent.of) he, hs⟩

theorem transition_fine (h : status ≠ .approval) :
    Fine loop pid (Process.transition e status actorId payload) g fun _ _ => True :=
  .transaction (fun _ _ _ => h) fun _ _ _ _ _ _ _ _ _ _ => trivial

-- The handler of a job whose execution is dispatched.
theorem controlledExecutionHandler_fine (hd : (g.db.dispatches.find e).isSome) :
    Fine loop pid (controlledExecutionHandler actorId e) g fun _ _ => True := by
  unfold controlledExecutionHandler
  split
  case isTrue => exact .throw Bool.false_ne_true
  case isFalse =>
    apply latestEvent_fine.bind
    intro latest g' _ _ hl
    have ⟨ev, he, hs⟩ := hl hd
    subst he
    dsimp only
    split
    case isTrue => exact .pure fun _ _ _ => trivial
    split
    case isTrue ha => exact absurd ha hs
    split
    case isFalse => exact .pure fun _ _ _ => trivial
    case isTrue =>
      apply Fine.tryCatch
      case h =>
        have hs : ExecutionStatus.context ≠ .approval := nofun
        apply (transition_fine hs).bind
        exact fun _ _ _ _ _ => .pure fun _ _ _ => trivial
      case hf =>
        intro error g'' _ _ hw
        split
        case h_2 => exact .throw hw
        case h_1 =>
          apply latestEvent_fine.bind
          intro afterRace _ _ _ _
          split
          · exact .throw Bool.false_ne_true
          · exact .pure fun _ _ _ => trivial

-- The parties of the loop. Workers are only handed jobs from the queue, as often as may be.
inductive Party (host : Host) (g : platform.Global) : platform.Code → Prop
  | start {request options} :
    Party host g (do return .started (← Process.start host request options))
  | decideApproval {decision} :
    Party host g (do return .decided (← Process.decideApproval decision))
  | fail {e actorId reason} :
    Party host g (do return .moved (← Process.fail e actorId reason))
  | expireApprovalsOnce {limit} :
    Party host g (do return .swept (← Process.expireApprovalsOnce limit))
  | publishOnce {options} :
    Party host g (do return .published (← (ExecutionOutboxPublisher.new options).publishOnce))
  | work {job actorId} :
    job ∈ g.world.jobs →
    Party host g (do controlledExecutionHandler actorId job.executionId; return .handled)

theorem decideApproval_fine : Fine loop pid (Process.decideApproval decision) g fun _ _ => True := by
  apply Fine.bind (Q := fun outcome _ => ∀ e, outcome.expiredError = some e → ¬e.ofWorker)
  case h =>
    apply Fine.transaction fun _ _ _ => trivial
    intro _ _ _ _ _ _ _ hc _ _ e he
    cases hc
    case expired => cases he; exact Bool.false_ne_true
    case decided => cases he
  case hf =>
    intro outcome _ _ _ ho
    split
    case h_1 he => exact .throw <| ho _ he
    case h_2    => exact .throw Bool.false_ne_true
    case h_3    => exact .pure fun _ _ _ => trivial

theorem start_fine {host : Host} : Fine loop pid (Process.start host request options) g fun _ _ => True := by
  unfold Process.start
  split
  case isFalse => exact .throw Bool.false_ne_true
  case isTrue =>
    split
    case h_1 => exact .throw Bool.false_ne_true
    case h_2 => exact .transaction (fun _ _ _ => trivial) fun _ _ _ _ _ _ _ _ _ _ => trivial

theorem Fine.outcome {p : Process α} (f : α → Outcome) (h : Fine loop pid p g fun _ _ => True) :
    Fine loop pid (p.bind fun a => .pure (f a)) g fun _ _ => True :=
  h.bind fun _ _ _ _ _ => .pure fun _ _ _ => trivial

theorem Party.fine {host : Host} (h : Party host g code) (hi : Closed g) : Fine loop pid code g fun _ _ => True := by
  cases h
  case start               => exact start_fine.outcome .started
  case decideApproval      => exact decideApproval_fine.outcome .decided
  case fail                => exact Fine.outcome .moved <| .transaction (fun _ _ _ => trivial) fun _ _ _ _ _ _ _ _ _ _ => trivial
  case expireApprovalsOnce => exact Fine.outcome .swept <| .transaction (fun _ _ _ => trivial) fun _ _ _ _ _ _ _ _ _ _ => trivial
  case publishOnce         => exact (loop.publishing.publishOnce_fine _).outcome .published
  case work hj             => exact (controlledExecutionHandler_fine <| hi.queued _ hj).outcome fun _ => .handled

-- Only parties of the loop are started.
def Guard.closed (host : Host) : Guard
  | .spawn _ code, s => Party host s.toGlobal code
  | _, _             => True

theorem Guard.closed_meets (host : Host) :
    (Guard.closed host).Meets .none (fun code g => Party host g code) fun _ _ => True where
  stable := Premise.none_stable
  spawn  := id
  stmt   := fun _ _ _ => trivial
  commit := fun _ _ => trivial

-- Neither are there jobs of unknown executions, nor of such that wait for an approval, and no execution
-- comes to `CONTEXT` more than once.
theorem handlers_never_fail {host : Host} {s : platform.State} (h : Reachable (Guard.closed host) s) :
    (∀ pid e, s.procs pid ≠ some (.outside (.throw (.unknownExecution e)))) ∧
    (∀ pid e, s.procs pid ≠ some (.outside (.throw (.stillRequiresApproval e)))) ∧
    ∀ e, (s.db.statuses e).count .context ≤ 1 := by
  have ⟨clock, hs⟩ := h.atomic <| Guard.closed_meets host
  have hi : Closed (System.initial Db.empty Queue.empty clock : platform.State).toGlobal :=
    ⟨.empty, fun _ => List.not_mem_nil, nofun⟩
  have ⟨hc, hf⟩ := Contract.sound hs (fun _ _ _ hp hi => hp.fine hi) hi nofun
  have hw {pid e} (hp : s.procs pid = some (.outside (.throw e))) : ¬e.ofWorker :=
    hf pid _ (State.atomic_codes hp) _ (.refl _) hc
  refine ⟨fun pid e hp => hw hp rfl, fun pid e hp => hw hp rfl, fun e => ?_⟩
  cases hx : s.db.executions.find e
  case none =>
    have hn : s.db.statuses e = [] := hc.held.ledger.statuses_eq_nil hx
    simp [hn]
  case some => exact List.nodup_iff_count_le_one.mp (hc.held.ledger.accounts hx).lifecycle.nodup _

namespace Sample

def host : Host where
  sha256 s          := s
  localeCompare _ _ := .eq

def job : Job where
  jobId       := "e"
  executionId := "e"

-- A client starts an execution that is published.
def published : List platform.Label :=
  transact 0 (do return .started (← Process.start host (request false) ⟨none⟩)) 0 "a" 8 ++
  transact 1 (do return .published (← (ExecutionOutboxPublisher.new ⟨none, none⟩).publishOnce)) 0 "" 4 ++
  [.act 1 (ambient 0 ""), .begin 1, .stmt 1 (ambient 0 ""), .commit 1]

def worker : platform.Code := do
  controlledExecutionHandler "w" job.executionId
  return .handled

-- Two workers get the job at a time. The second one finds that the first one has done it.
def worked : List platform.Label :=
  [.spawn 2 worker, .spawn 3 worker, .act 2 (ambient 0 ""), .act 3 (ambient 0 ""), .begin 2, .begin 3] ++
  List.replicate 5 (.stmt 2 (ambient 0 "")) ++
  [.commit 2, .stmt 3 (ambient 0 ""), .rollback 3, .act 3 (ambient 0 "")]

-- Whether workers are only started for the job once it is in the queue.
def queued : platform.Label → platform.State → Bool
  | .spawn pid _, s => pid < 2 ∨ job ∈ s.world.jobs
  | _, _            => true

theorem worked_closed {l : platform.Label} (hl : l ∈ published ++ worked) {s : platform.State} (hc : queued l s) :
    Guard.closed host l s := by
  simp only [published, worked, transact, List.mem_append, List.mem_cons, List.mem_replicate, List.not_mem_nil,
    or_false] at hl
  cases l
  case spawn pid code =>
    simp only [Label.spawn.injEq, reduceCtorEq, and_false, or_false] at hl
    obtain (⟨rfl, rfl⟩ | ⟨rfl, rfl⟩) | ⟨rfl, rfl⟩ | ⟨rfl, rfl⟩ := hl
    · exact .start
    · exact .publishOnce
    · exact .work (by simpa [queued] using hc)
    · exact .work (by simpa [queued] using hc)
  all_goals trivial

end Sample

open Sample in
theorem handlers_never_fail_worked :
    (reach queued (published ++ worked)).db.statuses "e" = [.intake, .context] ∧
    ((reach queued (published ++ worked)).db.statuses "e").count .context ≤ 1 :=
  have hr : Reachable (Guard.closed host) (reach queued (published ++ worked)) :=
    reach_reachable fun _ hl _ hc => worked_closed hl hc
  ⟨by decide +kernel, (handlers_never_fail hr).right.right "e"⟩

end Logon
