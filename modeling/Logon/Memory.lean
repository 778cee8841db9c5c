import Logon.Kernel.ExecutionKernel
import Logon.Runtime.Reachable

-- The event logs of the kernel that keeps them in memory.

namespace Logon

open ExecutionKernel

-- A log that is a path of the state machine.
structure Trail (log : List ExecutionEvent) : Prop where
  numbered : log.map (·.sequence) = List.range' 1 log.length
  initial  : ∀ event, log.head? = some event → event.status = .intake ∨ event.status = .rejected
  path     : (log.map (·.status)).IsChain (·.canTransition ·)

-- The statuses that may follow the latest one, if there is one.
def Follows : Option ExecutionStatus → ExecutionStatus → Prop
  | none,         status => status = .intake ∨ status = .rejected
  | some current, status => current.canTransition status

namespace Trail

variable {log : List ExecutionEvent} {event : ExecutionEvent}

theorem nil : Trail [] where
  numbered := rfl
  initial  := nofun
  path     := .nil

theorem concat_iff (hs : event.sequence = log.length + 1) (h : Trail log) :
    Trail (log ++ [event]) ↔ Follows (log.getLast?.map (·.status)) event.status := by
  cases hl : log.getLast?
  case none =>
    rw [List.getLast?_eq_none_iff] at hl
    subst hl
    constructor
    case mp  => exact fun ht => ht.initial event rfl
    case mpr =>
      intro hf
      exact ⟨by simpa using hs, fun _ he => by cases he; exact hf, .singleton _⟩
  case some last =>
    have hp : (log.map (·.status)).getLast? = some last.status := by simp [hl]
    constructor
    case mp =>
      intro ht
      have := ht.path
      rw [List.map_append, List.isChain_append] at this
      exact this.right.right _ hp _ rfl
    case mpr =>
      intro hf
      constructor
      case numbered => simp [h.numbered, hs, List.range'_concat, Nat.add_comm]
      case initial  =>
        intro first he
        have hn : log ≠ [] := by rintro rfl; cases hl
        exact h.initial first <| by rwa [List.head?_append_of_ne_nil _ hn] at he
      case path =>
        rw [List.map_append, List.isChain_append]
        refine ⟨h.path, .singleton _, fun a ha b hb => ?_⟩
        cases hp.symm.trans ha
        cases hb
        exact hf

-- The log was a path before.
theorem of_concat (h : Trail (log ++ [event])) : Trail log where
  numbered := by
    have := congrArg (List.take log.length) h.numbered
    simpa [List.range'_concat, List.take_append] using this
  initial  := fun first he => h.initial first <| by simp [List.head?_append, he]
  path     := (List.isChain_append.mp (by simpa using h.path)).left

end Trail

-- The calls that keep to the state machine. Only `transition` consults it, and only if there is an event.
def KernelCall.InTurn (kernel : ExecutionKernel) : KernelCall → Prop
  | .start request =>
    request.Valid → (evaluateExecutionPolicy request).allowed →
    kernel.latestStatus request.identity.executionId = none
  | .transition e status _ _ => kernel.latestStatus e = none → status = .intake ∨ status = .rejected
  | .fail e _ _ => ∃ current, kernel.latestStatus e = some current ∧ ¬current.Terminal

-- An event is appended to one of the logs.
def Extends (kernel kernel' : ExecutionKernel) (e : String) (status : ExecutionStatus) : Prop :=
  ∃ event, event.status = status ∧ event.sequence = (kernel.list e).length + 1 ∧
    kernel'.list = Function.update kernel.list e (kernel.list e ++ [event])

section
variable {kernel : ExecutionKernel} {moment : Moment}

theorem append_extends (kernel : ExecutionKernel) :
    Extends kernel ((append moment status e actorId payload).run.run kernel).snd e status :=
  ⟨kernel.stored (event moment status e actorId payload), rfl, rfl, rfl⟩

theorem transition_cases (moment : Moment) (e : String) (status : ExecutionStatus) (actorId : String)
    (payload : Payload) (kernel : ExecutionKernel) :
    (∃ current, kernel.latestStatus e = some current ∧ ¬current.canTransition status ∧
      (transition moment e status actorId payload).run.run kernel =
        (.error (.invalidTransition current status), kernel)) ∨
    (∀ current, kernel.latestStatus e = some current → current.canTransition status) ∧
      (transition moment e status actorId payload).run.run kernel =
        (append moment status e actorId payload).run.run kernel := by
  rw [transition_run]
  cases hl : kernel.latestStatus e
  case none => exact .inr ⟨nofun, rfl⟩
  case some current =>
    by_cases hc : current.canTransition status
    case pos =>
      refine .inr ⟨fun _ h => ?_, if_pos hc⟩
      cases h
      exact hc
    case neg => exact .inl ⟨current, rfl, hc, if_neg hc⟩

theorem not_canTransition_intake (current : ExecutionStatus) : ¬current.canTransition .intake := by
  cases current <;> decide

-- A call throws, and leaves the logs alone, or it adds an event, in its turn or not.
theorem KernelCall.apply_cases (c : KernelCall) (moment : Moment) (kernel : ExecutionKernel) :
    (c.apply moment kernel).list = kernel.list ∧ c.InTurn kernel ∨
    ∃ e status, Extends kernel (c.apply moment kernel) e status ∧
      (c.InTurn kernel ↔ Follows (kernel.latestStatus e) status) := by
  cases c
  case start request =>
    by_cases hv : request.Valid
    case neg => exact .inl ⟨by simp only [apply, method, start_run_invalid hv], fun h => absurd h hv⟩
    case pos =>
      by_cases ha : (evaluateExecutionPolicy request).allowed
      case pos =>
        refine .inr ⟨request.identity.executionId, .intake, ?_, ?_⟩
        · simp only [apply, method, start_run hv, if_pos ha]
          exact append_extends (kernel.audited moment request)
        · cases hl : kernel.latestStatus request.identity.executionId
          case none         => exact ⟨fun _ => .inl rfl, fun _ _ _ => hl⟩
          case some current =>
            refine ⟨fun h => ?_, fun h => absurd h (not_canTransition_intake current)⟩
            cases hl.symm.trans (h hv ha)
      case neg =>
        have hi : (KernelCall.start request).InTurn kernel := fun _ h => absurd h ha
        simp only [apply, method, start_run hv, if_neg ha]
        obtain ⟨current, hl, hc, hr⟩ | ⟨hc, hr⟩ := transition_cases moment request.identity.executionId .rejected
          request.identity.actorId [("reason", .string (evaluateExecutionPolicy request).reason)]
          (kernel.audited moment request)
        · exact .inl ⟨by rw [hr]; rfl, hi⟩
        · refine .inr ⟨request.identity.executionId, .rejected, by rw [hr]; exact append_extends (kernel.audited moment request),
            fun _ => ?_, fun _ => hi⟩
          cases hl : kernel.latestStatus request.identity.executionId
          case none         => exact .inr rfl
          case some current => exact hc current hl
  case transition e status actorId payload =>
    simp only [apply, method]
    obtain ⟨current, hl, hc, hr⟩ | ⟨hc, hr⟩ := transition_cases moment e status actorId payload kernel
    · refine .inl ⟨by rw [hr], fun h => ?_⟩
      cases hl.symm.trans h
    · refine .inr ⟨e, status, by rw [hr]; exact append_extends kernel, ?_⟩
      simp only [InTurn]
      cases hl : kernel.latestStatus e
      case none         => exact ⟨fun h => h rfl, fun h _ => h⟩
      case some current => exact ⟨fun _ => hc current hl, fun _ h => by cases h⟩
  case fail e actorId reason =>
    refine .inr ⟨e, .failed, ?_, ?_⟩
    · simp only [apply, method, fail_run]
      exact append_extends kernel
    · simp only [InTurn]
      cases kernel.latestStatus e
      case none         => simp [Follows]
      case some current => simpa [Follows] using ExecutionStatus.canTransition_failed_iff.symm

end

-- The kernel after some calls.
def ExecutionKernel.after (kernel : ExecutionKernel) : List (KernelCall × Moment) → ExecutionKernel
  | []              => kernel
  | (c, moment) :: calls => (c.apply moment kernel).after calls

-- All of the calls are made in turn.
def InTurn (kernel : ExecutionKernel) : List (KernelCall × Moment) → Prop
  | []                   => True
  | (c, moment) :: calls => c.InTurn kernel ∧ InTurn (c.apply moment kernel) calls

section
variable {kernel : ExecutionKernel}

theorem KernelCall.prefix_apply (c : KernelCall) (moment : Moment) (e : String) :
    kernel.list e <+: (c.apply moment kernel).list e := by
  obtain ⟨hl, _⟩ | ⟨e', _, ⟨event, _, _, hl⟩, _⟩ := c.apply_cases moment kernel
  · exact hl ▸ List.prefix_refl _
  · rw [hl, Function.update_apply]
    split
    case isTrue he  => exact he ▸ List.prefix_append _ _
    case isFalse    => exact List.prefix_refl _

theorem prefix_after (calls : List (KernelCall × Moment)) (e : String) :
    kernel.list e <+: (kernel.after calls).list e := by
  induction calls generalizing kernel
  case nil          => exact List.prefix_refl _
  case cons call _ ih => exact (call.fst.prefix_apply call.snd e).trans ih

theorem Trail.shorten {log log' : List ExecutionEvent} (hp : log <+: log') (h : Trail log') : Trail log := by
  obtain ⟨l, rfl⟩ := hp
  induction l using List.reverseRecOn
  case nil => simpa using h
  case append_singleton l event ih => exact ih <| of_concat (by simpa using h)

-- A call keeps all logs on their paths if, and only if it is made in turn.
theorem KernelCall.trails_iff (c : KernelCall) (moment : Moment) (h : ∀ e, Trail (kernel.list e)) :
    (∀ e, Trail ((c.apply moment kernel).list e)) ↔ c.InTurn kernel := by
  obtain ⟨hl, hi⟩ | ⟨e, status, ⟨event, rfl, hs, hl⟩, hi⟩ := c.apply_cases moment kernel
  case inl => exact ⟨fun _ => hi, fun _ => hl ▸ h⟩
  case inr =>
    have hc := Trail.concat_iff hs (h e)
    rw [hi, latestStatus, InMemoryEventLog.latestStatus, ← list, ← hc, hl]
    constructor
    case mp  => exact fun ht => by simpa using ht e
    case mpr =>
      intro ht e'
      rw [Function.update_apply]
      split
      · exact ht
      · exact h e'

theorem trails_iff (calls : List (KernelCall × Moment)) (h : ∀ e, Trail (kernel.list e)) :
    (∀ e, Trail ((kernel.after calls).list e)) ↔ InTurn kernel calls := by
  induction calls generalizing kernel
  case nil => exact ⟨fun _ => trivial, fun _ => h⟩
  case cons call calls ih =>
    obtain ⟨c, moment⟩ := call
    constructor
    case mp =>
      intro ht
      have hs e : Trail ((c.apply moment kernel).list e) := (ht e).shorten (prefix_after calls e)
      exact ⟨(c.trails_iff moment h).mp hs, (ih hs).mp ht⟩
    case mpr => exact fun ⟨hc, hi⟩ => (ih <| (c.trails_iff moment h).mpr hc).mpr hi

end

-- Nothing is appended after a terminal status.
theorem Trail.terminal_last {log : List ExecutionEvent} {event : ExecutionEvent} (h : Trail log)
    (hi : log[i]? = some event) (ht : event.status.Terminal) : i + 1 = log.length := by
  have hn : log.head? ≠ none := by
    rintro hn
    rw [List.head?_eq_none_iff] at hn
    simp [hn] at hi
  have ⟨first, hf⟩ := Option.ne_none_iff_exists'.mp hn
  have hl : Lifecycle (log.map (·.status)) := {
    initial := ⟨first.status, by simp [hf], (h.initial first hf).imp_right .inr⟩
    path    := h.path
  }
  simpa using @Lifecycle.terminal_last _ event.status i hl (by simp [hi]) ht

theorem memory_follows_the_state_machine (calls : List (KernelCall × Moment)) :
    (∀ e, ((new.after calls).list e).map (·.sequence) = List.range' 1 ((new.after calls).list e).length ∧
      (∀ event, ((new.after calls).list e).head? = some event → event.status = .intake ∨ event.status = .rejected) ∧
      (((new.after calls).list e).map (·.status)).IsChain (·.canTransition ·) ∧
      ∀ i event, ((new.after calls).list e)[i]? = some event → event.status.Terminal →
        i + 1 = ((new.after calls).list e).length) ↔
    InTurn new calls := by
  rw [← @trails_iff new calls fun _ => .nil]
  constructor
  case mp  => exact fun h e => ⟨(h e).left, (h e).right.left, (h e).right.right.left⟩
  case mpr => exact fun h e => ⟨(h e).numbered, (h e).initial, (h e).path, fun _ _ => (h e).terminal_last⟩

-- An execution that has failed fails once more.
theorem memory_leaves_the_state_machine : ∃ calls, ∃ e i event,
    ((new.after calls).list e)[i]? = some event ∧ event.status.Terminal ∧ i + 1 ≠ ((new.after calls).list e).length := by
  refine ⟨[(.start (Sample.request false), ⟨"a", 0, 0⟩), (.fail "e" "u" "broken", ⟨"b", 1, 1⟩),
    (.fail "e" "u" "broken", ⟨"c", 2, 2⟩)], "e", 1, _, rfl, ?_, ?_⟩
  · exact .inl rfl
  · decide

-- The logs of all executions are the same.
def ExecutionKernel.SameLogs (kernel kernel' : ExecutionKernel) : Prop :=
  ∀ e, kernel'.list e = kernel.list e ∧
    InMemoryAuditLog.listByExecution kernel'.audit e = InMemoryAuditLog.listByExecution kernel.audit e

namespace KernelCall

def Throws (c : KernelCall) (moment : Moment) (kernel : ExecutionKernel) : Prop :=
  ∃ e, c.result moment kernel = .error e

-- A call of `start` that has to reject an execution which cannot be rejected any more.
def Clashes (kernel : ExecutionKernel) : KernelCall → Prop
  | start request =>
    request.Valid ∧ blank request.objective ∧
    ∃ current, kernel.latestStatus request.identity.executionId = some current ∧ ¬current.canTransition .rejected
  | transition _ _ _ _ => False
  | fail _ _ _         => False

end KernelCall

section
variable {kernel : ExecutionKernel} {moment : Moment}

theorem evaluateExecutionPolicy_allowed {request : ExecutionRequest} :
    (evaluateExecutionPolicy request).allowed ↔ ¬blank request.objective := by
  rw [evaluateExecutionPolicy]
  split <;> simp [*]

theorem audited_not_same (kernel : ExecutionKernel) (moment : Moment) (request : ExecutionRequest) :
    ¬kernel.SameLogs (kernel.audited moment request) := by
  intro h
  have := congrArg List.length (h request.identity.executionId).right
  simp [InMemoryAuditLog.listByExecution, audited, List.filter_append] at this

theorem transition_throws (h : ((transition moment e status actorId payload).run.run kernel).fst = .error error) :
    ((transition moment e status actorId payload).run.run kernel).snd = kernel ∧
    ∃ current, kernel.latestStatus e = some current ∧ ¬current.canTransition status := by
  obtain ⟨current, hl, hc, hr⟩ | ⟨_, hr⟩ := transition_cases moment e status actorId payload kernel
  case inl => exact ⟨by rw [hr], current, hl, hc⟩
  case inr =>
    rw [hr, append_run] at h
    cases h

-- A call leaves the logs as they are when it throws, unless it clashes.
theorem KernelCall.atomic_iff (c : KernelCall) (moment : Moment) (kernel : ExecutionKernel) :
    (c.Throws moment kernel → kernel.SameLogs (c.apply moment kernel)) ↔ ¬c.Clashes kernel := by
  cases c
  case transition e status actorId payload =>
    refine iff_of_true (fun ⟨_, h⟩ => ?_) id
    rw [apply, method, (transition_throws h).left]
    exact fun _ => ⟨rfl, rfl⟩
  case fail =>
    refine iff_of_true (fun ⟨_, h⟩ => ?_) id
    rw [result, method, fail_run, append_run] at h
    cases h
  case start request =>
    rw [Throws, result, apply, method]
    by_cases hv : request.Valid
    case neg =>
      rw [start_run_invalid hv]
      exact iff_of_true (fun _ _ => ⟨rfl, rfl⟩) fun h => hv h.left
    case pos =>
      rw [start_run hv]
      by_cases ha : (evaluateExecutionPolicy request).allowed
      case pos =>
        rw [if_pos ha, append_run]
        exact iff_of_true (fun ⟨_, h⟩ => by cases h) fun h => evaluateExecutionPolicy_allowed.mp ha h.right.left
      case neg =>
        rw [if_neg ha]
        have hb : blank request.objective := not_not.mp fun h => ha <| evaluateExecutionPolicy_allowed.mpr h
        constructor
        case mp =>
          rintro h ⟨_, _, current, hl, hc⟩
          obtain ⟨_, _, _, hr⟩ | ⟨hn, _⟩ := transition_cases moment request.identity.executionId .rejected
            request.identity.actorId [("reason", .string (evaluateExecutionPolicy request).reason)]
            (kernel.audited moment request)
          case inl =>
            rw [hr] at h
            exact audited_not_same kernel moment request <| h ⟨_, rfl⟩
          case inr => exact hc <| hn current hl
        case mpr =>
          intro h ⟨_, ht⟩
          have ⟨_, current, hl, hc⟩ := transition_throws ht
          exact absurd ⟨hv, hb, current, hl, hc⟩ h

end

-- Calls that throw change nothing, unless an execution is started again and cannot be rejected.
theorem memory_is_atomic (calls : List (KernelCall × Moment)) :
    (∀ before c moment later, calls = before ++ (c, moment) :: later → c.Throws moment (new.after before) →
      (new.after before).SameLogs (c.apply moment (new.after before))) ↔
    ∀ before c moment later, calls = before ++ (c, moment) :: later → ¬c.Clashes (new.after before) := by
  constructor
  case mp  => exact fun h before c moment later hc => (c.atomic_iff moment _).mp (h before c moment later hc)
  case mpr => exact fun h before c moment later hc => (c.atomic_iff moment _).mpr (h before c moment later hc)

-- An execution is started once more, without an objective. That throws, and is audited.
theorem memory_audits_what_throws : ∃ calls moment, ∃ c : KernelCall,
    c.Throws moment (new.after calls) ∧ ¬(new.after calls).SameLogs (c.apply moment (new.after calls)) := by
  refine ⟨[(.start (Sample.request false), ⟨"a", 0, 0⟩)], ⟨"b", 1, 1⟩,
    .start { Sample.request false with objective := " " }, ⟨_, rfl⟩, fun h => ?_⟩
  have := congrArg List.length (h "e").right
  revert this
  decide

end Logon
