import Logon.Chains
import Logon.Runtime.ExecutionRuntime

-- The runtime shuts down in an orderly way, unless a `start` or a `stop` comes during an earlier `stop`.

namespace Logon
namespace Poller

variable {β : Type} {next : β → TickOutcome → β × Int} {p p' : Poller β}

def Quiet (p : Poller β) : Prop :=
  p.running = false ∧ p.inFlight = 0

-- A poller that is not running is not getting any busier.
structure Calms (p p' : Poller β) : Prop where
  running  : p.running = false → p'.running = false
  inFlight : p.running = false → p'.inFlight ≤ p.inFlight
  begun    : p.running = false → p'.begun = p.begun

theorem Calms.halt (p : Poller β) : Calms p p.halt where
  running  := fun _ => halt_running
  inFlight := fun _ => by simp [Poller.inFlight]
  begun    := fun _ => halt_begun

-- Calls of the function that end leave the rest of a poller as it is.
theorem Calms.of_same (hr : p'.running = p.running) (hb : p'.begun = p.begun) (hi : p'.inFlight ≤ p.inFlight) :
    Calms p p' where
  running  := hr.trans
  inFlight := fun _ => hi
  begun    := fun _ => hb

theorem Calms.turn (e : Turn next p p') : Calms p p' := by
  cases e
  case fire => constructor <;> intro h <;> simp [Poller.tick, Poller.inFlight, h]
  case settle hc => exact .of_same rfl rfl (by simp [Poller.inFlight, hc])
  case finish hc => exact .of_same rfl rfl (by simp [Poller.inFlight, hc])
  case leave hc  => exact .of_same rfl rfl (by simp [Poller.inFlight, hc])
  case resume hc =>
    constructor <;> intro h
    case running  => simpa using h
    case inFlight => simp [Poller.inFlight, hc]
    case begun    => simp

theorem Quiet.calms (h : p.Quiet) (hs : Calms p p') : p'.Quiet :=
  ⟨hs.running h.left, Nat.le_zero.mp <| h.right ▸ hs.inFlight h.left⟩

end Poller

open Poller

namespace ExecutionRuntime

-- What the dispatcher is like while a call of `stop` waits.
inductive Sound (d : Poller Int) : Stopping → Prop
  | first {done : Bool}  : Sound d ⟨.approvalSweeper, done, [.dispatcher, .worker, .publisher]⟩
  | second {done : Bool} : d.Quiet → Sound d ⟨.approvalSweeper, done, [.worker, .publisher]⟩
  | dispatcher {done : Bool} :
    d.running = false → (done → d.inFlight = 0) → Sound d ⟨.dispatcher, done, [.worker, .publisher]⟩
  | worker {done : Bool}    : d.Quiet → Sound d ⟨.worker, done, [.publisher]⟩
  | publisher {done : Bool} : d.Quiet → Sound d ⟨.publisher, done, []⟩

theorem Sound.calms (h : Sound d s) (hs : Calms d d') : Sound d' s := by
  cases h
  case first           => exact .first
  case second hq       => exact .second <| hq.calms hs
  case dispatcher hr h => exact .dispatcher (hs.running hr) fun hd => Nat.le_zero.mp <| h hd ▸ hs.inFlight hr
  case worker hq       => exact .worker <| hq.calms hs
  case publisher hq    => exact .publisher <| hq.calms hs

-- The runtime is started while no `stop` is in progress, except for one that is still going to stop
-- everything. If `stop` leaves out the dispatcher, then the dispatcher has been stopped before.
def Careful (r : ExecutionRuntime) : Use → Prop
  | .start => r.started ∨ ∀ s ∈ r.stops, .dispatcher ∈ s.rest ∧ r.approvalSweeper = none
  | .stop  => r.started ∨ r.dispatcher.Quiet

-- The queue is closed when no publish is in progress, and none can begin. After a `stop` has ended,
-- nothing begins until the next `start`.
structure Orderly (r : ExecutionRuntime) : Prop where
  closings : ∀ c ∈ r.closings, c.running = false ∧ c.inFlight = 0
  resolved : ∀ n ∈ r.resolved, r.begun = n

structure Inv (r : ExecutionRuntime) : Prop extends Orderly r where
  guarded : r.dispatcher.Guarded
  stops   : ∀ s ∈ r.stops, Sound r.dispatcher s
  halted  : r.stops ≠ [] ∨ r.resolved ≠ none → ∀ p ∈ r.approvalSweeper, p.running = false
  ended   : r.resolved ≠ none → r.dispatcher.running = false

variable {options : ExecutionRuntimeOptions} {r r' : ExecutionRuntime}

theorem Inv.new (options : ExecutionRuntimeOptions) : (new options).Inv where
  closings := nofun
  resolved := nofun
  guarded  := .new 0
  stops    := nofun
  halted   := by simp [ExecutionRuntime.new]
  ended    := by simp [ExecutionRuntime.new]

theorem Inv.start (h : r.Inv) (hc : r.Careful .start) : r.start.Inv := by
  unfold ExecutionRuntime.start
  split
  case isTrue =>
    exact {
      closings := h.closings
      resolved := nofun
      guarded  := h.guarded
      stops    := h.stops
      halted   := fun hs => h.halted <| .inl <| hs.resolve_right (· rfl)
      ended    := fun hn => absurd rfl hn
    }
  case isFalse hr =>
    have hc := hc.resolve_left hr
    exact {
      closings := h.closings
      resolved := nofun
      guarded  := h.guarded.use .start
      stops    := by
        intro s hs
        have hd := (hc s hs).left
        cases h.stops s hs
        case first => exact .first
        all_goals simp at hd
      halted   := by
        intro hs p hp
        have ⟨s, hs⟩ := List.exists_mem_of_ne_nil _ <| hs.resolve_right (· rfl)
        simp [(hc s hs).right] at hp
      ended    := fun hn => absurd rfl hn
    }

theorem Inv.restop {l : List Stopping} (h : r.Inv) (hn : r.stops ≠ []) (hs : ∀ s ∈ l, Sound r.dispatcher s) :
    { r with stops := l }.Inv where
  closings := h.closings
  resolved := h.resolved
  guarded  := h.guarded
  stops    := hs
  halted   := fun _ => h.halted <| .inl hn
  ended    := h.ended

section
variable {l₁ l₂ : List Stopping} {stop : Stopping}

theorem Inv.stops_split (h : r.Inv) (hs : r.stops = l₁ ++ stop :: l₂) :
    (∀ s ∈ l₁, Sound r.dispatcher s) ∧ Sound r.dispatcher stop ∧ ∀ s ∈ l₂, Sound r.dispatcher s := by
  have hh := h.stops
  simpa only [hs, List.forall_mem_append, List.forall_mem_cons] using hh

-- One of the calls of `stop` is over.
theorem Inv.unstop (h : r.Inv) (hs : r.stops = l₁ ++ stop :: l₂) : { r with stops := l₁ ++ l₂ }.Inv :=
  h.restop (by simp [hs]) <| List.forall_mem_append.mpr ⟨(h.stops_split hs).left, (h.stops_split hs).right.right⟩

end

theorem Sound.append {l : List Stopping} (h : ∀ s ∈ l, Sound d s) (hs : Sound d s') : ∀ s ∈ l ++ [s'], Sound d s := by
  intro s hm
  cases List.mem_append.mp hm
  case inl hm => exact h s hm
  case inr hm => exact List.mem_singleton.mp hm ▸ hs

theorem Inv.await_approvalSweeper (h : r.Inv) (hs : Sound r.dispatcher ⟨.approvalSweeper, false, rest⟩) :
    (r.await .approvalSweeper rest).Inv where
  closings := h.closings
  resolved := by
    intro n hn
    have hb := h.resolved n hn
    simpa [begun, await, enter, Function.comp_def] using hb
  guarded  := h.guarded
  stops    := Sound.append h.stops hs
  halted   := by simp [await, enter]
  ended    := h.ended

theorem Inv.await_dispatcher (h : r.Inv) (hn : ∀ p ∈ r.approvalSweeper, p.running = false) :
    (r.await .dispatcher [.worker, .publisher]).Inv where
  closings := h.closings
  resolved := by
    intro n hn
    have hb := h.resolved n hn
    simpa [begun, await, enter] using hb
  guarded  := h.guarded.use .stop
  stops    := Sound.append (fun s hs => (h.stops s hs).calms <| .halt _) <| .dispatcher halt_running nofun
  halted   := fun _ => hn
  ended    := fun _ => halt_running

theorem Inv.await_worker (h : r.Inv) (hn : ∀ p ∈ r.approvalSweeper, p.running = false) (hq : r.dispatcher.Quiet) :
    (r.await .worker [.publisher]).Inv where
  closings := h.closings
  resolved := h.resolved
  guarded  := h.guarded
  stops    := Sound.append h.stops <| .worker hq
  halted   := fun _ => hn
  ended    := h.ended

theorem Inv.await_publisher (h : r.Inv) (hn : ∀ p ∈ r.approvalSweeper, p.running = false) (hq : r.dispatcher.Quiet) :
    (r.await .publisher []).Inv where
  closings := by
    intro c hc
    cases List.mem_append.mp hc
    case inl hc => exact h.closings c hc
    case inr hc => exact List.mem_singleton.mp hc ▸ hq
  resolved := h.resolved
  guarded  := h.guarded
  stops    := Sound.append h.stops <| .publisher hq
  halted   := fun _ => hn
  ended    := h.ended

theorem Inv.stop (h : r.Inv) (hc : r.Careful .stop) : r.stop.Inv := by
  unfold ExecutionRuntime.stop
  split
  case isTrue      => exact await_approvalSweeper (r := { r with started := false }) { h with } .first
  case isFalse hr  => exact h.await_approvalSweeper <| .second <| hc.resolve_left hr

theorem Inv.publish (h : r.Inv) (e : r.dispatcher.Turn options.dispatcher.next p) :
    { r with dispatcher := p }.Inv where
  closings := h.closings
  resolved := by
    intro n hn
    have hb := h.resolved n hn
    have hr := h.ended <| Option.ne_none_iff_exists'.mpr ⟨n, hn⟩
    simpa [begun, (Calms.turn e).begun hr] using hb
  guarded  := h.guarded.turn e
  stops    := fun s hs => (h.stops s hs).calms <| .turn e
  halted   := h.halted
  ended    := fun hn => (Calms.turn e).running <| h.ended hn

theorem Inv.sweep (h : r.Inv) (hp : r.approvalSweeper = some p) (e : p.Turn options.approvalSweeper.next p') :
    { r with approvalSweeper := some p' }.Inv where
  closings := h.closings
  resolved := by
    intro n hn
    have hb := h.resolved n hn
    have hr := h.halted (.inr <| Option.ne_none_iff_exists'.mpr ⟨n, hn⟩) p hp
    simpa [begun, hp, (Calms.turn e).begun hr] using hb
  guarded  := h.guarded
  stops    := h.stops
  halted   := by
    intro hs p'' he
    cases he
    exact (Calms.turn e).running <| h.halted hs p hp
  ended    := h.ended

theorem Inv.step (h : r.Inv) (e : Step options Careful r r') : r'.Inv := by
  cases e
  case use u hc =>
    cases u
    case start => exact h.start hc
    case stop  => exact h.stop hc
  case publish e   => exact h.publish e
  case sweep hp e  => exact h.sweep hp e
  case resolve l₁ l₂ stage rest hs hr =>
    have hh := h.stops_split hs
    refine h.restop (by simp [hs]) ?_
    simp only [List.forall_mem_append, List.forall_mem_cons]
    refine ⟨hh.left, ?_, hh.right.right⟩
    cases hh.right.left
    case first           => exact .first
    case second hq       => exact .second hq
    case worker hq       => exact .worker hq
    case publisher hq    => exact .publisher hq
    case dispatcher hd _ =>
      have hb : r.dispatcher.busy = false := hr
      exact .dispatcher hd fun _ => Nat.le_zero.mp <| by simpa [hb] using h.guarded.inFlight_le
  case fail l₁ l₂ stage rest hs _ => exact h.unstop hs
  case proceed l₁ l₂ stage next rest hs =>
    have hn : r.stops ≠ [] := by simp [hs]
    have h' := h.unstop hs
    cases (h.stops_split hs).right.left
    case first            => exact h'.await_dispatcher <| h.halted <| .inl hn
    case second hq        => exact h'.await_worker (h.halted <| .inl hn) hq
    case dispatcher hr hi => exact h'.await_worker (h.halted <| .inl hn) ⟨hr, hi rfl⟩
    case worker hq        => exact h'.await_publisher (h.halted <| .inl hn) hq
  case finish l₁ l₂ stage hs =>
    have hn : r.stops ≠ [] := by simp [hs]
    have h' := h.unstop hs
    cases (h.stops_split hs).right.left
    case publisher hq =>
      exact {
        closings := h'.closings
        resolved := by
          intro n he
          cases he
          cases hr : r.resolved
          case none   => rfl
          case some n => exact h.resolved n hr
        guarded  := h'.guarded
        stops    := h'.stops
        halted   := fun _ => h.halted <| .inl hn
        ended    := fun _ => hq.left
      }

theorem Inv.steps (h : r.Inv) (e : Steps options Careful r r') : r'.Inv := by
  induction e
  case refl      => exact h
  case tail e ih => exact ih.step e

theorem shutdown_is_orderly (h : Steps options Careful (ExecutionRuntime.new options) r) : r.Orderly :=
  (Inv.new options |>.steps h).toOrderly

-- The runtime is stopped during the first publish.
theorem shutdown_is_orderly_publishing :
    ∃ r : ExecutionRuntime, r.Orderly ∧ r.closings = [⟨false, 0, 0, 1⟩] ∧ r.resolved = some 1 := by
  let options : ExecutionRuntimeOptions := ⟨none, none, none, none, none⟩
  have h : Steps options Careful (ExecutionRuntime.new options) _ :=
    .head (.use .start <| .inr nofun) <|
    .head (.publish <| .fire (List.nil_append _).symm) <|
    .head (.use .stop <| .inl rfl) <|
    .head (@Step.resolve _ _ _ [] [] _ _ rfl fun _ hp => Option.some.inj hp ▸ rfl) <|
    .head (@Step.proceed _ _ _ [] [] _ _ _ rfl) <|
    .head (.publish <| @Turn.settle _ _ _ [] [] true (.result 0) rfl) <|
    .head (.publish <| @Turn.finish _ _ _ [] [] true (.result 0) rfl) <|
    .head (.publish <| @Turn.resume _ _ _ [] [] (.result 0) rfl) <|
    .head (@Step.resolve _ _ _ [] [] _ _ rfl rfl) <|
    .head (@Step.proceed _ _ _ [] [] _ _ _ rfl) <|
    .head (@Step.resolve _ _ _ [] [] _ _ rfl trivial) <|
    .head (@Step.proceed _ _ _ [] [] _ _ _ rfl) <|
    .head (@Step.resolve _ _ _ [] [] _ _ rfl trivial) <|
    .single <| @Step.finish _ _ _ [] [] _ rfl
  exact ⟨_, shutdown_is_orderly h, rfl, rfl⟩

-- While a `stop` waits for a publish, a second one goes past it and closes the queue.
theorem second_stop_overtakes :
    ¬∀ (options : ExecutionRuntimeOptions) (r : ExecutionRuntime),
      Steps options (fun _ _ => True) (ExecutionRuntime.new options) r → r.Orderly := by
  intro h
  let options : ExecutionRuntimeOptions := ⟨none, none, none, none, none⟩
  have e : Steps options (fun _ _ => True) (ExecutionRuntime.new options) _ :=
    .head (.use .start trivial) <|
    .head (.publish <| .fire (List.nil_append _).symm) <|
    .head (.use .stop trivial) <|
    .head (@Step.resolve _ _ _ [] [] _ _ rfl fun _ hp => Option.some.inj hp ▸ rfl) <|
    .head (@Step.proceed _ _ _ [] [] _ _ _ rfl) <|
    .head (.use .stop trivial) <|
    .head (@Step.resolve _ _ _ [⟨.dispatcher, false, [.worker, .publisher]⟩] [] _ _ rfl
      fun _ hp => Option.some.inj hp ▸ rfl) <|
    .head (@Step.proceed _ _ _ [⟨.dispatcher, false, [.worker, .publisher]⟩] [] _ _ _ rfl) <|
    .head (@Step.resolve _ _ _ [⟨.dispatcher, false, [.worker, .publisher]⟩] [] _ _ rfl trivial) <|
    .single <| @Step.proceed _ _ _ [⟨.dispatcher, false, [.worker, .publisher]⟩] [] _ _ _ rfl
  exact absurd ((h options _ e).closings ⟨false, 1, 0, 1⟩ List.mem_cons_self).right (by decide)

end ExecutionRuntime
end Logon
