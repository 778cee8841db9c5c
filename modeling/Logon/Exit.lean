import Logon.Runtime.Main
import Logon.Shutdown

-- Whatever signals come, the runtime's process ends in an orderly way, and it can always end.

namespace Logon

open ExecutionRuntime

namespace Poller

variable {β : Type} {next : β → TickOutcome → β × Int} {p : Poller β}

-- A busy poller becomes idle by going on with the call that keeps it busy.
theorem Guarded.exists_idle (h : p.Guarded) :
    ∃ p', Relation.ReflTransGen (Turn next) p p' ∧ p'.busy = false := by
  cases hb : p.busy
  case false => exact ⟨p, .refl, hb⟩
  case true =>
    have hpos : 0 < p.calls.countP (·.phase.holds) := by
      rw [h, hb]
      decide
    obtain ⟨⟨tick, phase⟩, hm, hc⟩ := List.countP_pos_iff.mp hpos
    obtain ⟨l₁, l₂, hs⟩ := List.append_of_mem hm
    cases phase
    case returned => cases hc
    case settled  => exact ⟨_, .single <| .finish hs, rfl⟩
    case working  => exact ⟨_, .head (@Turn.settle _ _ _ _ _ _ (.result 0) hs) <| .single <| .finish rfl, rfl⟩

theorem Guarded.quiet (h : p.Guarded) (hr : p.running = false) (hb : p.busy = false) : p.Quiet :=
  ⟨hr, Nat.le_zero.mp <| by simpa [hb] using h.inFlight_le⟩

end Poller

open Poller

namespace Main

-- Neither is a sweep in progress, nor can one begin.
def Swept (r : ExecutionRuntime) : Prop :=
  ∀ p ∈ r.approvalSweeper, p.Quiet

-- The queue has not been closed, or nothing was in progress then, and nothing has begun since.
structure Closed (r : ExecutionRuntime) : Prop where
  closings   : ∀ c ∈ r.closings, c = ⟨false, 0, 0, r.begun⟩
  dispatcher : r.closings ≠ [] → r.dispatcher.Quiet
  swept      : r.closings ≠ [] → Swept r

-- Whether a call of `stop` has left the sweeper behind.
def Past (s : Stopping) : Prop :=
  s.stage ≠ .approvalSweeper ∨ s.done

-- What is left to be done at each point of the course, and what has been done.
inductive Due (m : Main) : Course → Prop
  | running :
    m.stopping = false → m.listeners = [.sigint, .sigterm] → m.runtime.started → m.runtime.stops = [] →
    m.runtime.closings = [] → m.runtime.resolved = none → m.endings = [] → Due m .running
  | stopping {s : Stopping} :
    m.stopping → m.runtime.stops = [s] → m.runtime.closings.length = (if s.stage = .publisher then 1 else 0) →
    m.runtime.resolved = none → (Past s → Swept m.runtime) → m.endings = [] → Due m .stopping
  | stopped {n : Nat} :
    m.stopping → m.runtime.stops = [] → m.runtime.closings.length = 1 → m.runtime.resolved = some n →
    m.runtime.dispatcher.Quiet → Swept m.runtime → m.endings = [] → Due m .stopped
  | ending {n : Nat} :
    m.stopping → m.runtime.stops = [] → m.runtime.closings.length = 1 → m.runtime.resolved = some n →
    m.endings = [⟨0, 0, n⟩] → Due m .ending
  | exited {code n : Nat} :
    m.runtime.closings.length = 1 → m.runtime.resolved = some n → m.endings = [⟨0, 0, n⟩] → Due m (.exited code)
  | failed :
    m.runtime.closings.length ≤ 1 → m.endings = [] → Due m (.exited 1)
  | killed :
    m.runtime.closings.length ≤ 1 → m.endings.length ≤ 1 →
    (∀ e ∈ m.endings, e = ⟨0, 0, m.runtime.begun⟩ ∧ m.runtime.closings.length = 1) → Due m .killed

structure Inv (m : Main) : Prop where
  runtime : m.runtime.Inv
  guarded : ∀ p ∈ m.runtime.approvalSweeper, p.Guarded
  closed  : Closed m.runtime
  due     : Due m m.course

variable {m m' : Main} {r r' : ExecutionRuntime} {s : Stopping}

theorem Swept.sweep {p p' : Poller Unit} {next : Unit → TickOutcome → Unit × Int} (h : Swept r)
    (hp : r.approvalSweeper = some p) (e : p.Turn next p') : Swept { r with approvalSweeper := some p' } := by
  intro p'' he
  cases he
  exact (h p hp).calms <| .turn e

theorem Swept.sweeps (h : Swept r) : r.sweeps = 0 := by
  unfold ExecutionRuntime.sweeps
  cases hp : r.approvalSweeper
  case none   => rfl
  case some p => exact (h p hp).right

theorem Closed.of_nil (h : r.closings = []) : Closed r where
  closings   := by simp [h]
  dispatcher := fun hn => absurd h hn
  swept      := fun hn => absurd h hn

-- What does not close the queue, and begins nothing once it has been closed.
theorem Closed.calms (h : Closed r) (hc : r'.closings = r.closings)
    (hs : r.dispatcher.Quiet → Swept r → r'.dispatcher.Quiet ∧ Swept r' ∧ r'.begun = r.begun) : Closed r' := by
  by_cases hn : r.closings = []
  case pos => exact .of_nil (hc.trans hn)
  case neg =>
    obtain ⟨hq, hw, hb⟩ := hs (h.dispatcher hn) (h.swept hn)
    exact ⟨by rw [hc, hb]; exact h.closings, fun _ => hq, fun _ => hw⟩

-- The queue is closed once the dispatcher and the sweeper are quiet.
theorem Closed.close (h : Closed r) (hq : r.dispatcher.Quiet) (hw : Swept r) (rest : List Stage) :
    Closed (r.await .publisher rest) where
  closings := by
    intro c hc
    obtain hc | hc := List.mem_append.mp hc
    · exact h.closings c hc
    · rw [List.mem_singleton.mp hc, hq.left, hq.right, hw.sweeps]
      rfl
  dispatcher _ := hq
  swept _      := hw

theorem Inv.started : Main.started.Inv where
  runtime := (ExecutionRuntime.Inv.new options).start <| .inr nofun
  guarded := by
    intro p hp
    obtain rfl : p = (Poller.new ()).start := by
      simpa [Main.started, ExecutionRuntime.start, ExecutionRuntime.new, options, eq_comm] using hp
    exact (Guarded.new ()).use .start
  closed  := .of_nil rfl
  due     := .running rfl rfl rfl rfl rfl rfl rfl

-- Without users, a runtime goes on as a careful one does.
theorem careful_of_nobody (e : ExecutionRuntime.Step options (fun _ _ => False) r r') :
    ExecutionRuntime.Step options Careful r r' := by
  cases e
  case use hc        => exact hc.elim
  case publish e     => exact .publish e
  case sweep hp e    => exact .sweep hp e
  case resolve hs hr => exact .resolve hs hr
  case fail hs hf    => exact .fail hs hf
  case proceed hs    => exact .proceed hs
  case finish hs     => exact .finish hs

theorem guarded_step (h : ∀ p ∈ r.approvalSweeper, p.Guarded) (e : ExecutionRuntime.Step options (fun _ _ => False) r r') :
    ∀ p ∈ r'.approvalSweeper, p.Guarded := by
  cases e
  case use hc     => exact hc.elim
  case sweep hp e =>
    intro p he
    cases he
    exact (h _ hp).turn e
  case proceed l₁ l₂ stage next rest hs =>
    cases next
    case approvalSweeper =>
      intro p hp
      obtain ⟨p, hm, rfl⟩ := Option.map_eq_some_iff.mp hp
      exact (h p hm).use .stop
    all_goals exact h
  all_goals exact h

theorem Closed.step (h : Closed r) (hi : r.Inv) (hw : ∀ s ∈ r.stops, Past s → Swept r)
    (e : ExecutionRuntime.Step options (fun _ _ => False) r r') : Closed r' := by
  cases e
  case use hc      => exact hc.elim
  case resolve     => exact h.calms rfl fun hq hw => ⟨hq, hw, rfl⟩
  case fail        => exact h.calms rfl fun hq hw => ⟨hq, hw, rfl⟩
  case finish      => exact h.calms rfl fun hq hw => ⟨hq, hw, rfl⟩
  case publish e   =>
    refine h.calms rfl fun hq hw => ⟨hq.calms <| .turn e, hw, ?_⟩
    simp [ExecutionRuntime.begun, (Calms.turn e).begun hq.left]
  case sweep hp e  =>
    refine h.calms rfl fun hq hw => ⟨hq, hw.sweep hp e, ?_⟩
    simp [ExecutionRuntime.begun, hp, (Calms.turn e).begun (hw _ hp).left]
  case proceed l₁ l₂ stage next rest hs =>
    have h' : Closed { r with stops := l₁ ++ l₂ } := h.calms rfl fun hq hw => ⟨hq, hw, rfl⟩
    have hm : ⟨stage, true, next :: rest⟩ ∈ r.stops := by simp [hs]
    have hsound := hi.stops _ hm
    cases hsound
    case first        =>
      refine h'.calms rfl fun hq hw => ⟨hq.calms <| .halt _, hw, ?_⟩
      simp [ExecutionRuntime.begun, await, enter]
    case second       => exact h'.calms rfl fun hq hw => ⟨hq, hw, rfl⟩
    case dispatcher   => exact h'.calms rfl fun hq hw => ⟨hq, hw, rfl⟩
    case worker hq    => exact h'.close hq (hw _ hm <| .inr rfl) []

-- While no call of `stop` is in progress, only the dispatcher and the sweeper go on.
theorem step_of_idle (e : ExecutionRuntime.Step options (fun _ _ => False) r r') (hn : r.stops = []) :
    r'.started = r.started ∧ r'.stops = [] ∧ r'.closings = r.closings ∧ r'.resolved = r.resolved ∧
      (r.dispatcher.Quiet → r'.dispatcher.Quiet) ∧ (Swept r → Swept r') := by
  cases e
  case use hc     => exact hc.elim
  case publish e  => exact ⟨rfl, hn, rfl, rfl, fun h => h.calms <| .turn e, fun h => h⟩
  case sweep hp e => exact ⟨rfl, hn, rfl, rfl, fun h => h, fun h => h.sweep hp e⟩
  all_goals simp_all

-- How the single call of `stop` goes on.
inductive Proceeds (r' : ExecutionRuntime) : Prop
  | goes {s : Stopping} :
    r'.stops = [s] → r'.closings.length = (if s.stage = .publisher then 1 else 0) → r'.resolved = none →
    (Past s → Swept r') → Proceeds r'
  | fails :
    r'.stops = [] → r'.closings.length ≤ 1 → r'.resolved = none → Proceeds r'
  | ends {n : Nat} :
    r'.stops = [] → r'.closings.length = 1 → r'.resolved = some n → r'.dispatcher.Quiet → Swept r' → Proceeds r'

theorem singleton_split {l₁ l₂ : List α} (h : [a] = l₁ ++ b :: l₂) : l₁ = [] ∧ b = a ∧ l₂ = [] := by
  cases l₁
  case nil  => simp_all
  case cons => simp at h

theorem step_of_stopping (e : ExecutionRuntime.Step options (fun _ _ => False) r r') (hi : r.Inv)
    (hg : ∀ p ∈ r.approvalSweeper, p.Guarded) (hs : r.stops = [s])
    (hc : r.closings.length = if s.stage = .publisher then 1 else 0) (hr : r.resolved = none)
    (hw : Past s → Swept r) : Proceeds r' := by
  have hh := hi.halted <| .inl <| by simp [hs]
  have hsound := hi.stops s (by simp [hs])
  cases e
  case use hc     => exact hc.elim
  case publish    => exact .goes hs hc hr hw
  case sweep hp e => exact .goes hs hc hr fun hp' => (hw hp').sweep hp e
  case resolve l₁ l₂ stage rest hs' hres =>
    obtain ⟨rfl, rfl, rfl⟩ := singleton_split <| hs.symm.trans hs'
    refine .goes rfl hc hr fun _ => ?_
    by_cases hst : stage = .approvalSweeper
    case pos =>
      subst hst
      exact fun p hp => (hg p hp).quiet (hh p hp) (hres p hp)
    case neg => exact hw <| .inl hst
  case fail l₁ l₂ stage rest hs' _ =>
    obtain ⟨rfl, rfl, rfl⟩ := singleton_split <| hs.symm.trans hs'
    refine .fails rfl ?_ hr
    show r.closings.length ≤ 1
    rw [hc]
    split <;> decide
  case proceed l₁ l₂ stage next rest hs' =>
    obtain ⟨rfl, rfl, rfl⟩ := singleton_split <| hs.symm.trans hs'
    have hswept := hw <| .inr rfl
    cases hsound <;> exact .goes rfl (by simpa [await, enter] using hc) hr fun _ => hswept
  case finish l₁ l₂ stage hs' =>
    obtain ⟨rfl, rfl, rfl⟩ := singleton_split <| hs.symm.trans hs'
    have hswept := hw <| .inr rfl
    cases hsound
    case publisher hq => exact .ends rfl hc rfl hq hswept

theorem Due.swept (h : Due m m.course) (ha : m.Alive) : ∀ s ∈ m.runtime.stops, Past s → Swept m.runtime := by
  cases hc : m.course <;> rw [hc] at h
  case exited code => exact absurd hc <| ha.right code
  case killed      => exact absurd hc ha.left
  case stopping    =>
    cases h
    case stopping hn _ _ hw _ =>
      rw [hn]
      exact fun s hs => List.mem_singleton.mp hs ▸ hw
  case running     =>
    cases h
    case running hn _ _ _ => simp [hn]
  case stopped     =>
    cases h
    case stopped hn _ _ _ _ _ => simp [hn]
  case ending      =>
    cases h
    case ending hn _ _ _ => simp [hn]

theorem Inv.observe (h : m.Inv) (ha : m.Alive) (e : ExecutionRuntime.Step options (fun _ _ => False) m.runtime r) :
    (m.observe r).Inv where
  runtime := h.runtime.step <| careful_of_nobody e
  guarded := guarded_step h.guarded e
  closed  := h.closed.step h.runtime (h.due.swept ha) e
  due     := by
    have hd := h.due
    cases hc : m.course <;> rw [hc] at hd
    case exited code => exact absurd hc <| ha.right code
    case killed      => exact absurd hc ha.left
    case running =>
      cases hd
      case running hs hl hst hn hcl hr he =>
        obtain ⟨hst', hn', hcl', hr', _, _⟩ := step_of_idle e hn
        simp only [Main.observe, hc, reduceCtorEq, false_and, if_false]
        exact .running hs hl (hst' ▸ hst) hn' (hcl'.trans hcl) (hr'.trans hr) he
    case stopping =>
      cases hd
      case stopping hs hn hcl hr hw he =>
        have hp := step_of_stopping e h.runtime h.guarded hn hcl hr hw
        cases hp
        case goes hn' hcl' hr' hw' =>
          simp only [Main.observe, hc, hn', List.cons_ne_nil, and_false, if_false]
          exact .stopping hs hn' hcl' hr' hw' he
        case fails hn' hcl' hr' =>
          simp only [Main.observe, hc, hn', hr', and_self, if_true, Option.isSome_none, Bool.false_eq_true, if_false]
          exact .failed hcl' he
        case ends hn' hcl' hr' hq' hw' =>
          simp only [Main.observe, hc, hn', hr', and_self, if_true, Option.isSome_some]
          exact .stopped hs hn' hcl' hr' hq' hw' he
    case stopped =>
      cases hd
      case stopped hs hn hcl hr hq hw he =>
        obtain ⟨_, hn', hcl', hr', hq', hw'⟩ := step_of_idle e hn
        simp only [Main.observe, hc, reduceCtorEq, false_and, if_false]
        exact .stopped hs hn' (hcl' ▸ hcl) (hr'.trans hr) (hq' hq) (hw' hw) he
    case ending =>
      cases hd
      case ending hs hn hcl hr he =>
        obtain ⟨_, hn', hcl', hr', _, _⟩ := step_of_idle e hn
        simp only [Main.observe, hc, reduceCtorEq, false_and, if_false]
        exact .ending hs hn' (hcl' ▸ hcl) (hr'.trans hr) he

-- Who listens does not matter once the first signal has come.
theorem Due.deaf (h : Due m c) (hs : m.stopping) (l : List Signal) : Due { m with listeners := l } c := by
  cases h
  case running hn _ _ _ _ _ _    => exact absurd hs <| by simp [hn]
  case stopping hs hn hcl hr hw he => exact .stopping hs hn hcl hr hw he
  case stopped hs hn hcl hr hq hw he => exact .stopped hs hn hcl hr hq hw he
  case ending hs hn hcl hr he      => exact .ending hs hn hcl hr he
  case exited hcl hr he            => exact .exited hcl hr he
  case failed hcl he               => exact .failed hcl he
  case killed hcl hl he            => exact .killed hcl hl he

theorem Inv.signal (h : m.Inv) (ha : m.Alive) (l : List Signal) : { m.shutdown with listeners := l }.Inv := by
  unfold shutdown
  split
  case isTrue hs => exact ⟨h.runtime, h.guarded, h.closed, h.due.deaf hs l⟩
  case isFalse hs =>
    have hd := h.due
    cases hc : m.course <;> rw [hc] at hd <;> cases hd
    case exited       => exact absurd hc <| ha.right _
    case failed       => exact absurd hc <| ha.right _
    case killed       => exact absurd hc ha.left
    case running hl hst hn hcl hr he =>
      have hcl' : m.runtime.stop.closings = [] := by
        simp [ExecutionRuntime.stop, hst, await, enter, hcl]
      refine ⟨h.runtime.stop <| .inl hst, ?_, .of_nil hcl', ?_⟩
      · intro p hp
        simp only [ExecutionRuntime.stop, hst, if_true, await, enter] at hp
        obtain ⟨p, hm, rfl⟩ := Option.map_eq_some_iff.mp hp
        exact (h.guarded p hm).use .stop
      · refine .stopping (s := ⟨.approvalSweeper, false, [.dispatcher, .worker, .publisher]⟩) rfl ?_ ?_ ?_ ?_ he
        · simp [ExecutionRuntime.stop, hst, await, enter, hn]
        · simp [hcl']
        · simp [ExecutionRuntime.stop, hst, await, enter, hr]
        · simp [Past]
    all_goals exact absurd ‹_› hs

-- What is known of a pool that has been ended
theorem Inv.begun (h : m.Inv) (hr : m.runtime.resolved = some n) : m.runtime.begun = n :=
  h.runtime.resolved n hr

theorem Inv.killed (h : m.Inv) : { m with course := .killed }.Inv where
  runtime := h.runtime
  guarded := h.guarded
  closed  := h.closed
  due     := by
    have hd := h.due
    generalize m.course = c at hd
    cases hd
    case running hcl _ he   => exact .killed (by simp [hcl]) (by simp [he]) (by simp [he])
    case stopping hcl _ _ he =>
      refine .killed ?_ (by simp [he]) (by simp [he])
      show m.runtime.closings.length ≤ 1
      rw [hcl]
      split <;> decide
    case stopped hcl _ _ _ he => exact .killed (Nat.le_of_eq hcl) (by simp [he]) (by simp [he])
    case ending hcl hr he   => exact .killed (Nat.le_of_eq hcl) (by simp [he]) (by simp [he, h.begun hr, hcl])
    case exited hcl hr he   => exact .killed (Nat.le_of_eq hcl) (by simp [he]) (by simp [he, h.begun hr, hcl])
    case failed hcl he      => exact .killed hcl (by simp [he]) (by simp [he])
    case killed hcl hl he   => exact .killed hcl hl he

theorem Inv.step (h : m.Inv) (e : Step m m') : m'.Inv := by
  cases e
  case signal ha hm => exact h.signal ha _
  case unheard      => exact h.killed
  case run ha e     => exact h.observe ha e
  case endPool hc   =>
    have hd := hc ▸ h.due
    cases hd
    case stopped hs hn hcl hr hq hw he =>
      refine ⟨h.runtime, h.guarded, h.closed, .ending hs hn hcl hr ?_⟩
      simp [he, Main.ending, hq.right, hw.sweeps, h.begun hr]
  case ended hc     =>
    have hd := hc ▸ h.due
    cases hd
    case ending hs hn hcl hr he => exact ⟨h.runtime, h.guarded, h.closed, .exited hcl hr he⟩
  case rejected hc  =>
    have hd := hc ▸ h.due
    cases hd
    case ending hs hn hcl hr he => exact ⟨h.runtime, h.guarded, h.closed, .exited hcl hr he⟩

theorem Inv.steps (h : m.Inv) (e : Steps m m') : m'.Inv := by
  induction e
  case refl      => exact h
  case tail e ih => exact ih.step e

theorem alive_of_stopping (hc : m.course = .stopping) : m.Alive :=
  ⟨by simp [hc], by simp [hc]⟩

-- What the runtime does while `stop` is awaited.
theorem Steps.run (hc : m.course = .stopping) (hn : r.stops ≠ [])
    (e : ExecutionRuntime.Step options (fun _ _ => False) m.runtime r) : Steps m { m with runtime := r } := by
  have he : m.observe r = { m with runtime := r } := by simp [Main.observe, hn]
  exact .single <| he ▸ .run (alive_of_stopping hc) e

theorem Steps.publishes {p : Poller Int} (hc : m.course = .stopping) (hn : m.runtime.stops ≠ [])
    (e : Relation.ReflTransGen (Turn options.dispatcher.next) m.runtime.dispatcher p) :
    Steps m { m with runtime := { m.runtime with dispatcher := p } } := by
  induction e
  case refl          => exact .refl
  case tail p p' _ e ih =>
    exact ih.trans <| Steps.run (m := { m with runtime := { m.runtime with dispatcher := p } }) hc hn <| .publish e

theorem Steps.sweeps {p p' : Poller Unit} (hc : m.course = .stopping) (hn : m.runtime.stops ≠ [])
    (hp : m.runtime.approvalSweeper = some p) (e : Relation.ReflTransGen (Turn options.approvalSweeper.next) p p') :
    Steps m { m with runtime := { m.runtime with approvalSweeper := some p' } } := by
  induction e
  case refl => exact hp ▸ .refl
  case tail p₁ p₂ _ e ih =>
    refine ih.trans ?_
    exact Steps.run (m := { m with runtime := { m.runtime with approvalSweeper := some p₁ } }) hc hn <| .sweep rfl e

-- What `stop` waits for can come to an end.
theorem Inv.exists_resolves (h : m.Inv) (hc : m.course = .stopping) (hn : m.runtime.stops ≠ []) (stage : Stage) :
    ∃ r, Steps m { m with runtime := r } ∧ r.stops = m.runtime.stops ∧ r.Resolves stage := by
  cases stage
  case worker          => exact ⟨m.runtime, .refl, rfl, trivial⟩
  case publisher       => exact ⟨m.runtime, .refl, rfl, trivial⟩
  case dispatcher      =>
    obtain ⟨p, e, hb⟩ := @Guarded.exists_idle _ options.dispatcher.next _ h.runtime.guarded
    exact ⟨_, .publishes hc hn e, rfl, hb⟩
  case approvalSweeper =>
    cases hp : m.runtime.approvalSweeper
    case none   => exact ⟨m.runtime, .refl, rfl, by simp [Resolves, hp]⟩
    case some p =>
      obtain ⟨p', e, hb⟩ := @Guarded.exists_idle _ options.approvalSweeper.next _ (h.guarded p hp)
      exact ⟨_, .sweeps hc hn hp e, rfl, by simpa [Resolves] using hb⟩

theorem Inv.exists_done {stage : Stage} {done : Bool} {rest : List Stage} (h : m.Inv) (hc : m.course = .stopping)
    (hs : m.runtime.stops = [⟨stage, done, rest⟩]) :
    ∃ r, Steps m { m with runtime := r } ∧ r.stops = [⟨stage, true, rest⟩] := by
  cases done
  case true  => exact ⟨m.runtime, .refl, hs⟩
  case false =>
    obtain ⟨r, hr, hs', hres⟩ := h.exists_resolves hc (by simp [hs]) stage
    have e : ExecutionRuntime.Step options (fun _ _ => False) r { r with stops := [] ++ ⟨stage, true, rest⟩ :: [] } :=
      .resolve (hs'.trans hs) hres
    exact ⟨_, hr.trans <| Steps.run (m := { m with runtime := r }) hc (by simp) e, rfl⟩

-- So can `stop` itself.
theorem Inv.exists_stopped {stage : Stage} {done : Bool} {rest : List Stage} (h : m.Inv) (hc : m.course = .stopping)
    (hs : m.runtime.stops = [⟨stage, done, rest⟩]) : ∃ m', Steps m m' ∧ m'.course = .stopped := by
  induction rest generalizing m stage done
  case nil =>
    obtain ⟨r, hr, hs'⟩ := h.exists_done hc hs
    have e : ExecutionRuntime.Step options (fun _ _ => False) r
        { r with stops := [] ++ [], resolved := some <| r.resolved.getD r.begun } := .finish hs'
    refine ⟨_, hr.tail <| .run (alive_of_stopping hc) e, ?_⟩
    simp [Main.observe, hc]
  case cons next rest ih =>
    obtain ⟨r, hr, hs'⟩ := h.exists_done hc hs
    have e : ExecutionRuntime.Step options (fun _ _ => False) r (await { r with stops := [] ++ [] } next rest) :=
      .proceed hs'
    have hn : (await { r with stops := [] ++ [] } next rest).stops = [⟨next, false, rest⟩] := by
      cases next <;> rfl
    have hr' := hr.trans <| Steps.run (m := { m with runtime := r }) hc (hn ▸ List.cons_ne_nil _ _) e
    obtain ⟨m', hm, hc'⟩ := ih (h.steps hr') hc hn
    exact ⟨m', hr'.trans hm, hc'⟩

theorem exists_exited (hc : m.course = .stopped) : ∃ m', Steps m m' ∧ m'.course = .exited 0 :=
  ⟨_, .head (.endPool hc) <| .single <| .ended rfl, rfl⟩

theorem Inv.exists_exited (h : m.Inv) (ha : m.Alive) : ∃ m', Steps m m' ∧ m'.course = .exited 0 := by
  have stop {m : Main} (h : m.Inv) (hc : m.course = .stopping) : ∃ m', Steps m m' ∧ m'.course = .exited 0 := by
    have hd := hc ▸ h.due
    cases hd
    case stopping _ hs _ _ _ _ =>
      obtain ⟨m₁, h₁, hc₁⟩ := h.exists_stopped hc hs
      obtain ⟨m₂, h₂, hc₂⟩ := Main.exists_exited hc₁
      exact ⟨m₂, h₁.trans h₂, hc₂⟩
  have hd := h.due
  cases hc : m.course <;> rw [hc] at hd
  case exited code => exact absurd hc <| ha.right code
  case killed      => exact absurd hc ha.left
  case stopping    => exact stop h hc
  case stopped     => exact Main.exists_exited hc
  case ending      => exact ⟨_, .single <| .ended hc, rfl⟩
  case running     =>
    cases hd
    case running hs hl _ _ _ _ _ =>
      have e : Step m { m.shutdown with listeners := m.listeners.erase .sigterm } := .signal ha (by simp [hl])
      have hc' : { m.shutdown with listeners := m.listeners.erase .sigterm }.course = .stopping := by
        simp [shutdown, hs]
      obtain ⟨m', hm, hc⟩ := stop (h.step e) hc'
      exact ⟨m', .head e hm, hc⟩

-- The queue and the pool are closed once at most, the queue comes first, nothing uses them then, and nothing begins
-- to use them later.
structure Graceful (m : Main) : Prop where
  closings : m.runtime.closings.length ≤ 1 ∧ ∀ c ∈ m.runtime.closings, c = ⟨false, 0, 0, m.runtime.begun⟩
  endings  : m.endings.length ≤ 1 ∧
             ∀ e ∈ m.endings, e = ⟨0, 0, m.runtime.begun⟩ ∧ m.runtime.closings.length = 1
  exited   : m.course = .exited 0 → m.endings.length = 1

theorem Inv.graceful (h : m.Inv) : m.Graceful := by
  have hd := h.due
  refine ⟨⟨?closings, h.closed.closings⟩, ?endings, ?exited⟩
  case closings =>
    generalize m.course = c at hd
    cases hd
    case running hcl _ _     => simp [hcl]
    case stopping hcl _ _ _  => split at hcl <;> omega
    case stopped hcl _ _ _ _ => exact Nat.le_of_eq hcl
    case ending hcl _ _      => exact Nat.le_of_eq hcl
    case exited hcl _ _      => exact Nat.le_of_eq hcl
    case failed hcl _        => exact hcl
    case killed hcl _ _      => exact hcl
  case endings =>
    generalize m.course = c at hd
    cases hd
    case running he        => simp [he]
    case stopping he       => simp [he]
    case stopped he        => simp [he]
    case ending hcl hr he  => simp [he, h.begun hr, hcl]
    case exited hcl hr he  => simp [he, h.begun hr, hcl]
    case failed he         => simp [he]
    case killed hl he      => exact ⟨hl, he⟩
  case exited =>
    intro hc
    rw [hc] at hd
    cases hd
    case exited he => simp [he]

-- Signals only ever lead to one call of `stop`, so the process does not run into what overlapping ones do.
theorem signals_end_gracefully {m : Main} (h : Steps Main.started m) :
    m.Graceful ∧ (m.Alive → ∃ m', Steps m m' ∧ m'.course = .exited 0) :=
  have hi := Inv.started.steps h
  ⟨hi.graceful, hi.exists_exited⟩

-- Both signals come during the first publish.
theorem signals_end_gracefully_publishing :
    ∃ m : Main, m.Graceful ∧ m.course = .stopping ∧ m.listeners = [] ∧ m.runtime.dispatcher.inFlight = 1 ∧
      ∃ m', Steps m m' ∧ m'.course = .exited 0 := by
  have alive {m : Main} (h : m.course = .running ∨ m.course = .stopping) : m.Alive := by
    obtain h | h := h <;> simp [Alive, h]
  have h : Steps Main.started _ :=
    .head (.run (alive <| .inl rfl) <| .publish <| .fire (List.nil_append _).symm) <|
    .head (.signal (s := .sigterm) (alive <| .inl rfl) (by decide)) <|
    .single <| .signal (s := .sigint) (alive <| .inr rfl) (by decide)
  have ⟨hg, he⟩ := signals_end_gracefully h
  exact ⟨_, hg, rfl, rfl, rfl, he <| alive <| .inr rfl⟩

end Main
end Logon
