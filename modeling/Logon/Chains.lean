import Logon.Runtime.Polling

-- A dispatcher or a sweeper polls in a single chain, unless it is restarted while a tick is in progress.

namespace Logon

-- Whether a call of `runOnce` has set its poller to be busy, and has not reset it yet.
def Phase.holds : Phase → Bool
  | .working    => true
  | .settled _  => true
  | .returned _ => false

namespace Poller

variable {β : Type} {next : β → TickOutcome → β × Int} {p p' : Poller β}

section Fields

@[simp]
theorem schedule_running (delayMs : Int) : (p.schedule delayMs).running = p.running := by
  unfold schedule
  split <;> rfl

@[simp]
theorem schedule_busy (delayMs : Int) : (p.schedule delayMs).busy = p.busy := by
  unfold schedule
  split <;> rfl

@[simp]
theorem schedule_calls (delayMs : Int) : (p.schedule delayMs).calls = p.calls := by
  unfold schedule
  split <;> rfl

@[simp]
theorem schedule_begun (delayMs : Int) : (p.schedule delayMs).begun = p.begun := by
  unfold schedule
  split <;> rfl

@[simp]
theorem start_busy : p.start.busy = p.busy := by
  unfold start
  split <;> simp

@[simp]
theorem start_calls : p.start.calls = p.calls := by
  unfold start
  split <;> simp

@[simp]
theorem halt_running : p.halt.running = false := by
  unfold halt
  split <;> rfl

@[simp]
theorem halt_busy : p.halt.busy = p.busy := by
  unfold halt
  split <;> rfl

@[simp]
theorem halt_calls : p.halt.calls = p.calls := by
  unfold halt
  split <;> rfl

@[simp]
theorem halt_begun : p.halt.begun = p.begun := by
  unfold halt
  split <;> rfl

@[simp]
theorem tock_running (outcome : TickOutcome) : (p.tock next outcome).running = p.running :=
  schedule_running _

@[simp]
theorem tock_busy (outcome : TickOutcome) : (p.tock next outcome).busy = p.busy :=
  schedule_busy _

@[simp]
theorem tock_calls (outcome : TickOutcome) : (p.tock next outcome).calls = p.calls :=
  schedule_calls _

@[simp]
theorem tock_begun (outcome : TickOutcome) : (p.tock next outcome).begun = p.begun :=
  schedule_begun _

end Fields

-- A poller is busy as long as one of its calls says so.
def Guarded (p : Poller β) : Prop :=
  p.calls.countP (·.phase.holds) = p.busy.toNat

theorem Guarded.runOnce (h : p.Guarded) (tick : Bool) : (p.runOnce tick).Guarded := by
  unfold Poller.runOnce
  split
  case isTrue  => simpa [Guarded, Phase.holds] using h
  case isFalse hb =>
    have hb : p.busy = false := by simpa using hb
    simp only [Guarded, hb, Bool.toNat_false] at h
    simp only [Guarded, List.countP_append, h]
    rfl

theorem Guarded.tick (h : p.Guarded) : p.tick.Guarded := by
  unfold Poller.tick
  dsimp only
  split
  case isTrue  => exact runOnce (p := { p with timer := none }) h true
  case isFalse => exact h

theorem Guarded.turn (h : p.Guarded) (e : Turn next p p') : p'.Guarded := by
  cases e
  case fire l₁ l₂ _ ha => exact tick (p := { p with armed := l₁ ++ l₂ }) h
  case settle hc       => simpa [Guarded, hc, Phase.holds, List.countP_cons] using h
  case leave hc        => simpa [Guarded, hc, Phase.holds, List.countP_cons] using h
  case resume hc       => simpa [Guarded, hc, Phase.holds, List.countP_cons] using h
  case finish hc       =>
    have hb : p.busy.toNat ≤ 1 := Bool.toNat_le _
    simp only [Guarded, hc, Phase.holds, List.countP_append, List.countP_cons, if_true] at h
    simp only [Guarded, Phase.holds, List.countP_append, List.countP_cons, Bool.toNat_false]
    grind

theorem Guarded.use (h : p.Guarded) : (u : Use) → (p.use u).Guarded
  | .start   => by simpa [Guarded, Poller.use] using h
  | .stop    => by simpa [Guarded, Poller.use] using h
  | .runOnce => h.runOnce false

theorem Guarded.inFlight_le (h : p.Guarded) : p.inFlight ≤ p.busy.toNat := by
  refine h ▸ List.countP_mono_left fun call _ hw => ?_
  simp only [decide_eq_true_eq] at hw
  simp [hw, Phase.holds]

-- What goes on in a poller that is not restarted while a tick is in progress.
structure Single (p : Poller β) : Prop where
  armed       : p.armed.map (·.handle) = p.timer.toList
  stopped     : p.running = false → p.armed = []
  outstanding : p.outstanding ≤ 1

-- A poller that is not running is only started if no tick is in progress.
def Prompt (p : Poller β) : Use → Prop
  | .start   => p.running ∨ ∀ call ∈ p.calls, ¬call.tick
  | .stop    => True
  | .runOnce => True

theorem Single.schedule (h : p.Single) (ho : p.outstanding = 0) (delayMs : Int) : (p.schedule delayMs).Single := by
  have ha : p.armed = [] := List.length_eq_zero_iff.mp <| Nat.eq_zero_of_add_eq_zero_right ho
  unfold Poller.schedule
  split
  case isFalse => exact h
  case isTrue hr =>
    constructor
    case armed       => simp [ha]
    case stopped     => simp [hr]
    case outstanding =>
      simp only [Poller.outstanding, ha] at ho ⊢
      grind

theorem Single.halt (h : p.Single) : p.halt.Single := by
  have ha : p.halt.armed = [] := by
    unfold Poller.halt
    split
    case h_1 ht => simpa [ht] using h.armed
    case h_2 handle ht =>
      have ha := h.armed
      simp only [ht, Option.toList_some] at ha
      have ⟨t, ha, he⟩ := List.map_eq_singleton_iff.mp ha
      simp [ha, he]
  have ht : p.halt.timer = none := by
    unfold Poller.halt
    split
    case h_1 ht => exact ht
    case h_2    => rfl
  constructor
  case armed       => simp [ha, ht]
  case stopped     => exact fun _ => ha
  case outstanding => simpa [Poller.outstanding, ha] using Nat.le_of_add_left_le h.outstanding

theorem Single.use (h : p.Single) (u : Use) (hu : p.Prompt u) : (p.use u).Single := by
  cases u
  case stop    => exact h.halt
  case runOnce =>
    simp only [Poller.use, Poller.runOnce]
    split
    case isTrue  => exact ⟨h.armed, h.stopped, by simpa [Poller.outstanding] using h.outstanding⟩
    case isFalse => exact ⟨h.armed, h.stopped, by simpa [Poller.outstanding] using h.outstanding⟩
  case start   =>
    simp only [Poller.use, start]
    split
    case isTrue  => exact h
    case isFalse hr =>
      have hr : p.running = false := by simpa using hr
      have ht : p.calls.countP (·.tick) = 0 := List.countP_eq_zero.mpr <| hu.resolve_left (by simp [hr])
      have ha := h.stopped hr
      refine schedule (p := { p with running := true }) ⟨h.armed, nofun, h.outstanding⟩ ?_ 0
      simp [Poller.outstanding, ht, ha]

theorem Single.turn (h : p.Single) (e : Turn next p p') : p'.Single := by
  have ho := h.outstanding
  cases e
  case fire l₁ l₂ timer ha =>
    have hr : p.running = true := by
      refine Bool.not_eq_false _ |>.mp fun hr => ?_
      simp [h.stopped hr] at ha
    simp only [Poller.outstanding, ha, List.length_append, List.length_cons] at ho
    have hl : l₁ ++ l₂ = [] := List.length_eq_zero_iff.mp (by rw [List.length_append]; omega)
    have ht : p.calls.countP (·.tick) = 0 := by omega
    simp only [Poller.tick, hl, hr, if_true, Poller.runOnce]
    split
    case isTrue  => exact ⟨rfl, fun _ => rfl, by simp [Poller.outstanding, ht]⟩
    case isFalse => exact ⟨rfl, fun _ => rfl, by simp [Poller.outstanding, ht]⟩
  case settle hc => exact ⟨h.armed, h.stopped, by simpa [Poller.outstanding, hc, List.countP_cons] using ho⟩
  case finish hc => exact ⟨h.armed, h.stopped, by simpa [Poller.outstanding, hc, List.countP_cons] using ho⟩
  case leave hc  => exact ⟨h.armed, h.stopped, by simpa [Poller.outstanding, hc, List.countP_cons] using ho⟩
  case resume l₁ l₂ outcome hc =>
    simp only [Poller.outstanding, hc, List.countP_append, List.countP_cons, if_true] at ho
    refine schedule (p := { p with calls := l₁ ++ l₂, backoff := _ }) ⟨h.armed, h.stopped, ?_⟩ ?_ _
    case refine_1 =>
      simp only [Poller.outstanding, List.countP_append]
      omega
    case refine_2 =>
      simp only [Poller.outstanding, List.countP_append]
      omega

-- What can happen next, if its users are as careful as required.
inductive Step (next : β → TickOutcome → β × Int) (Careful : Poller β → Use → Prop) (p : Poller β) :
    Poller β → Prop
  | use (u : Use) : Careful p u → Step next Careful p (p.use u)
  | turn {p' : Poller β} : Turn next p p' → Step next Careful p p'

abbrev Steps (next : β → TickOutcome → β × Int) (Careful : Poller β → Use → Prop) : Poller β → Poller β → Prop :=
  Relation.ReflTransGen (Step next Careful)

theorem Single.new (backoff : β) : (new backoff).Single where
  armed       := rfl
  stopped     := fun _ => rfl
  outstanding := Nat.zero_le _

theorem Guarded.new (backoff : β) : (new backoff).Guarded :=
  rfl

theorem Steps.guarded {Careful : Poller β → Use → Prop} (h : Steps next Careful p p') (hg : p.Guarded) : p'.Guarded := by
  induction h
  case refl => exact hg
  case tail e ih =>
    cases e
    case use u _  => exact ih.use u
    case turn e   => exact ih.turn e

theorem Steps.single (h : Steps next Prompt p p') (hs : p.Single) : p'.Single := by
  induction h
  case refl => exact hs
  case tail e ih =>
    cases e
    case use u hu => exact ih.use u hu
    case turn e   => exact ih.turn e

end Poller
end Logon
