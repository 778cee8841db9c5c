import Logon.Library.Atomicity

-- Which transactions wait for which locks of which others, and why none of them wait for each other if
-- they take their locks in an order.

namespace Engine

variable {S : Signature} {σ ρ ω ε α β : Type}

-- The locks that some executed statements have taken.
def locked (E : Engine S σ ρ ω ε) (tr : List (Entry S)) : List ρ :=
  tr.flatMap fun e => E.locks e.fst e.snd

section
variable (E : Engine S σ ρ ω ε) (answer : (o : S.Op) → σ → S.Reply o → Prop)
  (rule : (o : S.Op) → S.Reply o → σ → (ρ → Prop) → Prop)

-- A program all of whose statements obey a rule about the database and the locks that they find. The
-- postcondition `Q` is about the result, the database and the locks at the end.
def Obeys : Program S ε α → σ → (ρ → Prop) → (Except ε α → σ → (ρ → Prop) → Prop) → Prop
  | .pure a,  s, H, Q => Q (.ok a) s H
  | .throw e, s, H, Q => Q (.error e) s H
  | .op o k,  s, H, Q => ∀ r, answer o s r →
                         rule o r s H ∧ Obeys (k r) (E.effect o r s) (fun x => H x ∨ x ∈ E.locks o r) Q

end

variable {E : Engine S σ ρ ω ε} {answer : (o : S.Op) → σ → S.Reply o → Prop}
  {rule : (o : S.Op) → S.Reply o → σ → (ρ → Prop) → Prop}

@[simp]
theorem locked_cons (e : Entry S) (tr : List (Entry S)) : E.locked (e :: tr) = E.locks e.fst e.snd ++ E.locked tr :=
  List.flatMap_cons

@[simp]
theorem locked_concat (tr : List (Entry S)) (e : Entry S) :
    E.locked (tr ++ [e]) = E.locked tr ++ E.locks e.fst e.snd := by
  simp [locked]

theorem Obeys.mono {p : Program S ε α} {H : ρ → Prop} {Q Q' : Except ε α → σ → (ρ → Prop) → Prop}
    (hq : ∀ res s K, Q res s K → Q' res s K) (h : E.Obeys answer rule p s H Q) : E.Obeys answer rule p s H Q' := by
  induction p generalizing s H
  case pure  => exact hq _ _ _ h
  case throw => exact hq _ _ _ h
  case op ih => exact fun r ha => (h r ha).imp_right (ih r)

theorem Obeys.bind {p : Program S ε α} {f : α → Program S ε β} {H : ρ → Prop}
    {Q : Except ε β → σ → (ρ → Prop) → Prop}
    (h : E.Obeys answer rule p s H fun
      | .ok a, s, K    => E.Obeys answer rule (f a) s K Q
      | .error e, s, K => Q (.error e) s K) :
    E.Obeys answer rule (p.bind f) s H Q := by
  induction p generalizing s H
  case pure  => exact h
  case throw => exact h
  case op ih => exact fun r ha => (h r ha).imp_right (ih r)

theorem Obeys.tryCatch {p : Program S ε α} {f : ε → Program S ε α} {H : ρ → Prop}
    {Q : Except ε α → σ → (ρ → Prop) → Prop}
    (h : E.Obeys answer rule p s H fun
      | .ok a, s, K    => Q (.ok a) s K
      | .error e, s, K => E.Obeys answer rule (f e) s K Q) :
    E.Obeys answer rule (p.tryCatch f) s H Q := by
  induction p generalizing s H
  case pure  => exact h
  case throw => exact h
  case op ih => exact fun r ha => (h r ha).imp_right (ih r)

-- What has been executed has obeyed the rule, and what is left still does.
theorem Obeys.steps {p q : Program S ε α} {H : ρ → Prop} {Q : Except ε α → σ → (ρ → Prop) → Prop}
    (h : E.Obeys answer rule p s H Q) (hs : Program.Steps answer E.effect p s tr q) :
    (∀ e ∈ tr, ∃ s' K, (∀ x, K x → H x ∨ x ∈ E.locked tr) ∧ rule e.fst e.snd s' K) ∧
    ∃ K, (∀ x, K x ↔ H x ∨ x ∈ E.locked tr) ∧ E.Obeys answer rule q (E.replay tr s) K Q := by
  induction hs generalizing H
  case nil => exact ⟨nofun, H, fun _ => by simp [locked], h⟩
  case cons ha _ ih =>
    have ⟨hr, hk⟩ := h _ ha
    have ⟨ht, K, hK, hq⟩ := ih hk
    simp only [locked_cons, List.mem_append, ← or_assoc]
    refine ⟨?_, K, hK, hq⟩
    intro e he
    cases he
    case head    => exact ⟨_, H, fun _ hx => .inl <| .inl hx, hr⟩
    case tail he => exact ht e he

end Engine

namespace System

variable {S : Signature} {σ ρ ω ε : Type} {Y : System S σ ρ ω ε}

namespace State

-- The locks that a transaction has taken. It is counted among those which have locked a row if it
-- has checked a foreign key there.
def Has (s : Y.State) (pid : Pid) (x : ρ) : Prop :=
  ∃ c, ∃ t : Y.Session c, ∃ k, s.procs pid = some (.inside c t k) ∧
    ∃ e ∈ t.trace, x ∈ Y.locks e.fst e.snd ++ Y.awaits e.fst

-- A transaction cannot go on, and may need a certain lock for that.
structure WaitsFor [DecidableEq ρ] (s : Y.State) (pid : Pid) (x : ρ) : Prop where
  blocked : ∀ amb, step (.stmt pid amb) s = none
  needs   : ∃ c o k' tr now k amb r, s.procs pid = some (.inside c ⟨.op o k', tr, now⟩ k) ∧
            Y.reply o now amb (Y.replay tr s.db) = .ok r ∧ x ∈ Y.locks o r ++ Y.awaits o

-- A statement can be executed if it finds the locks as it needs them.
theorem stmt_ne_none [DecidableEq ρ] {s : Y.State} {c : Y.Call} {k' : S.Reply o → Program S ε (Y.Result c)}
    {k : Except ε (Y.Result c) → Y.Code} (hp : s.procs pid = some (.inside c ⟨.op o k', tr, now⟩ k))
    (hr : Y.reply o now amb (Y.replay tr s.db) = .ok r) (hf : ∀ x ∈ Y.locks o r ++ Y.awaits o, s.Free pid x)
    (hs : ∀ x ∈ Y.skips o r, ¬s.Free pid x) : step (.stmt pid amb) s ≠ none := by
  simp only [step, hp, execute, hr]
  rw [if_pos ⟨hf, hs⟩]
  exact Option.some_ne_none _

-- The waits-for relation, as far as certain locks are concerned.
def Waits [DecidableEq ρ] (listed : ρ → Prop) (s : Y.State) (pid pid' : Pid) : Prop :=
  pid' ≠ pid ∧ ∃ x, listed x ∧ s.WaitsFor pid x ∧ s.Has pid' x

-- A lock is held by the transaction that has taken it, and by nobody if there is none.
def Owned (s : Y.State) : Prop :=
  ∀ pid x, s.Holds pid x ↔ ∃ c, ∃ t : Y.Session c, ∃ k, s.procs pid = some (.inside c t k) ∧ x ∈ Y.locked t.trace

theorem Owned.holds {s : Y.State} {c : Y.Call} {t : Y.Session c} {k : Except ε (Y.Result c) → Y.Code} (h : s.Owned)
    (hp : s.procs pid = some (.inside c t k)) : s.Holds pid x ↔ x ∈ Y.locked t.trace := by
  refine (h pid x).trans ⟨?_, fun hx => ⟨c, t, k, hp, hx⟩⟩
  rintro ⟨c', t', k', hp', hx⟩
  cases hp.symm.trans hp'
  exact hx

theorem Owned.not_holds {s : Y.State} (h : s.Owned) (hp : ∀ c t k, s.procs pid ≠ some (.inside c t k)) :
    ¬s.Holds pid x := by
  rw [h pid x]
  rintro ⟨c, t, k, hp', _⟩
  exact hp c t k hp'

theorem Owned.move {s s' : Y.State} (h : s.Owned) (p : Y.Process)
    (hp : s'.procs = Function.update s.procs pid (some p))
    (hh : ∀ pid' x, pid' ≠ pid → (s'.Holds pid' x ↔ s.Holds pid' x))
    (hs : ∀ x, s'.Holds pid x ↔ ∃ c, ∃ t : Y.Session c, ∃ k, p = .inside c t k ∧ x ∈ Y.locked t.trace) : s'.Owned := by
  intro pid' x
  by_cases he : pid' = pid
  case pos =>
    subst he
    simpa only [hp, Function.update_self, Option.some.injEq] using hs x
  case neg =>
    rw [hh pid' x he, h pid' x, hp, Function.update_of_ne he]

theorem Owned.outside {s s' : Y.State} (h : s.Owned) (code : Y.Code)
    (hp : s'.procs = Function.update s.procs pid (some (.outside code)))
    (hh : ∀ pid' x, pid' ≠ pid → (s'.Holds pid' x ↔ s.Holds pid' x)) (hs : ∀ x, ¬s'.Holds pid x) : s'.Owned :=
  h.move _ hp hh fun x => iff_of_false (hs x) fun ⟨_, _, _, he, _⟩ => nomatch he

theorem Owned.inside {s s' : Y.State} {c : Y.Call} (h : s.Owned) (t : Y.Session c) (k : Except ε (Y.Result c) → Y.Code)
    (hp : s'.procs = Function.update s.procs pid (some (.inside c t k)))
    (hh : ∀ pid' x, pid' ≠ pid → (s'.Holds pid' x ↔ s.Holds pid' x))
    (hs : ∀ x, s'.Holds pid x ↔ x ∈ Y.locked t.trace) : s'.Owned := by
  refine h.move _ hp hh fun x => (hs x).trans ⟨fun hx => ⟨c, t, k, rfl, hx⟩, ?_⟩
  rintro ⟨_, _, _, he, hx⟩
  cases he
  exact hx

theorem Owned.finish {s : Y.State} (h : s.Owned) (pid : Pid) (code : Y.Code) : (s.finish pid code).Owned := by
  refine h.outside code rfl (fun pid' x hn => ?_) fun x => ?_
  · simp only [Holds, State.finish]
    split
    case isTrue hx  => simp [hx, hn.symm]
    case isFalse hx => rfl
  · simp only [Holds, State.finish]
    split <;> simp_all

theorem Owned.execute [DecidableEq ρ] {s s' : Y.State} {c : Y.Call} {t : Y.Session c}
    {k : Except ε (Y.Result c) → Y.Code} (h : s.Owned) (hp : s.procs pid = some (.inside c t k))
    (hs : System.execute s pid amb c t k = some s') : s'.Owned := by
  unfold System.execute at hs
  split at hs
  case h_2 => cases hs
  case h_1 o k' _ =>
    split at hs
    case h_1 =>
      cases hs
      exact h.finish _ _
    case h_2 r hr =>
      split at hs <;> cases hs
      case isTrue hl =>
        refine h.inside _ k rfl (fun pid' x hn => ?_) fun x => ?_
        · simp only [Holds, State.acquire, State.setProc]
          split
          case isFalse => rfl
          case isTrue hm =>
            -- What is taken is free, and so not held by others.
            have := hl.left x (by simp [hm])
            simp only [Free] at this
            constructor
            · intro he
              cases he
              exact absurd rfl hn
            · intro hx
              simp [hx, hn] at this
        · simp only [Engine.locked_concat, List.mem_append, ← h.holds hp]
          simp only [Holds, State.acquire, State.setProc]
          split <;> simp_all

theorem Owned.step [DecidableEq ρ] {l : Y.Label} {s s' : Y.State} (h : s.Owned) (hs : System.step l s = some s') :
    s'.Owned := by
  cases l <;> simp only [System.step] at hs
  case spawn =>
    split at hs <;> cases hs
    case h_1 hp =>
      exact h.outside _ rfl (fun _ _ _ => .rfl) fun x => h.not_holds (by simp [hp])
  case tick =>
    split at hs <;> cases hs
    exact h
  case begin =>
    split at hs <;> cases hs
    case h_1 c k hp =>
      refine h.inside ⟨Y.body c, [], s.clock⟩ k rfl (fun _ _ _ => .rfl) fun x => ?_
      exact iff_of_false (h.not_holds (by simp [hp])) List.not_mem_nil
  case act =>
    split at hs <;> cases hs
    case h_1 hp =>
      exact h.outside _ rfl (fun _ _ _ => .rfl) fun x => h.not_holds (by simp [hp])
  case stmt =>
    split at hs
    case h_1 hp => exact h.execute hp hs
    case h_2    => cases hs
  case commit =>
    split at hs <;> cases hs
    exact h.finish _ _
  case rollback =>
    split at hs <;> cases hs
    exact h.finish _ _
  case abort =>
    split at hs
    case h_2 => cases hs
    case h_1 =>
      split at hs <;> cases hs
      exact h.finish _ _

theorem Owned.steps [DecidableEq ρ] {G : Y.Label → Y.State → Prop} {s s' : Y.State} (h : s.Owned) (hs : Steps G s s') :
    s'.Owned := by
  induction hs
  case refl      => exact h
  case tail e ih =>
    have ⟨_, _, e⟩ := e
    exact ih.step e

theorem Owned.initial (db : σ) (world : Y.World) (clock : Time) : (System.initial db world clock).Owned := by
  intro pid x
  simp [Holds, System.initial]

-- A transaction that cannot go on waits for another one, unless it would have to skip a lock that is free.
theorem Owned.waits [DecidableEq ρ] {s : Y.State} {c : Y.Call} {k' : S.Reply o → Program S ε (Y.Result c)}
    {k : Except ε (Y.Result c) → Y.Code} (h : s.Owned) (hb : ∀ amb, System.step (.stmt pid amb) s = none)
    (hp : s.procs pid = some (.inside c ⟨.op o k', tr, now⟩ k)) (amb : ω)
    (hs : ∀ r, Y.reply o now amb (Y.replay tr s.db) = .ok r → ∀ x ∈ Y.skips o r, ¬s.Free pid x) :
    ∃ pid', s.Waits (fun _ => True) pid pid' := by
  cases hr : Y.reply o now amb (Y.replay tr s.db)
  case error e =>
    have hb := hb amb
    simp [System.step, hp, System.execute, hr] at hb
  case ok r =>
    by_contra hn
    refine stmt_ne_none hp hr (fun x hx => ?_) (hs r hr) (hb amb)
    cases hx' : s.holder x
    case none => exact .inl hx'
    case some pid' =>
      by_cases he : pid' = pid
      case pos => exact .inr <| he ▸ hx'
      case neg =>
        obtain ⟨c', t', k'', hp', hl⟩ := (h pid' x).mp hx'
        obtain ⟨e, he', hl⟩ := List.mem_flatMap.mp hl
        refine absurd ⟨pid', he, x, trivial, ?_, c', t', k'', hp', e, he', List.mem_append_left _ hl⟩ hn
        exact ⟨hb, c, o, k', tr, now, k, amb, r, hp, hr, hx⟩

theorem Waits.waitsFor [DecidableEq ρ] {s : Y.State} {listed : ρ → Prop} (h : s.Waits listed pid pid') :
    ∃ x, s.WaitsFor pid x :=
  have ⟨_, x, _, hw, _⟩ := h
  ⟨x, hw⟩

-- If what a transaction waits for always ranks higher than what it has, as far as this can be held by a
-- transaction that waits itself, then transactions do not wait for each other.
theorem acyclic [DecidableEq ρ] {s : Y.State} {listed : ρ → Prop} (rank : ρ → Nat)
    (h : ∀ pid pid' x x', pid' ≠ pid → listed x → s.WaitsFor pid x → s.Has pid' x → s.WaitsFor pid' x' →
      ∀ y, listed y → s.Has pid y → rank y < rank x) (pid : Pid) :
    ¬Relation.TransGen (s.Waits listed) pid pid := by
  -- A path leads from a transaction to one that has something which ranks higher than all that the first has.
  have path {pid pid' x} (hp : Relation.TransGen (s.Waits listed) pid pid') (hw : s.WaitsFor pid' x) :
      ∃ x, listed x ∧ s.Has pid' x ∧ ∀ y, listed y → s.Has pid y → rank y < rank x := by
    induction hp generalizing x
    case single hs =>
      have ⟨hn, x', hl, hw', hx⟩ := hs
      exact ⟨x', hl, hx, h _ _ _ _ hn hl hw' hx hw⟩
    case tail hs ih =>
      have ⟨hn, x', hl, hw', hx⟩ := hs
      have ⟨x'', hl'', hx'', hr⟩ := ih hw'
      have hlt := h _ _ _ _ hn hl hw' hx hw x'' hl'' hx''
      exact ⟨x', hl, hx, fun y hy hy' => Nat.lt_trans (hr y hy hy') hlt⟩
  intro hc
  have ⟨_, hs, _⟩ := Relation.TransGen.head'_iff.mp hc
  have ⟨_, hw⟩ := Waits.waitsFor hs
  have ⟨x, hl, hx, hr⟩ := path hc hw
  exact Nat.lt_irrefl _ <| hr x hl hx

end State
end System
