import Logon.Library.Atomicity

-- Runs of one program from two states, under the same circumstances.

-- Operations do one thing at most.
structure Semantics.Deterministic {S : Signature} {σ ε : Type} (M : Semantics S σ ε) : Prop where
  step  : ∀ {o s r s₁ r' s₂}, M.step o s r s₁ → M.step o s r' s₂ → r = r' ∧ s₁ = s₂
  fails : ∀ {o s e e'}, M.fails o s e → M.fails o s e' → e = e'
  not   : ∀ {o s r s₁ e}, M.step o s r s₁ → ¬M.fails o s e

namespace Program

variable {S : Signature} {σ ε α β : Type} {M : Semantics S σ ε}

theorem Runs.unique {p : Program S ε α} {res res' : Except ε α} (hM : M.Deterministic) (h : p.Runs M s res s₁)
    (h' : p.Runs M s res' s₂) : res = res' ∧ s₁ = s₂ := by
  induction p generalizing s
  case pure  => exact ⟨h.left.trans h'.left.symm, h.right.trans h'.right.symm⟩
  case throw => exact ⟨h.left.trans h'.left.symm, h.right.trans h'.right.symm⟩
  case op ih =>
    obtain ⟨r, t, hs, h⟩ | ⟨e, hf, rfl, rfl⟩ := h
    all_goals obtain ⟨r', t', hs', h'⟩ | ⟨e', hf', rfl, rfl⟩ := h'
    · obtain ⟨rfl, rfl⟩ := hM.step hs hs'
      exact ih r h h'
    · exact absurd hf' (hM.not hs)
    · exact absurd hf (hM.not hs')
    · exact ⟨congrArg Except.error (hM.fails hf hf'), rfl⟩

-- Whatever a program does in one state, it does in another one as well, up to a relation between the
-- states in which it ends.
def Coupled (M : Semantics S σ ε) (p : Program S ε α) (s₁ s₂ : σ) (Q : Except ε α → σ → σ → Prop) : Prop :=
  ∀ res s₁', p.Runs M s₁ res s₁' → ∃ s₂', p.Runs M s₂ res s₂' ∧ Q res s₁' s₂'

namespace Coupled

theorem pure {a : α} {Q : Except ε α → σ → σ → Prop} (h : Q (.ok a) s₁ s₂) :
    Coupled M (.pure a : Program S ε α) s₁ s₂ Q := by
  rintro _ _ ⟨rfl, rfl⟩
  exact ⟨s₂, ⟨rfl, rfl⟩, h⟩

theorem throw {e : ε} {Q : Except ε α → σ → σ → Prop} (h : Q (.error e) s₁ s₂) :
    Coupled M (.throw e : Program S ε α) s₁ s₂ Q := by
  rintro _ _ ⟨rfl, rfl⟩
  exact ⟨s₂, ⟨rfl, rfl⟩, h⟩

theorem op {o : S.Op} {k : S.Reply o → Program S ε α} {Q : Except ε α → σ → σ → Prop}
    (hs : ∀ r s₁', M.step o s₁ r s₁' → ∃ s₂', M.step o s₂ r s₂' ∧ Coupled M (k r) s₁' s₂' Q)
    (hf : ∀ e, M.fails o s₁ e → M.fails o s₂ e ∧ Q (.error e) s₁ s₂) : Coupled M (.op o k) s₁ s₂ Q := by
  rintro res s₁' (⟨r, t₁, h, hr⟩ | ⟨e, h, rfl, rfl⟩)
  case inl =>
    have ⟨t₂, h', hk⟩ := hs r t₁ h
    have ⟨s₂', hr', hq⟩ := hk res s₁' hr
    exact ⟨s₂', .inl ⟨r, t₂, h', hr'⟩, hq⟩
  case inr =>
    have ⟨h', hq⟩ := hf e h
    exact ⟨s₂, .inr ⟨e, h', rfl, rfl⟩, hq⟩

theorem bind {p : Program S ε α} {f : α → Program S ε β} {Q : Except ε β → σ → σ → Prop}
    (h : Coupled M p s₁ s₂ fun
      | .ok a, t₁, t₂    => Coupled M (f a) t₁ t₂ Q
      | .error e, t₁, t₂ => Q (.error e) t₁ t₂) :
    Coupled M (p.bind f) s₁ s₂ Q := by
  intro res s₁' hr
  obtain ⟨a, t₁, h₁, h₂⟩ | ⟨e, rfl, h₁⟩ := runs_bind hr
  case inl =>
    have ⟨t₂, h₁', h⟩ := h _ _ h₁
    have ⟨s₂', h₂', hq⟩ := h _ _ h₂
    exact ⟨s₂', h₁'.bind h₂', hq⟩
  case inr =>
    have ⟨s₂', h₁', hq⟩ := h _ _ h₁
    exact ⟨s₂', runs_bind_error.mpr <| .inl h₁', hq⟩

theorem mono {p : Program S ε α} {Q Q' : Except ε α → σ → σ → Prop} (hq : ∀ res s₁ s₂, Q res s₁ s₂ → Q' res s₁ s₂)
    (h : Coupled M p s₁ s₂ Q) : Coupled M p s₁ s₂ Q' := by
  intro res s₁' hr
  have ⟨s₂', hr', h⟩ := h res s₁' hr
  exact ⟨s₂', hr', hq _ _ _ h⟩

end Coupled
end Program

-- A transaction that runs alone, where a list tells the circumstances of its statements one by one.
def Engine.scripted {S : Signature} {σ ρ ω ε : Type} (E : Engine S σ ρ ω ε) (now : Time) :
    Semantics S (σ × List ω) ε where
  step o s r s' := ∃ amb, s.snd = amb :: s'.snd ∧ E.reply o now amb s.fst = .ok r ∧ E.skips o r = [] ∧
                   s'.fst = E.effect o r s.fst
  fails o s e   := ∃ amb ws, s.snd = amb :: ws ∧ E.reply o now amb s.fst = .error e

theorem Engine.scripted_deterministic {S : Signature} {σ ρ ω ε : Type} (E : Engine S σ ρ ω ε) (now : Time) :
    (E.scripted now).Deterministic where
  step := by
    rintro o s r s₁ r' s₂ ⟨amb, hw, hr, _, hs⟩ ⟨amb', hw', hr', _, hs'⟩
    obtain ⟨rfl, hw⟩ := List.cons.inj (hw.symm.trans hw')
    cases hr.symm.trans hr'
    exact ⟨rfl, Prod.ext (hs.trans hs'.symm) hw⟩
  fails := by
    rintro o s e e' ⟨amb, _, hw, he⟩ ⟨amb', _, hw', he'⟩
    obtain ⟨rfl, _⟩ := List.cons.inj (hw.symm.trans hw')
    exact Except.error.inj (he.symm.trans he')
  not := by
    rintro o s r s₁ e ⟨amb, hw, hr, _⟩ ⟨amb', _, hw', he⟩
    obtain ⟨rfl, _⟩ := List.cons.inj (hw.symm.trans hw')
    cases hr.symm.trans he
