import Logon.Library.Program

-- Programs whose operations others may precede.

namespace Semantics

variable {S : Signature} {σ ε : Type}

-- The same operations, each of which others may precede. The states in which they run are recorded.
def amid (M : Semantics S σ ε) (others : σ → σ → Prop) : Semantics S (σ × List σ) ε where
  step o s r s' := ∃ s₁, others s.fst s₁ ∧ M.step o s₁ r s'.fst ∧ s'.snd = s.snd ++ [s₁]
  fails o s e   := M.fails o s.fst e

end Semantics

namespace Program

variable {S : Signature} {σ ε α : Type} {M : Semantics S σ ε} {others : σ → σ → Prop}

-- A program whose run among others is as if it took place at one point. The others do the same before and after it, so
-- the state in the end is the same. All that counts of the result is whether there is one.
def Linearizable (M : Semantics S σ ε) (others : σ → σ → Prop) (p : Program S ε α) (s : σ) (res : Except ε α) (s' : σ) :
    Prop :=
  ∃ s₁ res' s₂, others s s₁ ∧ p.Runs M s₁ res' s₂ ∧ others s₂ s' ∧ res'.isOk = res.isOk

variable {s s' : σ × List σ}

-- A program of one operation.
theorem Runs.of_amid {o : S.Op} {f : S.Reply o → Except ε α} {res : Except ε α} (hM : ∀ o s e, ¬M.fails o s e)
    (h : ((perform o).bind fun r => ofExcept (f r)).Runs (M.amid others) s res s') :
    ∃ s₁, others s.fst s₁ ∧ ((perform o).bind fun r => ofExcept (f r)).Runs M s₁ res s'.fst ∧
      s'.snd = s.snd ++ [s₁] := by
  obtain ⟨r, s₂, ⟨s₁, ho, hs, hl⟩, h⟩ | ⟨e, hf, _⟩ := h
  case inr => exact absurd hf <| hM _ _ _
  case inl =>
    have he : res = f r ∧ s' = s₂ := by
      have h : (ofExcept (f r) : Program S ε α).Runs (M.amid others) s₂ res s' := h
      cases hr : f r <;> rw [hr] at h <;> exact h
    obtain ⟨rfl, rfl⟩ := he
    refine ⟨s₁, ho, .inl ⟨r, s'.fst, hs, ?_⟩, hl⟩
    change (ofExcept (f r) : Program S ε α).Runs M s'.fst (f r) s'.fst
    cases f r <;> exact ⟨rfl, rfl⟩

theorem Runs.to_amid {o : S.Op} {f : S.Reply o → Except ε α} {res : Except ε α} {s₁ s₂ : σ} (hM : ∀ o s e, ¬M.fails o s e)
    (ho : others s.fst s₁) (h : ((perform o).bind fun r => ofExcept (f r)).Runs M s₁ res s₂) :
    ((perform o).bind fun r => ofExcept (f r)).Runs (M.amid others) s res (s₂, s.snd ++ [s₁]) := by
  obtain ⟨r, s₃, hs, h⟩ | ⟨e, hf, _⟩ := h
  case inr => exact absurd hf <| hM _ _ _
  case inl =>
    have he : res = f r ∧ s₂ = s₃ := by
      have h : (ofExcept (f r) : Program S ε α).Runs M s₃ res s₂ := h
      cases hr : f r <;> rw [hr] at h <;> exact h
    obtain ⟨rfl, rfl⟩ := he
    refine .inl ⟨r, (s₂, s.snd ++ [s₁]), ⟨s₁, ho, hs, rfl⟩, ?_⟩
    change (ofExcept (f r) : Program S ε α).Runs (M.amid others) (s₂, s.snd ++ [s₁]) (f r) (s₂, s.snd ++ [s₁])
    cases f r <;> exact ⟨rfl, rfl⟩

end Program
