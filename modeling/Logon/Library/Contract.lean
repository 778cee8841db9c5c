import Logon.Library.Atomicity

-- Reasoning about processes under interference: each process only performs operations that are
-- permitted by what it knows, its knowledge is not undone by the others, and in return all of them
-- preserve an invariant.

namespace System

variable {S : Signature} {σ ρ ω ε : Type} {Y : System S σ ρ ω ε}

structure Contract (R : Regime Y) where
  Inv      : Y.Global → Prop
  -- How the shared state can evolve. What a process knows has to be preserved by this.
  Le       : Y.Global → Y.Global → Prop
  Guard    : Pid → Y.outer.Op → Y.Global → Prop
  le_refl  : ∀ g, Le g g
  le_trans : ∀ {g₁ g₂ g₃}, Le g₁ g₂ → Le g₂ g₃ → Le g₁ g₃
  tick     : ∀ {g t}, g.clock ≤ t → Inv g → Inv { g with clock := t } ∧ Le g { g with clock := t }
  op       : ∀ {pid o g r g'}, Inv g → Guard pid o g → Do R pid o g r g' → Inv g' ∧ Le g g'

namespace Contract

variable {R : Regime Y} (K : Contract R)

-- A program that sticks to the contract from a given state on, however the others interfere.
def Safe (pid : Pid) : Program Y.outer ε α → Y.Global → (Except ε α → Y.Global → Prop) → Prop
  | .pure a,  g, Q => ∀ g', K.Le g g' → K.Inv g' → Q (.ok a) g'
  | .throw e, g, Q => ∀ g', K.Le g g' → K.Inv g' → Q (.error e) g'
  | .op o k,  g, Q => ∀ g', K.Le g g' → K.Inv g' →
    K.Guard pid o g' ∧ ∀ r g'', Do R pid o g' r g'' → Safe pid (k r) g'' Q

variable {K}

theorem Safe.le {p : Program Y.outer ε α} {Q : Except ε α → Y.Global → Prop}
    (h : K.Safe pid p g Q) (hl : K.Le g g') : K.Safe pid p g' Q := by
  cases p <;> exact fun g'' hl' => h g'' (K.le_trans hl hl')

theorem Safe.of_later {p : Program Y.outer ε α} {Q : Except ε α → Y.Global → Prop}
    (h : ∀ g', K.Le g g' → K.Inv g' → K.Safe pid p g' Q) : K.Safe pid p g Q := by
  cases p <;> exact fun g' hl hi => h g' hl hi g' (K.le_refl _) hi

theorem Safe.mono {p : Program Y.outer ε α} {Q Q' : Except ε α → Y.Global → Prop}
    (hq : ∀ res g, K.Inv g → Q res g → Q' res g) (h : K.Safe pid p g Q) : K.Safe pid p g Q' := by
  induction p generalizing g
  case pure  => exact fun g' hl hi => hq _ _ hi <| h g' hl hi
  case throw => exact fun g' hl hi => hq _ _ hi <| h g' hl hi
  case op ih => exact fun g' hl hi => ⟨(h g' hl hi).left, fun r g'' hd => ih r <| (h g' hl hi).right r g'' hd⟩

-- A program ends in a state that the contract leads to.
theorem Safe.grows {p : Program Y.outer ε α} {Q : Except ε α → Y.Global → Prop} (h : K.Safe pid p g Q) :
    K.Safe pid p g fun res g' => K.Le g g' ∧ Q res g' := by
  induction p generalizing g
  case pure  => exact fun g' hl hi => ⟨hl, h g' hl hi⟩
  case throw => exact fun g' hl hi => ⟨hl, h g' hl hi⟩
  case op ih =>
    intro g' hl hi
    have ⟨hg, hk⟩ := h g' hl hi
    refine ⟨hg, fun r g'' hd => ?_⟩
    have hl' := K.le_trans hl (K.op hi hg hd).right
    exact (ih r <| hk r g'' hd).mono fun _ _ _ ⟨hl'', hq⟩ => ⟨K.le_trans hl' hl'', hq⟩

theorem Safe.bind {p : Program Y.outer ε α} {f : α → Program Y.outer ε β}
    {Q : Except ε β → Y.Global → Prop}
    (h : K.Safe pid p g fun
      | .ok a, g    => K.Safe pid (f a) g Q
      | .error e, g => Q (.error e) g) :
    K.Safe pid (p.bind f) g Q := by
  induction p generalizing g
  case pure  => exact .of_later h
  case throw => exact h
  case op ih => exact fun g' hl hi => ⟨(h g' hl hi).left, fun r g'' hd => ih r <| (h g' hl hi).right r g'' hd⟩

theorem Safe.tryCatch {p : Program Y.outer ε α} {f : ε → Program Y.outer ε α}
    {Q : Except ε α → Y.Global → Prop}
    (h : K.Safe pid p g fun
      | .ok a, g    => Q (.ok a) g
      | .error e, g => K.Safe pid (f e) g Q) :
    K.Safe pid (p.tryCatch f) g Q := by
  induction p generalizing g
  case pure  => exact h
  case throw => exact .of_later h
  case op ih => exact fun g' hl hi => ⟨(h g' hl hi).left, fun r g'' hd => ih r <| (h g' hl hi).right r g'' hd⟩

theorem Safe.perform {o : Y.outer.Op} {Q : Except ε (Y.outer.Reply o) → Y.Global → Prop}
    (hg : ∀ g', K.Le g g' → K.Inv g' → K.Guard pid o g')
    (hq : ∀ g' r g'' g''', K.Le g g' → K.Inv g' → Do R pid o g' r g'' → K.Le g'' g''' → K.Inv g''' → Q (.ok r) g''') :
    K.Safe pid (.perform o) g Q :=
  fun g' hl hi => ⟨hg g' hl hi, fun r g'' hd g''' hl' hi' => hq g' r g'' g''' hl hi hd hl' hi'⟩

-- What only performs operations that are always permitted is safe.
theorem Safe.of_uses {A : Y.outer.Op → Prop} (hg : ∀ o g, A o → K.Inv g → K.Guard pid o g)
    {p : Program Y.outer ε α} (h : p.Uses A) : K.Safe pid p g fun _ _ => True := by
  induction p generalizing g
  case pure  => exact fun _ _ _ => trivial
  case throw => exact fun _ _ _ => trivial
  case op ih => exact fun g' _ hi => ⟨hg _ g' h.left hi, fun r g'' _ => ih r (h.right r)⟩

-- If every admitted process is safe, then in every reachable state the invariant holds, and what is
-- left of each process is still safe.
theorem sound {spawnable : Y.Code → Y.Global → Prop} {s s' : Y.Atomic}
    {Q : Pid → Except ε Y.Outcome → Y.Global → Prop} (h : Atomic.Steps R spawnable s s')
    (ha : ∀ pid code g, spawnable code g → K.Inv g → K.Safe pid code g (Q pid))
    (hi : K.Inv s.toGlobal) (hs : ∀ pid code, s.codes pid = some code → K.Safe pid code s.toGlobal (Q pid)) :
    K.Inv s'.toGlobal ∧ ∀ pid code, s'.codes pid = some code → K.Safe pid code s'.toGlobal (Q pid) := by
  induction h
  case refl => exact ⟨hi, hs⟩
  case tail e ih =>
    have ⟨hi, hs⟩ := ih
    cases e
    case spawn pid code _ had =>
      refine ⟨hi, fun pid' code' hc => ?_⟩
      simp only [Function.update_apply] at hc
      split at hc
      case isTrue he =>
        cases hc
        exact he ▸ ha _ _ _ had hi
      case isFalse => exact hs _ _ hc
    case tick t ht =>
      have ⟨hi', hl⟩ := K.tick ht hi
      exact ⟨hi', fun pid code hc => (hs pid code hc).le hl⟩
    case op pid o k r g hp hd =>
      have hsafe := hs _ _ hp _ (K.le_refl _) hi
      have ⟨hi', hl⟩ := K.op hi hsafe.left hd
      refine ⟨hi', fun pid' code' hc => ?_⟩
      simp only [Function.update_apply] at hc
      split at hc
      case isTrue he =>
        cases hc
        exact he ▸ hsafe.right r g hd
      case isFalse => exact (hs _ _ hc).le hl

end Contract
end System
