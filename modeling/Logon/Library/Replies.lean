import Logon.Library.Program

-- Programs that only come to a result if they get replies of a kind.

namespace Program

variable {S : Signature} {ε α β : Type} {A : (o : S.Op) → S.Reply o → Prop}

-- Whatever the replies are, a program has no result of a kind.
abbrev Never (Q : Except ε α → Prop) (p : Program S ε α) : Prop :=
  p.Yields (fun _ _ => True) (¬Q ·)

-- After a reply that is not of a kind, a program has no result of another kind.
def Insists (A : (o : S.Op) → S.Reply o → Prop) (Q : Except ε α → Prop) : Program S ε α → Prop
  | pure _  => True
  | throw _ => True
  | op o k  => ∀ r, A o r ∧ (k r).Insists A Q ∨ (k r).Never Q

theorem Insists.of_uses {Q : Except ε α → Prop} {p : Program S ε α} (h : p.Uses fun o => ∀ r, A o r) :
    p.Insists A Q := by
  induction p
  case pure  => trivial
  case throw => trivial
  case op ih => exact fun r => .inl ⟨h.left r, ih r (h.right r)⟩

theorem Insists.of_never {Q : Except ε α → Prop} {p : Program S ε α} (h : p.Never Q) : p.Insists A Q := by
  cases p
  case pure  => trivial
  case throw => trivial
  case op    => exact fun r => .inr (h r trivial)

theorem Insists.bind {Q : Except ε β → Prop} {R : Except ε α → Prop} {p : Program S ε α} {f : α → Program S ε β}
    (h : p.Insists A R) (hf : ∀ a, (f a).Insists A Q) (ha : ∀ a, ¬R (.ok a) → (f a).Never Q)
    (he : ∀ e, ¬R (.error e) → ¬Q (.error e)) : (p.bind f).Insists A Q := by
  induction p
  case pure a  => exact hf a
  case throw   => trivial
  case op ih   =>
    intro r
    cases h r
    case inl h => exact .inl ⟨h.left, ih r h.right⟩
    case inr h => exact .inr <| Yields.bind h ha he

theorem Insists.tryCatch {Q R : Except ε α → Prop} {p : Program S ε α} {f : ε → Program S ε α} (h : p.Insists A R)
    (hf : ∀ e, (f e).Insists A Q) (ha : ∀ a, ¬R (.ok a) → ¬Q (.ok a)) (he : ∀ e, ¬R (.error e) → (f e).Never Q) :
    (p.tryCatch f).Insists A Q := by
  induction p
  case pure    => trivial
  case throw e => exact hf e
  case op ih   =>
    intro r
    cases h r
    case inl h => exact .inl ⟨h.left, ih r h.right⟩
    case inr h => exact .inr <| Yields.tryCatch h ha he

variable {σ : Type} {M M' : Semantics S σ ε} {s s' : σ}

theorem Yields.runs {Q : Except ε α → Prop} {p : Program S ε α} (h : p.Yields (fun _ _ => True) Q)
    (hr : p.Runs M s (.ok a) s') : Q (.ok a) := by
  induction p generalizing s
  case pure  => exact hr.left ▸ h
  case throw => cases hr.left
  case op ih =>
    have ⟨r, _, _, hr⟩ := runs_op_ok.mp hr
    exact ih r (h r trivial) hr

-- A program only throws what it is seen to throw, or what its operations fail with.
theorem Yields.throws {Q : Except ε α → Prop} {p : Program S ε α} (h : p.Yields (fun _ _ => True) Q)
    (hr : p.Runs M s (.error e) s') : Q (.error e) ∨ ∃ o s₁, M.fails o s₁ e := by
  induction p generalizing s
  case pure  => cases hr.left
  case throw =>
    cases hr.left
    exact .inl h
  case op ih =>
    obtain ⟨r, _, _, hr⟩ | ⟨_, hf, he, _⟩ := hr
    · exact ih r (h r trivial) hr
    · cases he
      exact .inr ⟨_, _, hf⟩

-- A run that comes to a result of the kind is a run of any semantics that allows the same replies of the other kind.
theorem Insists.runs {Q : Except ε α → Prop} {p : Program S ε α} (h : p.Insists A Q)
    (hs : ∀ o s r s', M.step o s r s' → A o r → M'.step o s r s') (hr : p.Runs M s (.ok a) s') (hq : Q (.ok a)) :
    p.Runs M' s (.ok a) s' := by
  induction p generalizing s
  case pure  => exact hr
  case throw => exact hr
  case op ih =>
    have ⟨r, s₁, hst, hr⟩ := runs_op_ok.mp hr
    cases h r
    case inl h => exact runs_op_ok.mpr ⟨r, s₁, hs _ _ _ _ hst h.left, ih r h.right hr⟩
    case inr h => exact absurd hq <| h.runs hr

end Program
