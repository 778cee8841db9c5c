import Mathlib.Data.List.Basic

-- The operations a program may ask its surroundings to perform, each with the type of its reply.
structure Signature where
  Op : Type
  Reply : Op → Type

-- An imperative program that may throw: a tree of operations that branches over their replies.
--
-- Nothing is said here about what an operation does. That is left to a `Semantics`, so one program
-- can be run alone, under interleaving, or abstractly.
inductive Program (S : Signature) (ε α : Type)
  | pure (a : α)
  | throw (e : ε)
  | op (o : S.Op) (k : S.Reply o → Program S ε α)

namespace Program

variable {S : Signature} {ε α β γ : Type}

def bind : Program S ε α → (α → Program S ε β) → Program S ε β
  | pure a,  f => f a
  | throw e, _ => throw e
  | op o k,  f => op o fun r => (k r).bind f

-- JavaScript's `try`/`catch`.
def tryCatch : Program S ε α → (ε → Program S ε α) → Program S ε α
  | pure a,  _ => pure a
  | throw e, h => h e
  | op o k,  h => op o fun r => (k r).tryCatch h

instance : Monad (Program S ε) where
  pure := pure
  bind := bind

instance : MonadExcept ε (Program S ε) where
  throw    := throw
  tryCatch := tryCatch

def perform (o : S.Op) : Program S ε (S.Reply o) :=
  op o pure

-- Unwraps a reply which reports a failure by throwing that failure.
def ofExcept : Except ε α → Program S ε α
  | .ok a    => pure a
  | .error e => throw e

-- The results of a program for the items of a list, as far as there are any.
def collect (f : α → Program S ε (Option β)) : List α → Program S ε (List β)
  | []      => pure []
  | a :: as => (f a).bind fun b => (collect f as).bind fun bs => pure (b.toList ++ bs)

@[simp]
theorem pure_def (a : α) : (Pure.pure a : Program S ε α) = pure a :=
  rfl

@[simp]
theorem throw_def (e : ε) : (MonadExcept.throw e : Program S ε α) = throw e :=
  rfl

@[simp]
theorem bind_def (p : Program S ε α) (f : α → Program S ε β) : p >>= f = p.bind f :=
  rfl

@[simp]
theorem pure_bind (a : α) (f : α → Program S ε β) : (pure a).bind f = f a :=
  rfl

@[simp]
theorem throw_bind (e : ε) (f : α → Program S ε β) : (throw e).bind f = throw e :=
  rfl

@[simp]
theorem op_bind (o : S.Op) (k : S.Reply o → Program S ε α) (f : α → Program S ε β) :
    (op o k).bind f = op o fun r => (k r).bind f :=
  rfl

@[simp]
theorem bind_assoc (p : Program S ε α) (f : α → Program S ε β) (g : β → Program S ε γ) :
    (p.bind f).bind g = p.bind fun a => (f a).bind g := by
  induction p
  case pure     => rfl
  case throw    => rfl
  case op ih => simp [ih]

@[simp]
theorem ofExcept_ok (a : α) : (ofExcept (.ok a) : Program S ε α) = pure a :=
  rfl

@[simp]
theorem ofExcept_error (e : ε) : (ofExcept (.error e) : Program S ε α) = throw e :=
  rfl

-- JavaScript's `try`/`finally`.
def tryFinally (p : Program S ε α) (q : Program S ε Unit) : Program S ε α :=
  ((p.bind fun a => pure (.ok a)).tryCatch fun e => pure (.error e)).bind fun res => q.bind fun _ => ofExcept res

theorem op_congr {o : S.Op} {k k' : S.Reply o → Program S ε α} (h : ∀ r, k r = k' r) : op o k = op o k' :=
  congrArg (op o) (funext h)

-- The result of a program whose operations are answered once and for all.
def eval (answer : (o : S.Op) → S.Reply o) : Program S ε α → Except ε α
  | pure a  => .ok a
  | throw e => .error e
  | op o k  => (k (answer o)).eval answer

section
variable {answer answer' : (o : S.Op) → S.Reply o}

theorem eval_bind (p : Program S ε α) (f : α → Program S ε β) :
    (p.bind f).eval answer = (p.eval answer).bind fun a => (f a).eval answer := by
  induction p
  case pure  => rfl
  case throw => rfl
  case op ih => exact ih _

theorem eval_tryCatch (p : Program S ε α) (h : ε → Program S ε α) :
    (p.tryCatch h).eval answer = (p.eval answer).tryCatch fun e => (h e).eval answer := by
  induction p
  case pure  => rfl
  case throw => rfl
  case op ih => exact ih _

theorem eval_bind_congr {p : Program S ε α} {f : α → Program S ε β} (hp : p.eval answer = p.eval answer')
    (hf : ∀ a, p.eval answer = .ok a → (f a).eval answer = (f a).eval answer') :
    (p.bind f).eval answer = (p.bind f).eval answer' := by
  rw [eval_bind, eval_bind, ← hp]
  cases h : p.eval answer
  case error => rfl
  case ok a  => exact hf a h

@[simp]
theorem eval_ofExcept (res : Except ε α) : (ofExcept res : Program S ε α).eval answer = res := by
  cases res <;> rfl

theorem eval_ofExcept_congr {res : Except ε α} {f : α → Program S ε β}
    (hf : ∀ a, res = .ok a → (f a).eval answer = (f a).eval answer') :
    ((ofExcept res).bind f).eval answer = ((ofExcept res).bind f).eval answer' :=
  eval_bind_congr (by simp) fun a ha => hf a (by simpa using ha)

end

-- All operations that a program can ever perform are of a kind.
def Uses (A : S.Op → Prop) : Program S ε α → Prop
  | pure _  => True
  | throw _ => True
  | op o k  => A o ∧ ∀ r, (k r).Uses A

theorem Uses.bind {A : S.Op → Prop} {p : Program S ε α} {f : α → Program S ε β} (h : p.Uses A)
    (hf : ∀ a, (f a).Uses A) : (p.bind f).Uses A := by
  induction p
  case pure a => exact hf a
  case throw  => trivial
  case op ih  => exact ⟨h.left, fun r => ih r (h.right r)⟩

theorem Uses.tryCatch {A : S.Op → Prop} {p : Program S ε α} {f : ε → Program S ε α} (h : p.Uses A)
    (hf : ∀ e, (f e).Uses A) : (p.tryCatch f).Uses A := by
  induction p
  case pure    => trivial
  case throw e => exact hf e
  case op ih   => exact ⟨h.left, fun r => ih r (h.right r)⟩

theorem Uses.ofExcept {A : S.Op → Prop} (res : Except ε α) : (ofExcept res : Program S ε α).Uses A := by
  cases res <;> trivial

-- A program that never throws, and only performs operations of a kind.
def Returns (A : S.Op → Prop) : Program S ε α → Prop
  | pure _  => True
  | throw _ => False
  | op o k  => A o ∧ ∀ r, (k r).Returns A

theorem Returns.bind {A : S.Op → Prop} {p : Program S ε α} {f : α → Program S ε β} (h : p.Returns A)
    (hf : ∀ a, (f a).Returns A) : (p.bind f).Returns A := by
  induction p
  case pure a => exact hf a
  case throw  => exact h.elim
  case op ih  => exact ⟨h.left, fun r => ih r (h.right r)⟩

theorem Returns.collect {A : S.Op → Prop} {f : α → Program S ε (Option β)} (hf : ∀ a, (f a).Returns A) (as : List α) :
    (Program.collect f as).Returns A := by
  induction as
  case nil     => trivial
  case cons ih => exact (hf _).bind fun _ => ih.bind fun _ => trivial

-- Whatever the replies are, as far as they are to be expected, a program has a result of a kind.
def Yields (expected : (o : S.Op) → S.Reply o → Prop) (Q : Except ε α → Prop) : Program S ε α → Prop
  | pure a  => Q (.ok a)
  | throw e => Q (.error e)
  | op o k  => ∀ r, expected o r → (k r).Yields expected Q

section
variable {expected : (o : S.Op) → S.Reply o → Prop} {Q : Except ε α → Prop}

theorem Yields.of_forall {p : Program S ε α} (h : ∀ res, Q res) : p.Yields expected Q := by
  induction p
  case pure a  => exact h (.ok a)
  case throw e => exact h (.error e)
  case op ih   => exact fun r _ => ih r

theorem Yields.ofExcept {res : Except ε α} (h : Q res) : (ofExcept res : Program S ε α).Yields expected Q := by
  cases res <;> exact h

theorem Yields.bind {p : Program S ε α} {f : α → Program S ε β} {R : Except ε β → Prop} (h : p.Yields expected Q)
    (hf : ∀ a, Q (.ok a) → (f a).Yields expected R) (he : ∀ e, Q (.error e) → R (.error e)) :
    (p.bind f).Yields expected R := by
  induction p
  case pure a  => exact hf a h
  case throw e => exact he e h
  case op ih   => exact fun r hr => ih r (h r hr)

theorem Yields.tryCatch {p : Program S ε α} {f : ε → Program S ε α} {R : Except ε α → Prop} (h : p.Yields expected Q)
    (ha : ∀ a, Q (.ok a) → R (.ok a)) (hf : ∀ e, Q (.error e) → (f e).Yields expected R) :
    (p.tryCatch f).Yields expected R := by
  induction p
  case pure a  => exact ha a h
  case throw e => exact hf e h
  case op ih   => exact fun r hr => ih r (h r hr)

end

theorem op_ne_pure {o : S.Op} {k : S.Reply o → Program S ε α} (a : α) : op o k ≠ pure a := by
  intro h
  cases h

theorem throw_ne_pure {e : ε} (a : α) : (throw e : Program S ε α) ≠ pure a := by
  intro h
  cases h

end Program

-- What operations do to a state `σ`: which replies they can give with which next states, and how
-- they can fail. A failed operation ends the program, and leaves the state alone.
structure Semantics (S : Signature) (σ ε : Type) where
  step  : (o : S.Op) → σ → S.Reply o → σ → Prop
  fails : S.Op → σ → ε → Prop

-- The same operations, which are recorded when they are performed.
def Semantics.recorded {S : Signature} {σ ε : Type} (M : Semantics S σ ε) : Semantics S (σ × List S.Op) ε where
  step o s r s' := M.step o s.fst r s'.fst ∧ s'.snd = s.snd ++ [o]
  fails o s e   := M.fails o s.fst e

namespace Program

variable {S : Signature} {σ ε α β γ : Type}

-- The big-step meaning of a program that is run without interruption.
def Runs (M : Semantics S σ ε) : Program S ε α → σ → Except ε α → σ → Prop
  | pure a,  s, res, s' => res = .ok a ∧ s' = s
  | throw e, s, res, s' => res = .error e ∧ s' = s
  | op o k,  s, res, s' =>
    (∃ r s₁, M.step o s r s₁ ∧ (k r).Runs M s₁ res s') ∨ (∃ e, M.fails o s e ∧ res = .error e ∧ s' = s)

-- The results of some steps for the items of a list, as far as there are any.
inductive Collects (step : α → σ → Option β → σ → Prop) : List α → σ → List β → σ → Prop
  | nil  : Collects step [] s [] s
  | cons : step a s b s₁ → Collects step as s₁ bs s' → Collects step (a :: as) s (b.toList ++ bs) s'

variable {M : Semantics S σ ε} {s s' : σ}

@[simp]
theorem runs_pure (a : α) {res : Except ε α} :
    (pure a : Program S ε α).Runs M s res s' ↔ res = .ok a ∧ s' = s :=
  .rfl

@[simp]
theorem runs_throw (e : ε) {res : Except ε α} :
    (throw e : Program S ε α).Runs M s res s' ↔ res = .error e ∧ s' = s :=
  .rfl

theorem runs_ofExcept {res res' : Except ε α} : (ofExcept res' : Program S ε α).Runs M s res s' ↔ res = res' ∧ s' = s := by
  cases res' <;> exact .rfl

theorem Runs.op {o : S.Op} {r : S.Reply o} {k : S.Reply o → Program S ε α} {res : Except ε α} (h : M.step o s r s₁)
    (hk : (k r).Runs M s₁ res s') : (op o k).Runs M s res s' :=
  .inl ⟨r, s₁, h, hk⟩

theorem runs_op_ok {o : S.Op} {k : S.Reply o → Program S ε α} {a : α} :
    (op o k).Runs M s (.ok a) s' ↔ ∃ r s₁, M.step o s r s₁ ∧ (k r).Runs M s₁ (.ok a) s' := by
  simp [Runs]

theorem runs_perform_ok {o : S.Op} {a : S.Reply o} :
    (perform o : Program S ε _).Runs M s (.ok a) s' ↔ M.step o s a s' := by
  simp [perform, runs_op_ok]

theorem runs_bind_ok {p : Program S ε α} {f : α → Program S ε β} {b : β} :
    (p.bind f).Runs M s (.ok b) s' ↔ ∃ a s₁, p.Runs M s (.ok a) s₁ ∧ (f a).Runs M s₁ (.ok b) s' := by
  induction p generalizing s
  case pure a => simp
  case throw  => simp
  case op o k ih =>
    simp only [op_bind, runs_op_ok, ih]
    grind

theorem runs_bind_error {p : Program S ε α} {f : α → Program S ε β} {e : ε} :
    (p.bind f).Runs M s (.error e) s' ↔
    p.Runs M s (.error e) s' ∨ ∃ a s₁, p.Runs M s (.ok a) s₁ ∧ (f a).Runs M s₁ (.error e) s' := by
  induction p generalizing s
  case pure a => simp
  case throw  => simp
  case op o k ih =>
    simp only [op_bind, Runs, ih, Except.error.injEq, reduceCtorEq, false_and, and_false,
      exists_false, or_false]
    grind

theorem runs_tryCatch_ok {p : Program S ε α} {f : ε → Program S ε α}
    (h : (p.tryCatch f).Runs M s (.ok a) s') :
    p.Runs M s (.ok a) s' ∨ ∃ e s₁, p.Runs M s (.error e) s₁ ∧ (f e).Runs M s₁ (.ok a) s' := by
  induction p generalizing s
  case pure    => exact .inl h
  case throw e => exact .inr ⟨e, s, ⟨rfl, rfl⟩, h⟩
  case op o k ih =>
    have ⟨r, s₁, hs, hk⟩ := runs_op_ok.mp h
    cases ih r hk
    case inl hk => exact .inl <| .inl ⟨r, s₁, hs, hk⟩
    case inr hk =>
      have ⟨e, s₂, hk, hf⟩ := hk
      exact .inr ⟨e, s₂, .inl ⟨r, s₁, hs, hk⟩, hf⟩

theorem runs_tryCatch_error {p : Program S ε α} {f : ε → Program S ε α}
    (h : (p.tryCatch f).Runs M s (.error e) s') :
    (∃ e' s₁, p.Runs M s (.error e') s₁ ∧ (f e').Runs M s₁ (.error e) s') ∨ ∃ o s, M.fails o s e := by
  induction p generalizing s
  case pure     => cases h.left
  case throw e' => exact .inl ⟨e', s, ⟨rfl, rfl⟩, h⟩
  case op o k ih =>
    cases h
    case inl h =>
      have ⟨r, s₁, hs, hk⟩ := h
      cases ih r hk
      case inr hf => exact .inr hf
      case inl hk =>
        have ⟨e', s₂, hk, hf⟩ := hk
        exact .inl ⟨e', s₂, .inl ⟨r, s₁, hs, hk⟩, hf⟩
    case inr h =>
      have ⟨_, hf, he, _⟩ := h
      cases he
      exact .inr ⟨o, s, hf⟩

theorem runs_bind {p : Program S ε α} {f : α → Program S ε β} {res : Except ε β} (h : (p.bind f).Runs M s res s') :
    (∃ a s₁, p.Runs M s (.ok a) s₁ ∧ (f a).Runs M s₁ res s') ∨ ∃ e, res = .error e ∧ p.Runs M s (.error e) s' := by
  cases res
  case ok    => exact .inl <| runs_bind_ok.mp h
  case error =>
    cases runs_bind_error.mp h
    case inl h => exact .inr ⟨_, rfl, h⟩
    case inr h => exact .inl h

-- What becomes of a program whose errors are caught. The failure of an operation is no such error.
theorem Runs.tryCatch_cases {p : Program S ε α} {f : ε → Program S ε α} {res : Except ε α}
    (h : (p.tryCatch f).Runs M s res s') :
    (∃ a, res = .ok a ∧ p.Runs M s (.ok a) s') ∨
    (∃ e s₁, p.Runs M s (.error e) s₁ ∧ (f e).Runs M s₁ res s') ∨
    ∃ e, res = .error e ∧ p.Runs M s (.error e) s' ∧ ∃ o s₁, M.fails o s₁ e := by
  induction p generalizing s
  case pure a   => exact .inl ⟨a, h.left, rfl, h.right⟩
  case throw e  => exact .inr <| .inl ⟨e, s, ⟨rfl, rfl⟩, h⟩
  case op o k ih =>
    obtain ⟨r, s₁, hs, hk⟩ | ⟨e, hf, he, hs⟩ := h
    case inr => exact .inr <| .inr ⟨e, he, .inr ⟨e, hf, rfl, hs⟩, o, s, hf⟩
    case inl =>
      obtain ⟨a, ha, hk⟩ | ⟨e, s₂, hk, hf⟩ | ⟨e, he, hk, hf⟩ := ih r hk
      · exact .inl ⟨a, ha, .inl ⟨r, s₁, hs, hk⟩⟩
      · exact .inr <| .inl ⟨e, s₂, .inl ⟨r, s₁, hs, hk⟩, hf⟩
      · exact .inr <| .inr ⟨e, he, .inl ⟨r, s₁, hs, hk⟩, hf⟩

theorem Runs.tryCatch_ok {p : Program S ε α} {f : ε → Program S ε α} (h : p.Runs M s (.ok a) s') :
    (p.tryCatch f).Runs M s (.ok a) s' := by
  induction p generalizing s
  case pure  => exact h
  case throw => cases h.left
  case op ih =>
    have ⟨r, s₁, hs, hk⟩ := runs_op_ok.mp h
    exact .inl ⟨r, s₁, hs, ih r hk⟩

theorem Runs.tryCatch_error {p : Program S ε α} {f : ε → Program S ε α} {res : Except ε α}
    (hM : ∀ o s e, ¬M.fails o s e) (h : p.Runs M s (.error e) s₁) (hf : (f e).Runs M s₁ res s') :
    (p.tryCatch f).Runs M s res s' := by
  induction p generalizing s
  case pure  => cases h.left
  case throw =>
    obtain ⟨he, rfl⟩ := h
    cases he
    exact hf
  case op ih =>
    obtain ⟨r, s₂, hs, hk⟩ | ⟨_, hn, _⟩ := h
    · exact .inl ⟨r, s₂, hs, ih r hk⟩
    · exact absurd hn <| hM _ _ _

theorem Runs.tryCatch_returns {p : Program S ε α} {f : ε → Program S ε α} {res : Except ε α} {Q : α → σ → Prop}
    (h : (p.tryCatch f).Runs M s res s')
    (hp : ∀ {res s₁}, p.Runs M s res s₁ → ∃ a, res = .ok a ∧ Q a s₁) : ∃ a, res = .ok a ∧ Q a s' := by
  obtain ⟨a, rfl, ha⟩ | ⟨e, _, he, _⟩ | ⟨e, _, he, _⟩ := h.tryCatch_cases
  · exact hp ha
  · have ⟨_, hr, _⟩ := hp he
    cases hr
  · have ⟨_, hr, _⟩ := hp he
    cases hr

theorem Runs.tryCatch_throws {p : Program S ε α} {f : ε → Program S ε α} {res : Except ε α} {Q : ε → σ → Prop}
    (h : (p.tryCatch f).Runs M s res s')
    (hp : ∀ {res s₁}, p.Runs M s res s₁ → ∃ e, res = .error e ∧ Q e s₁) :
    (∃ e s₁, Q e s₁ ∧ (f e).Runs M s₁ res s') ∨ ∃ e, res = .error e ∧ Q e s' ∧ ∃ o s₁, M.fails o s₁ e := by
  obtain ⟨a, _, ha⟩ | ⟨e, s₁, he, hf⟩ | ⟨e, rfl, he, hf⟩ := h.tryCatch_cases
  · have ⟨_, hr, _⟩ := hp ha
    cases hr
  · have ⟨_, hr, hq⟩ := hp he
    cases hr
    exact .inl ⟨e, s₁, hq, hf⟩
  · have ⟨_, hr, hq⟩ := hp he
    cases hr
    exact .inr ⟨e, rfl, hq, hf⟩

theorem Returns.not_throws {A : S.Op → Prop} {p : Program S ε α} (h : p.Returns A)
    (hA : ∀ o s e, A o → ¬M.fails o s e) : ¬p.Runs M s (.error e) s' := by
  induction p generalizing s
  case pure  => exact fun hr => (by cases hr.left)
  case throw => exact h.elim
  case op ih =>
    rintro (⟨r, s₁, _, hr⟩ | ⟨e, hf, _⟩)
    · exact ih r (h.right r) hr
    · exact hA _ _ _ h.left hf

-- A program whose replies are all to be expected
theorem Yields.result {expected : (o : S.Op) → S.Reply o → Prop} {Q : Except ε α → Prop} {p : Program S ε α}
    {res : Except ε α} (h : p.Yields expected Q) (hs : ∀ o s r s', M.step o s r s' → expected o r)
    (hf : ∀ o s e, ¬M.fails o s e) (hr : p.Runs M s res s') : Q res := by
  induction p generalizing s
  case pure  => exact hr.left ▸ h
  case throw => exact hr.left ▸ h
  case op ih =>
    obtain ⟨r, s₁, hst, hr⟩ | ⟨_, hn, _⟩ := hr
    · exact ih r (h r <| hs _ _ _ _ hst) hr
    · exact absurd hn <| hf _ _ _

-- What has a next operation as long as it goes on comes to an end.
theorem exists_runs {Q : σ → Prop} (hM : ∀ o s, Q s → (∃ r s', M.step o s r s' ∧ Q s') ∨ ∃ e, M.fails o s e)
    (p : Program S ε α) (hs : Q s) : ∃ res s', p.Runs M s res s' := by
  induction p generalizing s
  case pure a    => exact ⟨.ok a, s, rfl, rfl⟩
  case throw e   => exact ⟨.error e, s, rfl, rfl⟩
  case op o k ih =>
    obtain ⟨r, s₁, hst, hs₁⟩ | ⟨e, hf⟩ := hM o s hs
    case inl =>
      have ⟨res, s', hr⟩ := ih r hs₁
      exact ⟨res, s', .inl ⟨r, s₁, hst, hr⟩⟩
    case inr => exact ⟨.error e, s, .inr ⟨e, hf, rfl, rfl⟩⟩

theorem Runs.bind {p : Program S ε α} {f : α → Program S ε β} {res : Except ε β}
    (h₁ : p.Runs M s (.ok a) s₁) (h₂ : (f a).Runs M s₁ res s') : (p.bind f).Runs M s res s' := by
  cases res
  case ok    => exact runs_bind_ok.mpr ⟨a, s₁, h₁, h₂⟩
  case error => exact runs_bind_error.mpr <| .inr ⟨a, s₁, h₁, h₂⟩

-- The part of a program that is followed by another one.
theorem Runs.after {p : Program S ε α} {f : α → Program S ε β} {res : Except ε β}
    {Q : α → σ → Prop} (h : (p.bind f).Runs M s res s')
    (hp : ∀ {res s₁}, p.Runs M s res s₁ → ∃ a, res = .ok a ∧ Q a s₁) :
    ∃ a s₁, Q a s₁ ∧ (f a).Runs M s₁ res s' := by
  obtain ⟨a, s₁, ha, hf⟩ | ⟨_, _, he⟩ := runs_bind h
  · have ⟨_, hr, hq⟩ := hp ha
    cases hr
    exact ⟨_, s₁, hq, hf⟩
  · have ⟨_, hr, _⟩ := hp he
    cases hr

-- The part of a program that ends it.
theorem Runs.fails {p : Program S ε α} {f : α → Program S ε β} {res : Except ε β} {Q : ε → σ → Prop}
    (h : (p.bind f).Runs M s res s') (hp : ∀ {res s₁}, p.Runs M s res s₁ → ∃ e, res = .error e ∧ Q e s₁) :
    ∃ e, res = .error e ∧ Q e s' := by
  obtain ⟨_, _, ha, _⟩ | ⟨_, rfl, he⟩ := runs_bind h
  · have ⟨_, hr, _⟩ := hp ha
    cases hr
  · have ⟨_, hr, hq⟩ := hp he
    cases hr
    exact ⟨_, rfl, hq⟩

-- A run is a run of any semantics that allows at least as much.
theorem Runs.mono {M' : Semantics S σ ε} {p : Program S ε α} {res : Except ε α}
    (hs : ∀ o s r s', M.step o s r s' → M'.step o s r s') (hf : ∀ o s e, M.fails o s e → M'.fails o s e)
    (h : p.Runs M s res s') : p.Runs M' s res s' := by
  induction p generalizing s
  case pure  => exact h
  case throw => exact h
  case op o k ih =>
    cases h
    case inl h =>
      have ⟨r, s₁, h₁, h₂⟩ := h
      exact .inl ⟨r, s₁, hs _ _ _ _ h₁, ih _ h₂⟩
    case inr h =>
      have ⟨e, h₁, h₂⟩ := h
      exact .inr ⟨e, hf _ _ _ h₁, h₂⟩

theorem runs_collect_ok {f : α → Program S ε (Option β)} {as : List α} {bs : List β}
    (h : (collect f as).Runs M s (.ok bs) s') :
    Collects (fun a s b s' => (f a).Runs M s (.ok b) s') as s bs s' := by
  induction as generalizing s bs
  case nil =>
    have ⟨hb, hs⟩ := h
    cases hb
    exact hs ▸ .nil
  case cons a as ih =>
    have ⟨b, s₁, hf, h⟩ := runs_bind_ok.mp h
    have ⟨bs, s₂, hc, hb, hs⟩ := runs_bind_ok.mp h
    cases hb
    cases hs
    exact .cons hf (ih hc)

theorem Collects.mono {step step' : α → σ → Option β → σ → Prop}
    (hs : ∀ a s b s', step a s b s' → step' a s b s') (h : Collects step as s bs s') :
    Collects step' as s bs s' := by
  induction h
  case nil            => exact .nil
  case cons hstep _ ih => exact .cons (hs _ _ _ _ hstep) ih

-- What every step preserves, all of them preserve.
theorem Collects.preserves {step : α → σ → Option β → σ → Prop} {Q : σ → Prop}
    (hs : ∀ a s b s', a ∈ as → step a s b s' → Q s → Q s') (h : Collects step as s bs s') (hq : Q s) : Q s' := by
  induction h
  case nil => exact hq
  case cons hstep _ ih =>
    exact ih (fun a s b s' ha => hs a s b s' (by simp [ha])) (hs _ _ _ _ (by simp) hstep hq)

theorem Collects.unchanged {step : α → σ → Option β → σ → Prop} (f : σ → γ)
    (hs : ∀ a s b s', step a s b s' → f s' = f s) (h : Collects step as s bs s') : f s' = f s := by
  induction h
  case nil             => rfl
  case cons hstep _ ih => rw [ih, hs _ _ _ _ hstep]

-- What every operation that a program can perform preserves, a run of it preserves.
theorem Runs.keeps {A : S.Op → Prop} {P : σ → Prop} {p : Program S ε α} {res : Except ε α} (hu : p.Uses A)
    (hs : ∀ o s r s', A o → M.step o s r s' → P s → P s') (h : p.Runs M s res s') (hp : P s) : P s' := by
  induction p generalizing s
  case pure  => exact h.right ▸ hp
  case throw => exact h.right ▸ hp
  case op o k ih =>
    cases h
    case inl h =>
      have ⟨r, s₁, h₁, h₂⟩ := h
      exact ih _ (hu.right r) h₂ <| hs _ _ _ _ hu.left h₁ hp
    case inr h =>
      have ⟨_, _, _, h⟩ := h
      exact h ▸ hp

theorem uses_any (p : Program S ε α) : p.Uses fun _ => True := by
  induction p
  case pure  => trivial
  case throw => trivial
  case op ih => exact ⟨trivial, ih⟩

-- What every operation preserves, a whole run preserves.
theorem Runs.preserves {P : σ → Prop} {p : Program S ε α} {res : Except ε α}
    (hs : ∀ o s r s', M.step o s r s' → P s → P s') (h : p.Runs M s res s') (hp : P s) : P s' :=
  h.keeps p.uses_any (fun _ _ _ _ _ => hs _ _ _ _) hp

section Recorded

variable {s s' : σ × List S.Op} {p : Program S ε α} {res : Except ε α}

theorem Runs.of_recorded (h : p.Runs M.recorded s res s') : p.Runs M s.fst res s'.fst := by
  induction p generalizing s
  case pure  => exact ⟨h.left, congrArg Prod.fst h.right⟩
  case throw => exact ⟨h.left, congrArg Prod.fst h.right⟩
  case op ih =>
    cases h
    case inl h =>
      have ⟨r, s₁, h₁, h₂⟩ := h
      exact .inl ⟨r, s₁.fst, h₁.left, ih r h₂⟩
    case inr h =>
      have ⟨e, h₁, hr, hs⟩ := h
      exact .inr ⟨e, h₁, hr, congrArg Prod.fst hs⟩

theorem Runs.exists_recorded {s s' : σ} (h : p.Runs M s res s') (l : List S.Op) :
    ∃ l', p.Runs M.recorded (s, l) res (s', l') := by
  induction p generalizing s l
  case pure  => exact ⟨l, h.left, congrArg (·, l) h.right⟩
  case throw => exact ⟨l, h.left, congrArg (·, l) h.right⟩
  case op o k ih =>
    cases h
    case inl h =>
      have ⟨r, s₁, h₁, h₂⟩ := h
      have ⟨l', hr⟩ := ih r h₂ (l ++ [o])
      exact ⟨l', .inl ⟨r, (s₁, l ++ [o]), ⟨h₁, rfl⟩, hr⟩⟩
    case inr h =>
      have ⟨e, h₁, hr, hs⟩ := h
      exact ⟨l, .inr ⟨e, h₁, hr, congrArg (·, l) hs⟩⟩

end Recorded

end Program
