import Logon.Runtime.Parties

-- Transactions and processes that nobody else interferes with.

namespace Logon

open System Program

-- What is known about replies if statements only run under some circumstances, and skip no locks.
def Premise.exact (allow : Time → Db → Ambient → Prop) : Premise :=
  fun now o db r => (∃ amb, allow now db amb ∧ o.reply now amb db = .ok r) ∧ o.skips r = []

def alone (allow : Time → Db → Ambient → Prop) (ambient : (a : Action) → Ambient → Prop) : Regime platform where
  tx now    := engine.alone (allow now) now
  fault _   := False
  ambient   := ambient
  may _ _   := True

theorem Statement.skips_of_reply {o : Statement} {r : o.Reply} (h : o.reply now amb db = .ok r) (hs : amb.skip = false) :
    o.skips r = [] := by
  cases o
  case lockExecution =>
    simp only [reply, hs, Bool.false_eq_true, if_false, Except.ok.injEq] at h
    subst h
    rfl
  case lockDispatch =>
    simp only [reply, hs, Bool.false_eq_true, if_false, Except.ok.injEq] at h
    split at h <;> subst h <;> rfl
  all_goals rfl

variable {allow : Time → Db → Ambient → Prop} {ambient : (a : Action) → Ambient → Prop} {now : Time} {db db' : Db}

theorem runs_exact {p : Tx α} (h : p.Runs (engine.alone (allow now) now) db res db') :
    p.Runs ((Premise.exact allow).sem now) db res db' := by
  apply h.mono
  · intro o db r db' ⟨⟨amb, ha, hr⟩, hs, hd⟩
    exact ⟨⟨Statement.told_of_reply hr, ⟨amb, ha, hr⟩, hs⟩, hd⟩
  · intro o db e ⟨amb, _, hr⟩
    exact Statement.reply_error hr

-- A transaction comes to an end.
theorem Tx.exists_alone (p : Tx α) (ha : ∀ db, ∃ amb, allow now db amb ∧ amb.skip = false) (db : Db) :
    ∃ res db', p.Runs (engine.alone (allow now) now) db res db' := by
  apply exists_runs (Q := fun _ => True) _ p trivial
  intro o db _
  have ⟨amb, ha, hs⟩ := ha db
  cases hr : o.reply now amb db
  case ok r    => exact .inl ⟨r, o.effect r db, ⟨⟨amb, ha, hr⟩, Statement.skips_of_reply hr hs, rfl⟩, trivial⟩
  case error e => exact .inr ⟨e, amb, ha, hr⟩

section
variable {g g' : platform.Global}

-- The state after a transaction.
def Call.settle (c : Call) (pid : Pid) (now : Time) (db : Db) (g : platform.Global) :
    Except KernelError c.Result → platform.Global
  | .ok r    => c.commitTo pid r now db g
  | .error _ => g

theorem transaction_cases {R : Regime platform} {c : Call} {res : Except KernelError c.Result}
    (h : (transaction c).Runs (R.semantics pid) g res g') :
    (∃ now db', now ≤ g.clock ∧ c.body.Runs (R.tx now) g.db res db' ∧ g' = c.settle pid now db' g res) ∨
    ∃ e, R.fault e ∧ res = .error e ∧ g' = g := by
  obtain ⟨r, g₁, hd, h⟩ | ⟨_, _, h⟩ := runs_bind h
  case inl =>
    have hd := runs_perform_ok.mp hd
    cases hd
    case commit now db' r hn _ hr =>
      obtain ⟨rfl, rfl⟩ := h
      exact .inl ⟨now, db', hn, hr, rfl⟩
    case throw now db' hn hr =>
      obtain ⟨rfl, rfl⟩ := h
      exact .inl ⟨now, db', hn, hr, rfl⟩
    case fault e hf => exact .inr ⟨e, hf, h⟩
  case inr =>
    obtain ⟨_, _, _, h⟩ | ⟨_, hf, _⟩ := h
    · cases h.left
    · exact hf.elim

theorem transaction_alone {c : Call} {res : Except KernelError c.Result}
    (h : (transaction c).Runs ((alone allow ambient).semantics pid) g res g') :
    ∃ now db', now ≤ g.clock ∧ c.body.Runs (engine.alone (allow now) now) g.db res db' ∧
      g' = c.settle pid now db' g res :=
  (transaction_cases h).resolve_right fun ⟨_, hf, _⟩ => hf.elim

theorem transaction_runs {c : Call} {r : c.Result}
    (h : (transaction c).Runs ((alone allow ambient).semantics pid) g (.ok r) g') :
    ∃ now db', now ≤ g.clock ∧ c.Commits (.exact allow) now g.db r db' ∧ g' = c.commitTo pid r now db' g :=
  have ⟨now, db', hn, hr, hg⟩ := transaction_alone h
  ⟨now, db', hn, c.commits (runs_exact hr), hg⟩

theorem transaction_throws {c : Call}
    (h : (transaction c).Runs ((alone allow ambient).semantics pid) g (.error e) g') :
    g' = g ∧ ∃ now db', now ≤ g.clock ∧ c.body.Runs (engine.alone (allow now) now) g.db (.error e) db' :=
  have ⟨now, db', hn, hr, hg⟩ := transaction_alone h
  ⟨hg, now, db', hn, hr⟩

theorem perform_runs {a : Action} {res : Except KernelError a.Answer}
    (h : (perform a).Runs ((alone allow ambient).semantics pid) g res g') :
    ∃ amb, ambient a amb ∧ res = (a.act amb g.db g.world).fst ∧ g' = a.actOn amb g := by
  have of {r g₁} (hd : Do (alone allow ambient) pid (.inr a) g r g₁)
      (h : (Program.ofExcept r : Process a.Answer).Runs ((alone allow ambient).semantics pid) g₁ res g') :
      ∃ amb, ambient a amb ∧ res = (a.act amb g.db g.world).fst ∧ g' = a.actOn amb g := by
    cases hd
    case act amb ha =>
      refine ⟨amb, ha, ?_⟩
      cases hr : (platform.act a amb g.db g.world).fst <;> rw [hr] at h
      · exact ⟨h.left.trans hr.symm, h.right⟩
      · exact ⟨h.left.trans hr.symm, h.right⟩
  cases res
  case ok =>
    obtain ⟨r, g₁, hd, h⟩ := runs_bind_ok.mp h
    exact of (runs_perform_ok.mp hd) h
  case error =>
    obtain h | ⟨r, g₁, hd, h⟩ := runs_bind_error.mp h
    case inr => exact of (runs_perform_ok.mp hd) h
    case inl =>
      obtain ⟨_, _, _, h⟩ | ⟨_, hf, _⟩ := h
      · cases h.left
      · exact hf.elim

end

-- Processes generate ids that PostgreSQL can store, and their clocks show times that it reads. It reads the expiry of an
-- approval, too, then.
structure Ambient.Proper (amb : Ambient) : Prop where
  uuid    : Storable amb.uuid
  now     : Timestamp.Legible amb.dateNow
  expires : Timestamp.Legible (amb.dateNow + DEFAULT_APPROVAL_TTL_MS)

-- Circumstances in which nothing fails
def Ambient.calm : Ambient where
  dateNow := 0
  uuid    := ""
  rank _  := 0
  skip    := false
  failure := none
  added   := false

-- So does a process, if it has the time to begin a transaction.
theorem exists_alone (p : Process α) (pid : Pid) {g : platform.Global} (hn : now ≤ g.clock)
    (ha : ∀ db, ∃ amb, allow now db amb ∧ amb.skip = false) (hb : ∀ a, ∃ amb, ambient a amb) :
    ∃ res g', p.Runs ((alone allow ambient).semantics pid) g res g' := by
  apply exists_runs (Q := fun g => now ≤ g.clock) _ p hn
  intro o g hn
  left
  cases o
  case inl c =>
    have ⟨res, db', hr⟩ := Tx.exists_alone c.body ha g.db
    cases res
    case ok    => exact ⟨_, _, .commit trivial hn hr, hn⟩
    case error => exact ⟨_, _, .throw hn hr, hn⟩
  case inr a =>
    have ⟨amb, hb⟩ := hb a
    exact ⟨_, _, .act hb, hn⟩

end Logon
