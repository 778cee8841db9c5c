import Logon.Library.Replies
import Logon.Runtime.Reachable

-- Whatever is interleaved, the transactions that commit could as well have run one after the other.

namespace Logon

open System Program PgExecutionStore

-- Replies that hold up to the end of their transaction. A snapshot can become outdated, and so can the news that
-- there is no row, or that a row is locked by somebody else.
def Statement.Firm : (o : Statement) → o.Reply → Prop
  | selectLatestEvent _, _          => False
  | selectExecutionForUpdate _, r   => r.isSome
  | selectApprovalForUpdate _, r    => r.isSome
  | scanApprovals, _                => False
  | lockExecution _, r              => r = .locked
  | expireApproval _, r             => r.isSome
  | scanDispatches, _               => False
  | lockDispatch _, r               => r = .locked
  | claimDispatch _ _, r            => r.isSome
  | updateDispatchSucceeded _, r    => r.isSome
  | updateDispatchFailed _ _, r     => r = true
  | _, _                            => True

-- What is known about a reply because some database gave it, and because its row was checked.
def Premise.given : Premise :=
  fun now o db r => o.Checked db r ∧ ∃ amb db₀, o.reply now amb db₀ = .ok r

theorem Premise.given_stable : Premise.given.Stable :=
  fun _ _ _ _ _ hg _ h => ⟨h.left.mono hg, h.right⟩

theorem Guard.meets_given (G : Guard) : G.Meets .given (fun _ _ => True) fun _ _ => True where
  stable := Premise.given_stable
  spawn  := fun _ => trivial
  stmt   := fun _ _ hr => ⟨Statement.checked_of_reply hr, _, _, hr⟩
  commit := fun _ _ => trivial

namespace Statement

variable {now : Time} {o : Statement} {db db₀ : Db} {r : o.Reply}

theorem Firm.skips (h : o.Firm r) : o.skips r = [] := by
  cases o
  case lockExecution => cases h; rfl
  case lockDispatch  => cases h; rfl
  all_goals rfl

-- A firm reply that some database gave is given by any database of which the same is known.
theorem Firm.reply (h : o.Firm r) (ht : o.Told now db r) (hr : o.Checked db r) (hg : o.reply now amb db₀ = .ok r) :
    o.reply now amb db = .ok r := by
  cases o
  case insertTenant =>
    obtain ⟨_, hs, _⟩ := bind_ok.mp hg
    refine bind_ok.mpr ⟨(), hs, ?_⟩
    cases r <;> simpa [Told, Pure.pure, Except.pure] using ht
  case selectIdempotency => simpa [Statement.reply] using ht.symm
  case insertIdempotency =>
    obtain ⟨_, hs, _⟩ := bind_ok.mp hg
    refine bind_ok.mpr ⟨(), hs, ?_⟩
    cases r
    case none   =>
      obtain ⟨row, hf⟩ := Option.isSome_iff_exists.mp ht
      rw [hf]
      rfl
    case some t =>
      obtain ⟨hf, rfl⟩ := ht
      simp only [hf, bind_ok, require_ok]
      exact ⟨(), hr, rfl⟩
  case selectLatestEvent => exact h.elim
  case insertExecution =>
    obtain ⟨hf, hm, ht⟩ := ht
    simp only [Statement.reply, bind_ok, castTime_ok, require_ok] at hg ⊢
    obtain ⟨_, hs, _, hj, _⟩ := hg
    exact ⟨(), hs, (), hj, r, ht, (), by simp [hf], (), hm, rfl⟩
  case selectExecutionForUpdate =>
    obtain ⟨row, hs⟩ := Option.isSome_iff_exists.mp h
    subst hs
    exact congrArg _ ht
  case selectTenant      => exact congrArg _ ht.symm
  case updateExecution   => exact congrArg _ ht.symm
  case selectMaxSequence => exact congrArg _ ht.symm
  case insertEvent =>
    obtain ⟨hf, ht⟩ := ht
    simp only [Statement.reply, bind_ok, castTime_ok, require_ok] at hg ⊢
    obtain ⟨_, hs, _, hj, _⟩ := hg
    exact ⟨(), hs, (), hj, r, ht, (), by simp [hf], (), hr, rfl⟩
  case insertApproval =>
    simp only [Statement.reply, bind_ok, castTime_ok] at hg ⊢
    obtain ⟨_, hs, c, hc, x, hx, hg⟩ := hg
    refine ⟨(), hs, c, hc, x, hx, ?_⟩
    cases r
    case none =>
      obtain ⟨row, hf⟩ := Option.isSome_iff_exists.mp ht
      rw [hf]
      rfl
    case some r =>
      obtain ⟨hf, hc', hx'⟩ := ht
      obtain rfl : c = r.fst := Option.some.inj <| hc.symm.trans hc'
      obtain rfl : x = r.snd := Option.some.inj <| (mapM_castTime_ok.mp hx).symm.trans hx'
      obtain ⟨row, he, ht⟩ := hr.left
      simp only [hf, bind_ok, require_ok]
      exact ⟨(), by simp [he, ht], rfl⟩
  case selectApprovalForUpdate =>
    obtain ⟨p, hs⟩ := Option.isSome_iff_exists.mp h
    subst hs
    obtain ⟨hf, execution, he, ht⟩ := ht
    simp [Statement.reply, hf, he, ht]
  case expireApproval =>
    obtain ⟨row, hs⟩ := Option.isSome_iff_exists.mp h
    subst hs
    obtain ⟨old, hf, rfl⟩ := ht
    simp [Statement.reply, hf]
  case insertAudit =>
    obtain ⟨hf, ht⟩ := ht
    simp only [Statement.reply, bind_ok, castTime_ok, require_ok] at hg ⊢
    obtain ⟨_, hs, _⟩ := hg
    exact ⟨(), hs, r, ht, (), by simp [hf], (), hr, rfl⟩
  case insertDispatch =>
    cases r
    case none   =>
      obtain ⟨row, hf⟩ := Option.isSome_iff_exists.mp ht
      simp [Statement.reply, hf]
    case some t =>
      obtain ⟨hf, rfl⟩ := ht
      simp only [Statement.reply, hf, bind_ok, require_ok]
      exact ⟨(), hr, rfl⟩
  case lockDispatch =>
    subst h
    obtain ⟨row, hf, hc⟩ := ht
    simp only [Statement.reply, Except.ok.injEq] at hg ⊢
    split at hg
    case isTrue  => cases hg
    case isFalse => simp_all
  case claimDispatch =>
    obtain ⟨row, hs⟩ := Option.isSome_iff_exists.mp h
    subst hs
    obtain ⟨old, hf, rfl⟩ := ht
    simp [Statement.reply, hf]
  case updateDispatchSucceeded =>
    obtain ⟨t, hs⟩ := Option.isSome_iff_exists.mp h
    subst hs
    obtain ⟨hs, rfl⟩ := ht
    obtain ⟨row, hf⟩ := Option.isSome_iff_exists.mp hs
    simp [Statement.reply, hf]
  case updateDispatchFailed =>
    subst h
    exact congrArg _ ht
  case scanApprovals  => exact h.elim
  case scanDispatches => exact h.elim
  all_goals exact hg

end Statement

-- Transactions that only make statements whose replies are firm, whatever they are.
abbrev Tx.Settled (p : Tx α) : Prop :=
  p.Uses fun o : Statement => ∀ r, o.Firm r

-- Transactions that need firm replies to come to a result of a kind.
abbrev Tx.Sure (p : Tx α) (Q : α → Prop) : Prop :=
  p.Insists (fun o r => Statement.Firm o r) fun res => ∃ a, res = .ok a ∧ Q a

theorem Tx.Settled.sure {p : Tx α} {Q : α → Prop} (h : Tx.Settled p) : Tx.Sure p Q :=
  .of_uses h

theorem lockExecution_bind_sure {f : ExecutionStatus → Tx α} {Q : α → Prop} (h : ∀ status, Tx.Sure (f status) Q) :
    Tx.Sure ((lockExecution e).bind f) Q := by
  intro r
  cases r
  case none => exact .inr nofun
  case some => exact .inl ⟨rfl, h _⟩

namespace PostgresExecutionService

theorem awaitOrDispatch_settled : Tx.Settled (awaitOrDispatch request decision) := by
  unfold awaitOrDispatch
  split
  case isTrue  => exact ⟨fun _ => trivial, fun _ => ⟨fun _ => trivial, fun _ => ⟨fun _ => trivial, fun _ =>
    ⟨fun _ => trivial, fun _ => trivial⟩⟩⟩⟩
  case isFalse =>
    split
    case isTrue  => exact ⟨fun _ => trivial, fun _ => trivial⟩
    case isFalse => trivial

theorem create_settled : Tx.Settled (create request) := by
  refine ⟨fun _ => trivial, fun _ => ⟨fun _ => trivial, fun _ => ⟨fun _ => trivial, fun _ => ?_⟩⟩⟩
  apply awaitOrDispatch_settled.bind
  exact fun _ => ⟨fun _ => trivial, fun _ => ⟨fun _ => trivial, fun _ => ⟨fun _ => trivial, fun _ => trivial⟩⟩⟩

theorem move_settled : Tx.Settled (move e status type actorId payload) :=
  ⟨fun _ => trivial, fun _ => ⟨fun _ => trivial, fun _ => ⟨fun _ => trivial, fun _ =>
    ⟨fun _ => trivial, fun _ => trivial⟩⟩⟩⟩

theorem assertTransition_settled : Tx.Settled (assertTransition src dst) := by
  unfold assertTransition
  split <;> trivial

theorem dispatchApproved_settled : Tx.Settled (dispatchApproved e approvalStatus) := by
  unfold dispatchApproved
  split
  case isTrue  => exact ⟨fun _ => trivial, fun _ => trivial⟩
  case isFalse => trivial

theorem lookupTenant_settled : Tx.Settled (lookupTenant e) := by
  refine ⟨fun _ => trivial, fun tenantId => ?_⟩
  cases tenantId <;> trivial

theorem applyDecision_settled : Tx.Settled (applyDecision decision approvalStatus current) := by
  apply assertTransition_settled.bind
  refine fun _ => ⟨fun _ => trivial, fun _ => ⟨fun _ => trivial, fun _ => ⟨fun _ => trivial, fun _ => ?_⟩⟩⟩
  apply dispatchApproved_settled.bind
  intro _
  apply lookupTenant_settled.bind
  exact fun _ => ⟨fun _ => trivial, fun _ => ⟨fun _ => trivial, fun _ => trivial⟩⟩

theorem rejectExpiredExecution_settled : Tx.Settled (rejectExpiredExecution e a actorId) := by
  refine ⟨fun _ => trivial, fun _ => ⟨fun _ => trivial, fun _ => ⟨fun _ => trivial, fun _ => ⟨fun _ => trivial, fun _ => ?_⟩⟩⟩⟩
  apply lookupTenant_settled.bind
  exact fun _ => ⟨fun _ => trivial, fun _ => ⟨fun _ => trivial, fun _ => trivial⟩⟩

theorem transition_sure {Q : ExecutionEvent → Prop} : Tx.Sure (transition e status actorId payload) Q := by
  apply lockExecution_bind_sure
  intro current
  exact Tx.Settled.sure <| assertTransition_settled.bind fun _ => move_settled

theorem fail_sure {Q : ExecutionEvent → Prop} : Tx.Sure (PostgresExecutionService.fail e actorId reason) Q := by
  apply lockExecution_bind_sure
  intro current
  split
  case isTrue  => trivial
  case isFalse => exact move_settled.sure

theorem expired_settled : Tx.Settled (PgExecutionStore.decideApproval.expired row) := by
  unfold PgExecutionStore.decideApproval.expired
  split
  case h_1 => trivial
  case h_2 => exact ⟨fun _ => trivial, fun _ => trivial⟩

-- How a transaction can go on that decides an approval.
abbrev Decided : Except KernelError α → Prop
  | .ok _    => True
  | .error e => ∃ a, e = .approvalExpired a

-- An approval that is not found is no expired one.
theorem storeDecideApproval_insists :
    (PgExecutionStore.decideApproval decision).Insists (fun o r => Statement.Firm o r) Decided := by
  intro r
  cases r
  case none => exact .inr nofun
  case some p =>
    obtain ⟨row, tenantId⟩ := p
    refine .inl ⟨rfl, ?_⟩
    simp only [Program.pure_bind]
    split
    case isTrue => trivial
    split
    case isTrue => trivial
    apply Insists.of_uses
    apply expired_settled.bind
    intro expired
    cases expired
    case true  => exact ⟨fun _ => trivial, fun _ => trivial⟩
    case false => exact ⟨fun _ => trivial, fun _ => trivial⟩

theorem decideApproval_sure {Q : DecideApprovalOutcome → Prop} : Tx.Sure (decideApproval decision) Q := by
  apply lockExecution_bind_sure
  intro current
  split
  case isTrue  => trivial
  case isFalse =>
    have hd : Program.Insists (fun o r => Statement.Firm o r) Decided
        (some <$> PgExecutionStore.decideApproval decision) :=
      storeDecideApproval_insists.bind (fun _ => trivial) (fun _ h => absurd trivial h) fun _ => id
    refine Insists.bind (R := fun res => ∃ status, res = .ok status) ?decide ?apply ?ok ?error
    case decide =>
      apply hd.tryCatch
      case hf =>
        intro e
        split
        case h_1 => exact .of_uses <| rejectExpiredExecution_settled.bind fun _ => trivial
        case h_2 => trivial
      case ha => exact fun _ h => absurd trivial h
      case he =>
        intro e he
        split
        case h_1 a => exact absurd ⟨a, rfl⟩ he
        case h_2   => exact nofun
    case apply =>
      intro status
      cases status
      case none => trivial
      case some => exact applyDecision_settled.sure
    case ok    => exact fun status h => absurd ⟨status, rfl⟩ h
    case error => simp

-- A result that was found and not made is a reused one.
abbrev Fresh : Except KernelError (Option StartExecutionResult) → Prop
  | .ok found => ∀ result ∈ found, result.reused = false
  | .error _  => False

variable {requestHash : String}

theorem findReusable_insists : (findReusable t key requestHash).Insists (fun o r => Statement.Firm o r) Fresh := by
  refine fun _ => .inl ⟨trivial, fun existing => .inl ⟨trivial, ?_⟩⟩
  cases existing
  case none => trivial
  case some row =>
    simp only [Program.pure_bind]
    split
    case isTrue  => trivial
    case isFalse =>
      intro event
      refine .inr ?_
      cases event
      case none => exact fun h => h
      case some => exact fun h => by simpa using h _ rfl

theorem recordKey_insists : (recordKey request key requestHash).Insists (fun o r => Statement.Firm o r) Fresh := by
  refine fun _ => .inl ⟨trivial, fun recorded => .inl ⟨trivial, ?_⟩⟩
  cases recorded
  case none => trivial
  case some row =>
    simp only [Program.pure_bind]
    split
    case isTrue  => trivial
    case isFalse =>
      split
      case isFalse => trivial
      case isTrue  =>
        intro event
        refine .inr ?_
        cases event
        case none => exact fun h => h
        case some => exact fun h => by simpa using h _ rfl

theorem start_sure : Tx.Sure (start request requestHash options) (·.reused = false) := by
  -- Both searches end the call if they find a result.
  have found {p : Tx (Option StartExecutionResult)} {f : Option StartExecutionResult → Tx StartExecutionResult}
      (h : p.Insists (fun o r => Statement.Firm o r) Fresh) (hs : ∀ result, f (some result) = .pure result)
      (hn : Tx.Sure (f none) (·.reused = false)) : Tx.Sure (p.bind f) (·.reused = false) := by
    refine h.bind ?_ ?_ fun _ _ => by simp
    · intro result
      cases result
      case none => exact hn
      case some =>
        rw [hs]
        trivial
    · intro result hn
      cases result
      case none => simp at hn
      case some result =>
        have hr : result.reused = true := by simpa [Fresh] using hn
        rw [hs]
        exact fun h => by simp [hr] at h
  refine fun _ => .inl ⟨trivial, ?_⟩
  simp only [Program.pure_bind]
  split
  case h_1 => exact Tx.Settled.sure <| create_settled.bind fun _ => trivial
  case h_2 key hk =>
    apply found findReusable_insists fun _ => rfl
    refine Insists.bind (R := fun res => ∃ stored, res = .ok stored) (.of_uses create_settled) ?_ ?_ fun _ _ => by simp
    · exact fun stored => found recordKey_insists (fun _ => rfl) trivial
    · exact fun stored h => absurd ⟨stored, rfl⟩ h

end PostgresExecutionService

-- The results of calls which have not only looked at snapshots.
def Call.Exact : (c : Call) → c.Result → Prop
  | start _ _ _, result    => result.reused = false
  | decideApproval _, _    => True
  | transition _ _ _ _, _  => True
  | fail _ _ _, _          => True
  | _, _                   => False

theorem Call.sure (c : Call) : Tx.Sure c.body c.Exact := by
  cases c
  case start          => exact PostgresExecutionService.start_sure
  case decideApproval => exact PostgresExecutionService.decideApproval_sure
  case transition     => exact PostgresExecutionService.transition_sure
  case fail           => exact PostgresExecutionService.fail_sure
  all_goals exact .of_never <| .of_forall <| by simp [Exact]

-- A server that nobody else uses at the moment.
abbrev undisturbed (now : Time) : Semantics sql Db KernelError :=
  engine.alone (fun _ _ => True) now

-- A server that nobody else uses, except that replies which are not firm can be out of date.
def outdated (now : Time) : Semantics sql Db KernelError where
  step o db r db'  := ((∃ amb, o.reply now amb db = .ok r) ∨ ¬o.Firm r ∧ o.Told now db r) ∧ db' = o.effect r db
  fails _ _ e      := e.isDatabase

-- Transactions that run one after the other, from an empty database on.
inductive SerialHistory : List platform.Commit → Db → Prop
  | nil : SerialHistory [] Db.empty
  | exact {c : Call} {r : c.Result} {log db pid now db'} :
    SerialHistory log db → c.Exact r → c.body.Runs (undisturbed now) db (.ok r) db' →
    SerialHistory (log ++ [⟨pid, c, r, now⟩]) db'
  | outdated {c : Call} {r : c.Result} {log db pid now db'} :
    SerialHistory log db → ¬c.Exact r → c.body.Runs (outdated now) db (.ok r) db' →
    SerialHistory (log ++ [⟨pid, c, r, now⟩]) db'

variable {now : Time} {db db' : Db}

theorem Tx.Sure.undisturbed {p : Tx α} {Q : α → Prop} (h : Tx.Sure p Q)
    (hr : p.Runs (Premise.given.sem now) db (.ok a) db') (hq : Q a) : p.Runs (undisturbed now) db (.ok a) db' := by
  refine h.runs ?_ hr ⟨a, rfl, hq⟩
  rintro o db r db' ⟨⟨ht, hr, amb, db₀, hg⟩, rfl⟩ hf
  exact ⟨⟨amb, trivial, hf.reply ht hr hg⟩, hf.skips, rfl⟩

theorem Tx.outdated {p : Tx α} (h : p.Runs (Premise.given.sem now) db res db') : p.Runs (outdated now) db res db' := by
  refine Runs.mono (M := Premise.given.sem now) ?_ (fun _ _ _ => id) h
  rintro o db r db' ⟨⟨ht, hr, amb, db₀, hg⟩, rfl⟩
  by_cases hf : o.Firm r
  case pos => exact ⟨.inl ⟨amb, hf.reply ht hr hg⟩, rfl⟩
  case neg => exact ⟨.inr ⟨hf, ht⟩, rfl⟩

theorem SerialHistory.concat {c : Call} {r : c.Result} (h : SerialHistory log db)
    (hr : c.body.Runs (Premise.given.sem now) db (.ok r) db') : SerialHistory (log ++ [⟨pid, c, r, now⟩]) db' := by
  by_cases he : c.Exact r
  case pos => exact .exact h he <| c.sure.undisturbed hr he
  case neg => exact .outdated h he <| Tx.outdated hr

theorem histories_are_serial {G : Guard} {s : platform.State} (h : Reachable G s) : SerialHistory s.log s.db := by
  have ⟨_, hs⟩ := h.atomic G.meets_given
  refine @Atomic.Steps.invariant _ _ _ _ _ _ _ _ (fun g => SerialHistory g.log g.db) _ _ hs .nil (fun _ _ _ => id) ?_
  intro pid o g r g' hd hs
  cases hd
  case commit hr => exact hs.concat hr
  case throw     => exact hs
  case fault     => exact hs
  case act       => exact hs

open Sample in
-- Two clients decide at the same time. One of them has to wait, and finds that it is too late then.
theorem histories_are_serial_contended :
    let s := reach unchecked <| gated ++ [.spawn 1 decided, .spawn 2 decided, .begin 1, .begin 2] ++
      List.replicate 11 (.stmt 1 (ambient 5 "y")) ++ [.commit 1, .stmt 2 (ambient 5 "z"), .rollback 2]
    s.log.map (·.pid) = [0, 1] ∧ SerialHistory s.log s.db :=
  ⟨by decide +kernel, histories_are_serial (G := Guard.any) <| reach_reachable fun _ _ _ _ => trivial⟩

end Logon
