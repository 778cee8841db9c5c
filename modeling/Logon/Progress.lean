import Logon.Library.Batches
import Logon.Runtime.Alone
import Logon.Runtime.Claims

-- Dispatches that fail again and again take up room in the batches of a publisher. What that means for the others
-- depends on how many of them are older.

namespace Logon

open System Program ExecutionOutboxPublisher

-- The dispatches that do not get into the queue, which refuses the jobs of some executions.
def DispatchRow.Fails (bad : String → Bool) (r : DispatchRow) : Prop :=
  r.queueName ≠ EXECUTION_QUEUE_NAME ∨ blank r.executionId ∨ bad r.executionId

instance (bad : String → Bool) (r : DispatchRow) : Decidable (r.Fails bad) :=
  inferInstanceAs (Decidable (_ ∨ _ ∨ _))

def refusing (bad : String → Bool) : Action → Ambient → Prop
  | .add job, amb       => amb.failure.isSome = bad job.executionId
  | .latestEvent _, amb => amb.failure = none

-- A publisher that nobody else interferes with, while transactions begin at a given time or later.
def publishing (bad : String → Bool) (since : Time) : Regime platform :=
  alone (fun now _ _ => since ≤ now) (refusing bad)

-- A number of successive calls of `publishOnce`.
inductive Publishes (bad : String → Bool) (since : Time) (publisher : ExecutionOutboxPublisher) (pid : Pid) :
    Nat → platform.Global → platform.Global → Prop
  | zero {g} : Publishes bad since publisher pid 0 g g
  | succ {n g g₁ g' result} :
    Publishes bad since publisher pid n g g₁ →
    publisher.publishOnce.Runs ((publishing bad since).semantics pid) g₁ (.ok result) g' →
    Publishes bad since publisher pid (n + 1) g g'

section
variable {allow : Time → Db → Ambient → Prop} {now : Time} {db db' : Db}

-- Without others, candidates are there to be locked.
theorem locked_of_exact (hp : Premise.exact allow now (.lockDispatch e) db r) (hf : db.dispatches.find e = some row)
    (hc : row.Claimable now) : r = .locked := by
  have ⟨⟨amb, _, hr⟩, hs⟩ := hp
  simp only [Statement.reply, hf, Option.any_some, hc, decide_true, if_true, Except.ok.injEq] at hr
  split at hr
  case isTrue =>
    subst hr
    simp [Statement.skips] at hs
  case isFalse => exact hr.symm

theorem ClaimOne.all_of_collects {leaseMs : Int}
    (h : Program.Collects (ClaimOne (.exact allow) now leaseMs) ids db rows db')
    (hf : ∀ e ∈ ids, (db.dispatches.find e).isSome) : rows.map (·.executionId) = ids := by
  induction h
  case nil => rfl
  case cons e db b db₁ ids rows db' hc _ ih =>
    have hids := ih fun e' he => (by
      cases hc
      case none => exact hf e' (.tail _ he)
      case some => rw [Db.claimDispatch_dispatches, Table.isSome_find_modify]; exact hf e' (.tail _ he))
    cases hc
    case none hp _ =>
      have ⟨⟨amb, _, hr⟩, _⟩ := hp
      have hs := hf e (.head _)
      simp only [Statement.reply, Except.ok.injEq, Option.map_eq_none_iff] at hr
      simp [hr] at hs
    case some ho _ _ =>
      simp [hids, Table.key_of_find ho]

theorem Claim.scanned {limit leaseMs : Int} (h : Claim P now limit leaseMs db claims db') :
    ∃ candidates, P now .scanDispatches db candidates := by
  cases h
  case mk hp _ _ _ _ => exact ⟨_, hp⟩

-- A publisher alone claims the oldest dispatches.
theorem Claim.oldest {limit leaseMs : Int} (h : Claim (.exact allow) now limit leaseMs db claims db') :
    ∃ rank : DispatchRow → Nat, (claims.map (·.executionId)).Perm <|
      ((Statement.orderBy (·.createdAt) rank (db.dispatches.rows.filter (·.Claimable now))).map (·.executionId)).take
        (clamp limit 1 100).toNat := by
  cases h
  case mk candidates locked ids rows hp hn hl hi hc =>
    obtain ⟨⟨amb, _, hr⟩, _⟩ := hp
    simp only [Statement.reply, Except.ok.injEq] at hr
    have hcl e (he : e ∈ candidates) : ∃ row, db.dispatches.find e = some row ∧ row.Claimable now := by
      rw [← hr] at he
      obtain ⟨row, hm, he⟩ := List.mem_map.mp he
      rw [Statement.orderBy, List.mem_insertionSort, List.mem_filter, decide_eq_true_eq] at hm
      exact ⟨row, he ▸ Table.find_of_mem hm.left, hm.right⟩
    have hl := hl.take_eq fun e he r hp => by
      obtain ⟨row, hf, hc⟩ := hcl e he
      exact locked_of_exact hp.left hf hc
    have hr' : rows.map (·.executionId) = ids := ClaimOne.all_of_collects hc fun e he => by
      obtain ⟨row, hf, _⟩ := hcl e <| List.mem_of_mem_take <| hl ▸ hi.subset he
      simp [hf]
    have hm : (rows.map DispatchClaim.of).map (·.executionId) = rows.map (·.executionId) := by
      rw [List.map_map]
      rfl
    refine ⟨(amb.rank ·.executionId), ?_⟩
    rw [hm, hr', hr, ← hl]
    exact hi

end

-- The statements of a publisher do not fail by themselves.
def Statement.Infallible (o : Statement) : Prop :=
  ∀ now amb db, ∃ r, o.reply now amb db = .ok r

theorem query_returns {o : Statement} (h : o.Infallible) : (query o).Returns Statement.Infallible :=
  ⟨h, fun _ => trivial⟩

theorem lockCandidates_returns {A : Statement → Prop} {lock : α → Tx Candidate} (hl : ∀ a, (lock a).Returns A) (n : Nat)
    (as : List α) : (lockCandidates lock n as).Returns A := by
  fun_induction lockCandidates lock n as
  case case1 => trivial
  case case2 => trivial
  case case3 ih₁ ih₂ =>
    apply (hl _).bind
    intro c
    split
    · exact ih₁.bind fun _ => trivial
    · exact ih₂

theorem claimDispatches_returns {limit leaseMs : Int} :
    (PgExecutionStore.claimDispatches limit leaseMs).Returns Statement.Infallible := by
  refine ⟨fun _ _ _ => ⟨_, rfl⟩, fun ids => ?_⟩
  apply (lockCandidates_returns (fun e => query_returns fun _ _ _ => ⟨_, rfl⟩) _ ids).bind
  intro candidates
  refine ⟨fun _ _ _ => ⟨_, rfl⟩, fun executionIds => ?_⟩
  apply (Returns.collect (fun e => query_returns fun _ _ _ => ⟨_, rfl⟩) executionIds).bind
  exact fun _ => trivial

theorem markDispatchSucceeded_returns :
    (PgExecutionStore.markDispatchSucceeded e).Returns Statement.Infallible :=
  ⟨fun _ _ _ => ⟨_, rfl⟩, fun _ => trivial⟩

theorem markDispatchFailed_returns :
    (PgExecutionStore.markDispatchFailed e error).Returns Statement.Infallible :=
  ⟨fun _ _ _ => ⟨_, rfl⟩, fun _ => trivial⟩

section
variable {bad : String → Bool} {since : Time} {g g' : platform.Global}

theorem transaction_returns (c : Call) (hc : c.body.Returns Statement.Infallible) :
    ¬(transaction c).Runs ((publishing bad since).semantics pid) g (.error e) g' := by
  intro h
  have ⟨_, now, db', _, hr⟩ := transaction_throws h
  refine hc.not_throws ?_ hr
  intro o db e ho ⟨amb, _, he⟩
  have ⟨r, hr⟩ := ho now amb db
  cases hr.symm.trans he

theorem enqueue_runs (h : (enqueue e).Runs ((publishing bad since).semantics pid) g res g') :
    g'.db = g.db ∧ g'.clock = g.clock ∧ (res.isOk ↔ ¬(blank e ∨ bad e)) := by
  unfold enqueue at h
  split at h
  case isTrue hb =>
    obtain ⟨rfl, rfl⟩ := h
    exact ⟨rfl, rfl, by simp [hb, Except.isOk, Except.toBool]⟩
  case isFalse hb =>
    obtain ⟨amb, ha, rfl, rfl⟩ := perform_runs h
    refine ⟨rfl, rfl, ?_⟩
    replace ha : amb.failure.isSome = bad e := ha
    cases hf : amb.failure <;> simp_all [Action.act, Except.isOk, Except.toBool]

-- What becomes of a dispatch that is published.
structure Settled (bad : String → Bool) (row row' : DispatchRow) : Prop where
  same       : row.Same row'
  pending    : row.Fails bad → row'.status = .pending
  dispatched : ¬row.Fails bad → row'.status = .dispatched

-- The two ways in which a claimed dispatch is settled.
inductive Settlement (bad : String → Bool) (row : DispatchRow) : DispatchRow → Prop
  | success {now} : ¬row.Fails bad → Settlement bad row (row.succeed now)
  | failure {error} : row.Fails bad → Settlement bad row (row.fail error)

theorem Settlement.settled (h : Settlement bad row row') : Settled bad row row' := by
  cases h
  case success hn => exact ⟨⟨rfl, rfl⟩, fun hf => absurd hf hn, fun _ => rfl⟩
  case failure hf => exact ⟨⟨rfl, rfl⟩, fun _ => rfl, fun hn => absurd hf hn⟩

-- What is the same for all others while a dispatch is settled.
structure Aside (p : String → Prop) (g g' : platform.Global) : Prop where
  clock  : g'.clock = g.clock
  others : ∀ e, ¬p e → g'.db.dispatches.find e = g.db.dispatches.find e
  tables : g'.db = { g.db with dispatches := g'.db.dispatches }

theorem publish_runs (h : (publish claim).Runs ((publishing bad since).semantics pid) g (.ok d) g')
    (hf : g.db.dispatches.find claim.executionId = some row) (hq : claim.queueName = row.queueName) :
    (d = true ↔ ¬row.Fails bad) ∧ Aside (· = claim.executionId) g g' ∧
    ∃ row', g'.db.dispatches.find claim.executionId = some row' ∧ Settlement bad row row' := by
  have he := Table.key_of_find hf
  obtain hb | ⟨error, g₁, hb, hh⟩ := runs_tryCatch_ok h
  case inl =>
    split at hb
    case isTrue => cases hb.left
    case isFalse hn =>
      obtain ⟨_, g₁, hq', hb⟩ := runs_bind_ok.mp hb
      obtain ⟨hd, hc, hok⟩ := enqueue_runs hq'
      obtain ⟨_, g₂, ht, hb⟩ := runs_bind_ok.mp hb
      obtain ⟨now, db', -, hm, rfl⟩ := transaction_runs ht
      obtain ⟨⟨⟩, rfl⟩ := hb
      have hnf : ¬row.Fails bad := by
        have := hok.mp rfl
        simp_all [DispatchRow.Fails]
      cases hm
      case none hp _ =>
        obtain ⟨⟨amb, _, hr⟩, _⟩ := hp
        simp [Statement.reply, hd, hf] at hr
      case some =>
        refine ⟨by simp [hnf], ⟨hc, fun e hne => ?_, by simp [Db.succeedDispatch, hd]⟩, row.succeed now, ?_, .success hnf⟩
        · simp [Table.find_modify_ne, hd, hne]
        · simp [Table.find_modify_self, hd, hf]
  case inr =>
    obtain ⟨_, g₂, ht, hh⟩ := runs_bind_ok.mp hh
    obtain ⟨now, db', -, hm, rfl⟩ := transaction_runs ht
    obtain ⟨⟨⟩, rfl⟩ := hh
    obtain ⟨hd, hc, hff⟩ : g₁.db = g.db ∧ g₁.clock = g.clock ∧ row.Fails bad := by
      split at hb
      case isTrue hn =>
        obtain ⟨-, rfl⟩ := hb
        exact ⟨rfl, rfl, .inl (hq ▸ hn)⟩
      case isFalse hn =>
        obtain hb | ⟨_, g₂, hq', hb⟩ := runs_bind_error.mp hb
        case inl =>
          obtain ⟨hd, hc, hok⟩ := enqueue_runs hb
          refine ⟨hd, hc, .inr ?_⟩
          rw [he]
          by_contra hn
          exact absurd (hok.mpr hn) Bool.false_ne_true
        case inr =>
          obtain hb | ⟨_, g₃, _, hb⟩ := runs_bind_error.mp hb
          · exact absurd hb <| transaction_returns (.markDispatchSucceeded _) markDispatchSucceeded_returns
          · cases hb.left
    cases hm
    case none hp =>
      obtain ⟨⟨amb, _, hr⟩, _⟩ := hp
      simp [Statement.reply, hd, hf] at hr
    case some =>
      refine ⟨by simp [hff], ⟨hc, fun e hne => ?_, by simp [Db.failDispatch, hd]⟩, row.fail (slice error.message 2000), ?_,
        .failure hff⟩
      · simp [Table.find_modify_ne, hd, hne]
      · simp [Table.find_modify_self, hd, hf]

theorem publish_returns :
    ¬(publish claim).Runs ((publishing bad since).semantics pid) g (.error e) g' := by
  intro h
  obtain ⟨e', g₁, -, h⟩ | ⟨_, _, hf⟩ := runs_tryCatch_error h
  case inr => exact hf
  case inl =>
    obtain h | ⟨_, _, _, h⟩ := runs_bind_error.mp h
    · exact transaction_returns (.markDispatchFailed _ _) markDispatchFailed_returns h
    · cases h.left

theorem publish_bind_runs {f : Bool → Process α}
    (h : ((publish claim).bind f).Runs ((publishing bad since).semantics pid) g res g') :
    ∃ d g₁, (publish claim).Runs ((publishing bad since).semantics pid) g (.ok d) g₁ ∧
      (f d).Runs ((publishing bad since).semantics pid) g₁ res g' := by
  cases res
  case ok    => exact runs_bind_ok.mp h
  case error =>
    cases runs_bind_error.mp h
    case inl h => exact absurd h publish_returns
    case inr h => exact h

-- What becomes of claimed dispatches, and of the others.
structure Processed (bad : String → Bool) (claims : List DispatchClaim) (g g' : platform.Global) : Prop where
  clock   : g'.clock = g.clock
  settled : ∀ claim ∈ claims, ∀ row, g.db.dispatches.find claim.executionId = some row →
            ∃ row', g'.db.dispatches.find claim.executionId = some row' ∧ Settled bad row row'
  others  : ∀ e ∉ claims.map (·.executionId), g'.db.dispatches.find e = g.db.dispatches.find e

-- The condition `Fails` in terms of a claim.
def DispatchClaim.Fails (bad : String → Bool) (claim : DispatchClaim) : Prop :=
  claim.queueName ≠ EXECUTION_QUEUE_NAME ∨ blank claim.executionId ∨ bad claim.executionId

instance (bad : String → Bool) (claim : DispatchClaim) : Decidable (claim.Fails bad) :=
  inferInstanceAs (Decidable (_ ∨ _ ∨ _))

theorem DispatchClaim.fails_iff {claim : DispatchClaim} {db : Db} (hf : db.dispatches.find claim.executionId = some row)
    (hq : claim.queueName = row.queueName) : claim.Fails bad ↔ row.Fails bad := by
  have he := Table.key_of_find hf
  simp only [DispatchClaim.Fails, DispatchRow.Fails, hq, he]

-- What the loop over the claims leads to, with what it counts.
structure Publication (bad : String → Bool) (claims : List DispatchClaim) (m n : Nat) (g : platform.Global)
    (res : Except KernelError (Nat × Nat)) (g' : platform.Global) : Prop where
  result  : res = .ok (m + claims.countP (¬·.Fails bad), n + claims.countP (·.Fails bad))
  settled : ∀ claim ∈ claims, ∀ row, g.db.dispatches.find claim.executionId = some row →
            ∃ row', g'.db.dispatches.find claim.executionId = some row' ∧ Settlement bad row row'
  aside   : Aside (· ∈ claims.map (·.executionId)) g g'

theorem Publication.processed (h : Publication bad claims m n g res g') : Processed bad claims g g' where
  clock   := h.aside.clock
  settled := fun claim hm row hf => (h.settled claim hm row hf).imp fun _ hs => hs.imp_right Settlement.settled
  others  := h.aside.others

theorem publishAll_runs (h : (publishAll claims m n).Runs ((publishing bad since).semantics pid) g res g')
    (hn : (claims.map (·.executionId)).Nodup)
    (hc : ∀ claim ∈ claims, ∃ row, g.db.dispatches.find claim.executionId = some row ∧ claim.queueName = row.queueName) :
    Publication bad claims m n g res g' := by
  induction claims generalizing m n g
  case nil =>
    obtain ⟨rfl, rfl⟩ := h
    exact ⟨rfl, nofun, rfl, fun _ _ => rfl, rfl⟩
  case cons claim claims ih =>
    rw [List.map_cons, List.nodup_cons] at hn
    obtain ⟨d, g₁, hp, h⟩ := publish_bind_runs h
    have ⟨row, hf, hq⟩ := hc claim (.head _)
    have ⟨hd, ha, row', hf', hs⟩ := publish_runs hp hf hq
    have hne {c} (hm : c ∈ claims) : c.executionId ≠ claim.executionId := fun he =>
      hn.left <| he ▸ List.mem_map_of_mem hm
    have hc' c (hm : c ∈ claims) : ∃ row, g₁.db.dispatches.find c.executionId = some row ∧ c.queueName = row.queueName :=
      ha.others _ (hne hm) ▸ hc c (.tail _ hm)
    rw [← DispatchClaim.fails_iff hf hq] at hd
    have ⟨m', n', hp, hcount⟩ : ∃ m' n', Publication bad claims m' n' g₁ res g' ∧
        (m' + claims.countP (¬·.Fails bad), n' + claims.countP (·.Fails bad)) =
        (m + (claim :: claims).countP (¬·.Fails bad), n + (claim :: claims).countP (·.Fails bad)) := by
      cases d
      case false =>
        have hb : claim.Fails bad := by simpa using hd
        exact ⟨_, _, ih h hn.right hc', by simp [hb]; omega⟩
      case true =>
        have hb : ¬claim.Fails bad := hd.mp rfl
        exact ⟨_, _, ih h hn.right hc', by simp [hb]; omega⟩
    constructor
    case result  => exact hp.result.trans <| congrArg _ hcount
    case settled =>
      intro c hm r hr
      cases hm
      case head =>
        cases hf.symm.trans hr
        exact ⟨row', (hp.aside.others _ hn.left).trans hf', hs⟩
      case tail hm => exact hp.settled c hm r <| (ha.others _ (hne hm)).trans hr
    case aside =>
      refine ⟨hp.aside.clock.trans ha.clock, fun e he => ?_, ?_⟩
      · rw [List.map_cons, List.mem_cons, not_or] at he
        exact (hp.aside.others e he.right).trans (ha.others e he.left)
      · rw [hp.aside.tables, ha.tables]

-- A claim does not matter for how its dispatch is settled.
theorem Processed.of_claim {limit leaseMs : Int} (h : Claim P now limit leaseMs g.db claims db')
    (hs : Processed bad claims ((Call.claimDispatches limit leaseMs).commitTo pid claims now db' g) g') :
    Processed bad claims g g' := by
  have ⟨htook, hsame, _⟩ := h.took
  refine ⟨hs.clock, fun claim hm row hf => ?_, fun e he => (hs.others e he).trans (hsame e he)⟩
  have ⟨row', _, ht⟩ := htook claim hm
  cases hf.symm.trans ht.find
  have ⟨row', hf', hs⟩ := hs.settled claim hm _ ht.find'
  exact ⟨row', hf', ⟨hs.same.queueName, hs.same.createdAt⟩, hs.pending, hs.dispatched⟩

-- What has been claimed is settled.
theorem claims_runs {limit leaseMs : Int} {claims : List DispatchClaim}
    (ht : (transaction (.claimDispatches limit leaseMs)).Runs ((publishing bad since).semantics pid) g (.ok claims) g₁)
    (h : (publishAll claims 0 0).Runs ((publishing bad since).semantics pid) g₁ counts g') :
    ∃ now db', since ≤ now ∧ now ≤ g.clock ∧
      Claim (.exact fun now _ _ => since ≤ now) now limit leaseMs g.db claims db' ∧
      g₁ = (Call.claimDispatches limit leaseMs).commitTo pid claims now db' g ∧ Publication bad claims 0 0 g₁ counts g' := by
  obtain ⟨now, db', hn, hc, rfl⟩ := transaction_runs ht
  have ⟨htook, _, hnd⟩ := Claim.took hc
  have ⟨_, ⟨_, hs, _⟩, _⟩ := Claim.scanned hc
  refine ⟨now, db', hs, hn, hc, rfl, publishAll_runs h hnd fun claim hm => ?_⟩
  have ⟨_, _, ht⟩ := htook claim hm
  exact ⟨_, ht.find', by rw [ht.of]; rfl⟩

-- A call claims dispatches, and settles all of them.
theorem publishOnce_runs {publisher : ExecutionOutboxPublisher}
    (h : publisher.publishOnce.Runs ((publishing bad since).semantics pid) g res g') :
    ∃ claims g₁ counts, res = .ok ⟨claims.length, counts.fst, counts.snd⟩ ∧
      (transaction (.claimDispatches publisher.batchSize publisher.leaseMs)).Runs
        ((publishing bad since).semantics pid) g (.ok claims) g₁ ∧
      (publishAll claims 0 0).Runs ((publishing bad since).semantics pid) g₁ (.ok counts) g' := by
  obtain ⟨claims, g₁, ht, h⟩ | ⟨e, _, h⟩ := runs_bind h
  case inr => exact absurd h <| transaction_returns (.claimDispatches _ _) claimDispatches_returns
  obtain ⟨counts, g₂, h, hr, rfl⟩ | ⟨e, _, h⟩ := runs_bind h
  case inl => exact ⟨claims, g₁, counts, hr, ht, h⟩
  case inr =>
    have ⟨_, _, _, _, _, _, hp⟩ := claims_runs ht h
    cases hp.result

theorem publishOnce_processed {publisher : ExecutionOutboxPublisher}
    (h : publisher.publishOnce.Runs ((publishing bad since).semantics pid) g res g') :
    res.isOk ∧ ∃ now claims db', since ≤ now ∧ now ≤ g.clock ∧
      Claim (.exact fun now _ _ => since ≤ now) now publisher.batchSize publisher.leaseMs g.db claims db' ∧
      Processed bad claims g g' := by
  obtain ⟨claims, _, _, rfl, ht, h⟩ := publishOnce_runs h
  obtain ⟨now, db', hs, hn, hc, rfl, hp⟩ := claims_runs ht h
  exact ⟨rfl, now, claims, db', hs, hn, hc, .of_claim hc hp.processed⟩

end

-- The dispatches that wait to be claimed.
def waiting (since : Time) (db : Db) : Finset String :=
  ((db.dispatches.rows.filter (·.Claimable since)).map (·.executionId)).toFinset

theorem mem_waiting : e ∈ waiting since db ↔ ∃ row, db.dispatches.find e = some row ∧ row.Claimable since := by
  simp only [waiting, List.mem_toFinset, List.mem_map, List.mem_filter, decide_eq_true_eq]
  constructor
  · rintro ⟨row, ⟨hm, hc⟩, rfl⟩
    exact ⟨row, Table.find_of_mem hm, hc⟩
  · rintro ⟨row, hf, hc⟩
    exact ⟨row, ⟨Table.mem_of_find hf, hc⟩, Table.key_of_find hf⟩

theorem nodup_waiting (since : Time) (db : Db) :
    ((db.dispatches.rows.filter (·.Claimable since)).map (·.executionId)).Nodup :=
  (List.filter_sublist.map _).nodup db.dispatches.nodup

-- Counts waiting dispatches by their rows.
theorem card_waiting {p : String → Prop} [DecidablePred p] {q : DispatchRow → Prop} [DecidablePred q]
    (h : ∀ row ∈ db.dispatches.rows, p row.executionId ↔ q row) :
    ((waiting since db).filter p).card = db.dispatches.rows.countP fun row => row.Claimable since ∧ q row := by
  have hf : (waiting since db).filter p =
      (((db.dispatches.rows.filter (·.Claimable since)).filter fun row => q row).map (·.executionId)).toFinset := by
    ext e
    simp only [waiting, Finset.mem_filter, List.mem_toFinset, List.mem_map, List.mem_filter, decide_eq_true_eq]
    constructor
    · rintro ⟨⟨row, hm, rfl⟩, hp⟩
      exact ⟨row, ⟨hm, (h row hm.left).mp hp⟩, rfl⟩
    · rintro ⟨row, ⟨hm, hq⟩, rfl⟩
      exact ⟨⟨row, hm, rfl⟩, (h row hm.left).mpr hq⟩
  have hn : (((db.dispatches.rows.filter (·.Claimable since)).filter fun row => q row).map (·.executionId)).Nodup :=
    (List.filter_sublist.map _).nodup (nodup_waiting since db)
  rw [hf, List.toFinset_card_of_nodup hn, List.length_map, List.filter_filter, List.countP_eq_length_filter]
  simp [Bool.and_comm]

-- No lease expires between two times.
def Unexpiring (since till : Time) (db : Db) : Prop :=
  ∀ row ∈ db.dispatches.rows, row.status = .processing → ∀ t ∈ row.lockedUntil, t < since ∨ till ≤ t

theorem Unexpiring.claimable_iff (h : Unexpiring since till db) (hf : db.dispatches.find e = some row)
    (hs : since ≤ now) (ht : now ≤ till) : row.Claimable now ↔ row.Claimable since := by
  apply or_congr_right
  apply and_congr_right
  intro hp
  constructor
  · intro ⟨t, hm, hlt⟩
    refine ⟨t, hm, (h row (Table.mem_of_find hf) hp t hm).resolve_right fun hle => ?_⟩
    exact absurd (Int.lt_of_lt_of_le hlt ht) (Int.not_lt.mpr hle)
  · exact fun ⟨t, hm, hlt⟩ => ⟨t, hm, Int.lt_of_lt_of_le hlt hs⟩

-- The dispatches of a later database are those of an earlier one, up to what is written again.
def Descends (db₀ db : Db) : Prop :=
  ∀ e row, db.dispatches.find e = some row → ∃ row₀, db₀.dispatches.find e = some row₀ ∧ row₀.Same row

def ageOf (db₀ : Db) (e : String) : Time :=
  ((db₀.dispatches.find e).map (·.createdAt)).getD 0

-- Whether a dispatch gets into the queue.
def Good (bad : String → Bool) (db₀ : Db) (e : String) : Prop :=
  ∀ row ∈ db₀.dispatches.find e, ¬row.Fails bad

instance (bad : String → Bool) (db₀ : Db) : DecidablePred (Good bad db₀) :=
  fun _ => inferInstanceAs (Decidable (∀ row ∈ _, _))

section
variable {bad : String → Bool} {since : Time} {db₀ : Db} {g g' : platform.Global} {publisher : ExecutionOutboxPublisher}

theorem Descends.age (h : Descends db₀ db) (hf : db.dispatches.find e = some row) : ageOf db₀ e = row.createdAt := by
  have ⟨row₀, hf₀, hs⟩ := h e row hf
  simp [ageOf, hf₀, hs.createdAt]

theorem Descends.good_iff (h : Descends db₀ db) (hf : db.dispatches.find e = some row) :
    Good bad db₀ e ↔ ¬row.Fails bad := by
  have ⟨row₀, hf₀, hs⟩ := h e row hf
  have he := (Table.key_of_find hf).trans (Table.key_of_find hf₀).symm
  simp [Good, hf₀, DispatchRow.Fails, hs.queueName, he]

theorem ageOf_eq (hf : db₀.dispatches.find e = some row) : ageOf db₀ e = row.createdAt := by
  simp [ageOf, hf]

theorem good_iff (hf : db₀.dispatches.find e = some row) : Good bad db₀ e ↔ ¬row.Fails bad := by
  simp [Good, hf]

-- What a publisher finds before each call.
structure Ready (since till : Time) (db₀ db : Db) : Prop where
  descends   : Descends db₀ db
  unexpiring : Unexpiring since till db

theorem Settled.claimable_iff (h : Settled bad row row') : row'.Claimable since ↔ row.Fails bad := by
  by_cases hf : row.Fails bad
  case pos => simp [DispatchRow.Claimable, h.pending hf, hf]
  case neg => simp [DispatchRow.Claimable, h.dispatched hf, hf]

-- A claim takes the oldest of the dispatches that wait.
theorem Claim.batch {limit leaseMs : Int} (h : Claim (.exact fun now _ _ => since ≤ now) now limit leaseMs db claims db')
    (hr : Ready since till db₀ db) (hs : since ≤ now) (ht : now ≤ till) :
    (claims.map (·.executionId)).toFinset ⊆ waiting since db ∧
    (claims.map (·.executionId)).toFinset.card = min (clamp limit 1 100).toNat (waiting since db).card ∧
    ∀ x ∈ (claims.map (·.executionId)).toFinset, ∀ y ∈ waiting since db, y ∉ (claims.map (·.executionId)).toFinset →
      ageOf db₀ x ≤ ageOf db₀ y := by
  have ⟨rank, hp⟩ := h.oldest
  have ⟨_, _, hnd⟩ := h.took
  have he : db.dispatches.rows.filter (·.Claimable now) = db.dispatches.rows.filter (·.Claimable since) := by
    apply List.filter_congr
    intro row hm
    simpa using hr.unexpiring.claimable_iff (Table.find_of_mem hm) hs ht
  rw [he, ← List.map_take] at hp
  generalize hl : Statement.orderBy (·.createdAt) rank (db.dispatches.rows.filter (·.Claimable since)) = l at hp
  generalize (clamp limit 1 100).toNat = n at hp ⊢
  have hperm : l.Perm (db.dispatches.rows.filter (·.Claimable since)) := hl ▸ List.perm_insertionSort ..
  have hrow {row} (hm : row ∈ l) : db.dispatches.find row.executionId = some row ∧ row.Claimable since := by
    have := List.mem_filter.mp <| hperm.subset hm
    exact ⟨Table.find_of_mem this.left, by simpa using this.right⟩
  have hmem e : e ∈ (claims.map (·.executionId)).toFinset ↔ ∃ row ∈ l.take n, row.executionId = e := by
    rw [List.mem_toFinset, hp.mem_iff, List.mem_map]
  refine ⟨?subset, ?card, ?oldest⟩
  case subset =>
    intro e hm
    have ⟨row, hm, he⟩ := (hmem e).mp hm
    have ⟨hf, hc⟩ := hrow (List.mem_of_mem_take hm)
    exact mem_waiting.mpr ⟨row, he ▸ hf, hc⟩
  case card =>
    have hw : (waiting since db).card = l.length := by
      rw [waiting, List.toFinset_card_of_nodup (nodup_waiting since db), List.length_map, hperm.length_eq]
    rw [List.toFinset_card_of_nodup hnd, hp.length_eq, List.length_map, List.length_take, hw]
  case oldest =>
    intro x hx y hy hn
    have ⟨row, hm, hx⟩ := (hmem x).mp hx
    have ⟨row', hf', hc'⟩ := mem_waiting.mp hy
    have hm' : row' ∈ l := hperm.symm.subset <| List.mem_filter.mpr ⟨Table.mem_of_find hf', by simpa using hc'⟩
    rw [← List.take_append_drop n l] at hm'
    have hm' : row' ∈ l.drop n := (List.mem_append.mp hm').resolve_left fun hm' =>
      hn <| (hmem y).mpr ⟨row', hm', Table.key_of_find hf'⟩
    have hsorted : l.Pairwise fun r r' => r.createdAt ≤ r'.createdAt := hl ▸ Statement.pairwise_orderBy _
    rw [← List.take_append_drop n l, List.pairwise_append] at hsorted
    rw [hr.descends.age hf', hr.descends.age <| hx ▸ (hrow (List.mem_of_mem_take hm)).left]
    exact hsorted.right.right row hm row' hm'

-- A call is a round for the dispatches that wait.
theorem publishOnce_round (h : publisher.publishOnce.Runs ((publishing bad since).semantics pid) g res g')
    (hr : Ready since g.clock db₀ g.db) :
    g'.clock = g.clock ∧ Ready since g.clock db₀ g'.db ∧
    ∃ batch, Batches.Round (ageOf db₀) (Good bad db₀) (clamp publisher.batchSize 1 100).toNat (waiting since g.db) batch
        (waiting since g'.db) ∧
      (∀ e ∉ batch, g'.db.dispatches.find e = g.db.dispatches.find e) ∧
      ∀ e ∈ batch, Good bad db₀ e → ∃ row, g'.db.dispatches.find e = some row ∧ row.status = .dispatched := by
  have ⟨_, now, claims, db', hs, hn, hc, hproc⟩ := publishOnce_processed h
  have ⟨hsub, hcard, hold⟩ := hc.batch hr hs hn
  have hin {e} (hm : e ∈ claims.map (·.executionId)) :
      ∃ row row', g.db.dispatches.find e = some row ∧ g'.db.dispatches.find e = some row' ∧ Settled bad row row' := by
    have ⟨claim, hm', he⟩ := List.mem_map.mp hm
    have ⟨row, hf, _⟩ := mem_waiting.mp <| hsub <| List.mem_toFinset.mpr hm
    have ⟨row', hf', hst⟩ := hproc.settled claim hm' row (he ▸ hf)
    exact ⟨row, row', hf, he ▸ hf', hst⟩
  refine ⟨hproc.clock, ⟨?descends, ?unexpiring⟩, (claims.map (·.executionId)).toFinset, ⟨hsub, hcard, hold, ?next⟩, ?_, ?_⟩
  case descends =>
    intro e row' hf'
    by_cases hm : e ∈ claims.map (·.executionId)
    case pos =>
      have ⟨row, row'', hf, hf'', hst⟩ := hin hm
      cases hf'.symm.trans hf''
      have ⟨row₀, hf₀, hsame⟩ := hr.descends e row hf
      exact ⟨row₀, hf₀, hsame.trans hst.same⟩
    case neg => exact hr.descends e row' (hproc.others e hm ▸ hf')
  case unexpiring =>
    intro row' hm' hp
    have hf' := Table.find_of_mem hm'
    by_cases hm : row'.executionId ∈ claims.map (·.executionId)
    case pos =>
      have ⟨row, row'', hf, hf'', hst⟩ := hin hm
      cases hf'.symm.trans hf''
      by_cases hfail : row.Fails bad
      case pos => cases hp.symm.trans (hst.pending hfail)
      case neg => cases hp.symm.trans (hst.dispatched hfail)
    case neg => exact hr.unexpiring row' (Table.mem_of_find <| hproc.others _ hm ▸ hf') hp
  case next =>
    intro e
    by_cases hm : e ∈ claims.map (·.executionId)
    case pos =>
      have ⟨row, row', hf, hf', hst⟩ := hin hm
      have hw := hsub <| List.mem_toFinset.mpr hm
      rw [mem_waiting]
      simp only [hf', Option.some.injEq, exists_eq_left', hst.claimable_iff, hw, List.mem_toFinset, hm, true_and,
        hr.descends.good_iff hf, not_not]
    case neg => simp only [mem_waiting, hproc.others e hm, List.mem_toFinset, hm, false_and, not_false_eq_true, and_true]
  case refine_1 => exact fun e hm => hproc.others e fun h => hm <| List.mem_toFinset.mpr h
  case refine_2 =>
    intro e hm hg
    have ⟨row, row', hf, hf', hst⟩ := hin <| List.mem_toFinset.mp hm
    exact ⟨row', hf', hst.dispatched <| (hr.descends.good_iff hf).mp hg⟩

-- What a number of calls leads to.
structure Progress (bad : String → Bool) (since : Time) (publisher : ExecutionOutboxPublisher) (n : Nat)
    (g g' : platform.Global) : Prop where
  clock      : g'.clock = g.clock
  ready      : Ready since g.clock g.db g'.db
  rounds     : Batches.Rounds (ageOf g.db) (Good bad g.db) (clamp publisher.batchSize 1 100).toNat n
               (waiting since g.db) (waiting since g'.db)
  dispatched : ∀ e ∈ waiting since g.db, Good bad g.db e → e ∉ waiting since g'.db →
               ∃ row, g'.db.dispatches.find e = some row ∧ row.status = .dispatched
  unchanged  : ∀ e ∈ waiting since g'.db, Good bad g.db e → g'.db.dispatches.find e = g.db.dispatches.find e

theorem Publishes.progress (h : Publishes bad since publisher pid n g g') (hu : Unexpiring since g.clock g.db) :
    Progress bad since publisher n g g' := by
  induction h
  case zero g =>
    have hr : Ready since g.clock g.db g.db := ⟨fun e row hf => ⟨row, hf, .refl row⟩, hu⟩
    exact ⟨rfl, hr, .zero, fun e hm _ hn => absurd hm hn, fun _ _ _ => rfl⟩
  case succ hp ih =>
    have ih := ih hu
    have ⟨hc, hr, batch, hround, hsame, hdone⟩ := publishOnce_round hp (ih.clock ▸ ih.ready)
    constructor
    case clock      => exact hc.trans ih.clock
    case ready      => exact ih.clock ▸ hr
    case rounds     => exact .succ ih.rounds hround
    case dispatched =>
      intro e hm hg hn
      by_cases hb : e ∈ batch
      case pos => exact hdone e hb hg
      case neg =>
        rw [hsame e hb]
        exact ih.dispatched e hm hg fun hw => hn <| (hround.next e).mpr ⟨hw, fun h => hb h.left⟩
    case unchanged =>
      intro e hm hg
      rw [hsame e <| hround.not_mem_batch hm hg]
      exact ih.unchanged e ((hround.next e).mp hm).left hg

theorem Publishes.exists (publisher : ExecutionOutboxPublisher) (pid : Pid) (hs : since ≤ g.clock) (n : Nat) :
    ∃ g', Publishes bad since publisher pid n g g' ∧ g'.clock = g.clock := by
  induction n
  case zero => exact ⟨g, .zero, rfl⟩
  case succ ih =>
    have ⟨g₁, hp, hc⟩ := ih
    have hb (a : Action) : ∃ amb : Ambient, refusing bad a amb := by
      cases a
      case latestEvent => exact ⟨.calm, rfl⟩
      case add job     =>
        refine ⟨{ Ambient.calm with failure := if bad job.executionId then some "" else none }, ?_⟩
        cases h : bad job.executionId <;> simp [refusing, h]
    have ⟨res, g', hr⟩ : ∃ res g', publisher.publishOnce.Runs ((publishing bad since).semantics pid) g₁ res g' :=
      exists_alone publisher.publishOnce pid (hc ▸ hs) (fun _ => ⟨.calm, le_refl since, rfl⟩) hb
    have ⟨hok, _, _, _, _, _, _, hproc⟩ := publishOnce_processed hr
    cases res
    case error => cases hok
    case ok    => exact ⟨g', hp.succ hr, hproc.clock.trans hc⟩

theorem card_good (hf : db.dispatches.find e = some row) :
    ((waiting since db).filter fun e' => ageOf db e' ≤ ageOf db e ∧ Good bad db e').card =
    db.dispatches.rows.countP fun r => r.Claimable since ∧ r.createdAt ≤ row.createdAt ∧ ¬r.Fails bad := by
  apply card_waiting
  intro r hr
  have hf' := Table.find_of_mem hr
  rw [ageOf_eq hf, ageOf_eq hf', good_iff hf']

theorem card_failing (hf : db.dispatches.find e = some row) :
    ((waiting since db).filter fun e' => ageOf db e' ≤ ageOf db e ∧ ¬Good bad db e').card =
    db.dispatches.rows.countP fun r => r.Claimable since ∧ r.createdAt ≤ row.createdAt ∧ r.Fails bad := by
  apply card_waiting
  intro r hr
  have hf' := Table.find_of_mem hr
  rw [ageOf_eq hf, ageOf_eq hf', good_iff hf', not_not]

theorem card_failing_older (hf : db.dispatches.find e = some row) :
    ((waiting since db).filter fun e' => ageOf db e' < ageOf db e ∧ ¬Good bad db e').card =
    db.dispatches.rows.countP fun r => r.Claimable since ∧ r.createdAt < row.createdAt ∧ r.Fails bad := by
  apply card_waiting
  intro r hr
  have hf' := Table.find_of_mem hr
  rw [ageOf_eq hf, ageOf_eq hf', good_iff hf', not_not]

-- A dispatch that is preceded by a batch of failing ones is never touched.
theorem Progress.blocked (h : Progress bad since publisher n g g') (hm : row ∈ g.db.dispatches.rows)
    (hc : row.Claimable since) (hn : ¬row.Fails bad)
    (hb : (clamp publisher.batchSize 1 100).toNat ≤
      g.db.dispatches.rows.countP fun r => r.Claimable since ∧ r.createdAt < row.createdAt ∧ r.Fails bad) :
    g'.db.dispatches.find row.executionId = some row := by
  have hf := Table.find_of_mem hm
  have hw : row.executionId ∈ waiting since g.db := mem_waiting.mpr ⟨row, hf, hc⟩
  rw [h.unchanged _ (h.rounds.blocked hw <| card_failing_older hf ▸ hb) <| (good_iff hf).mpr hn, hf]

-- Other dispatches get into the queue in time.
theorem Progress.served (h : Progress bad since publisher n g g') (hm : row ∈ g.db.dispatches.rows)
    (hc : row.Claimable since) (hn : ¬row.Fails bad)
    (hb : (g.db.dispatches.rows.countP fun r => r.Claimable since ∧ r.createdAt ≤ row.createdAt ∧ ¬r.Fails bad) ≤
      n * ((clamp publisher.batchSize 1 100).toNat -
        g.db.dispatches.rows.countP fun r => r.Claimable since ∧ r.createdAt ≤ row.createdAt ∧ r.Fails bad)) :
    ∃ row', g'.db.dispatches.find row.executionId = some row' ∧ row'.status = .dispatched := by
  have hf := Table.find_of_mem hm
  have hg : Good bad g.db row.executionId := (good_iff hf).mpr hn
  rw [← card_good hf, ← card_failing hf] at hb
  exact h.dispatched _ (mem_waiting.mpr ⟨row, hf, hc⟩) hg <| h.rounds.served hg hb

end

-- A failing dispatch takes up a place in each batch until it succeeds. So younger ones have to wait for longer, and
-- for good if there are as many as places in a batch.
theorem failures_delay_the_younger {bad : String → Bool} {since : Time} {g : platform.Global}
    {options : ExecutionOutboxPublisherOptions} {pid : Pid} (hs : since ≤ g.clock) (hu : Unexpiring since g.clock g.db) :
    (∀ n, ∃ g', Publishes bad since (.new options) pid n g g') ∧
    ∀ n g' row, Publishes bad since (.new options) pid n g g' →
      row ∈ g.db.dispatches.rows → row.Claimable since → ¬row.Fails bad →
      ((g.db.dispatches.rows.countP fun r => r.Claimable since ∧ r.createdAt ≤ row.createdAt ∧ ¬r.Fails bad) ≤
          n * ((clamp (options.batchSize.getD 20) 1 100).toNat -
            g.db.dispatches.rows.countP fun r => r.Claimable since ∧ r.createdAt ≤ row.createdAt ∧ r.Fails bad) →
        ∃ row', g'.db.dispatches.find row.executionId = some row' ∧ row'.status = .dispatched) ∧
      ((clamp (options.batchSize.getD 20) 1 100).toNat ≤
          (g.db.dispatches.rows.countP fun r => r.Claimable since ∧ r.createdAt < row.createdAt ∧ r.Fails bad) →
        g'.db.dispatches.find row.executionId = some row) := by
  have hclamp : clamp (ExecutionOutboxPublisher.new options).batchSize 1 100 = clamp (options.batchSize.getD 20) 1 100 := by
    simp only [ExecutionOutboxPublisher.new, clamp]
    omega
  refine ⟨fun n => (Publishes.exists _ pid hs n).imp fun _ => And.left, fun n g' row h hm hc hn => ?_⟩
  rw [← hclamp]
  exact ⟨(h.progress hu).served hm hc hn, (h.progress hu).blocked hm hc hn⟩

namespace Sample

-- Two executions have been dispatched, and the queue does not take the job of the first one.
def backlog : platform.Global where
  db    := { Db.empty with dispatches := ⟨[.of "a" "logon.execution" 0, .of "b" "logon.execution" 1], by decide⟩ }
  world := .empty
  clock := 2
  log   := []

def refused : String → Bool :=
  (· = "a")

theorem backlog_unexpiring : Unexpiring 2 2 backlog.db := by
  intro row hm hp
  simp only [backlog, List.mem_cons, List.not_mem_nil, or_false] at hm
  obtain rfl | rfl := hm <;> cases hp

end Sample

open Sample in
theorem failures_delay_the_younger_backlog :
    ∃ g', Publishes refused 2 (.new ⟨some 2, none⟩) 0 1 backlog g' ∧
      ∃ row, g'.db.dispatches.find "b" = some row ∧ row.status = .dispatched := by
  have ⟨he, hp⟩ := @failures_delay_the_younger refused 2 backlog ⟨some 2, none⟩ 0 (le_refl _) backlog_unexpiring
  have ⟨g', h⟩ := he 1
  have hm : DispatchRow.of "b" "logon.execution" 1 ∈ backlog.db.dispatches.rows := by simp [backlog]
  exact ⟨g', h, (hp 1 g' _ h hm (by decide) (by decide)).left (by decide)⟩

-- With one place in a batch, two calls do not dispatch the second of two dispatches.
open Sample in
theorem failures_block_the_younger :
    (backlog.db.dispatches.rows.countP fun row => row.Claimable 2) = 2 ∧ ¬refused "b" ∧
    (∃ g', Publishes refused 2 (.new ⟨some 1, none⟩) 0 2 backlog g') ∧
    ∀ g', Publishes refused 2 (.new ⟨some 1, none⟩) 0 2 backlog g' →
      (g'.db.dispatches.find "b").map (·.status) = some .pending := by
  refine ⟨by decide, by decide, ?_, fun g' h => ?_⟩
  · exact (Publishes.exists (.new ⟨some 1, none⟩) 0 (le_refl backlog.clock) 2).imp fun _ => And.left
  · have hm : DispatchRow.of "b" "logon.execution" 1 ∈ backlog.db.dispatches.rows := by simp [backlog]
    have hf := (h.progress backlog_unexpiring).blocked hm (by decide) (by decide) (by decide)
    exact congrArg (Option.map (·.status)) hf

end Logon
