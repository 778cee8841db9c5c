import Logon.Progress

-- A call of `publishOnce` accounts for everything that it claims.

namespace Logon

open System Program ExecutionOutboxPublisher

-- The execution for which an operation calls the queue.
def enqueuedBy (o : platform.outer.Op) : Option String :=
  match (o : Call ⊕ Action) with
  | .inl _                => none
  | .inr (.latestEvent _) => none
  | .inr (.add job)       => some job.executionId

def enqueued (ops : List platform.outer.Op) : List String :=
  ops.filterMap enqueuedBy

theorem enqueued_concat (ops : List platform.outer.Op) (o : platform.outer.Op) :
    enqueued (ops ++ [o]) = enqueued ops ++ (enqueuedBy o).toList := by
  rw [enqueued, List.filterMap_append, List.filterMap_cons]
  cases enqueuedBy o <;> rfl

-- Whether the queue is called for a claim at all.
def DispatchClaim.Enqueues (claim : DispatchClaim) : Prop :=
  claim.queueName = EXECUTION_QUEUE_NAME ∧ ¬blank claim.executionId

instance : DecidablePred DispatchClaim.Enqueues :=
  fun claim => inferInstanceAs (Decidable (claim.queueName = _ ∧ ¬blank claim.executionId))

-- What becomes of a dispatch that is claimed and published.
inductive Published (bad : String → Bool) (row : DispatchRow) : DispatchRow → Prop
  | dispatched {t} :
    ¬row.Fails bad → Published bad row { row with
      status := .dispatched, attempts := row.attempts + 1, lockedUntil := none, dispatchedAt := some t, lastError := none }
  | failed {error} :
    row.Fails bad → Published bad row { row with
      status := .pending, attempts := row.attempts + 1, lockedUntil := none, lastError := some error }

-- What a call does to the database.
structure Cycle (bad : String → Bool) (size : Nat) (now : Time) (claimed : List DispatchRow) (db db' : Db) : Prop where
  batch   : Batches.Oldest (·.createdAt) size (db.dispatches.rows.filter (·.Claimable now)) claimed
  settled : ∀ row ∈ claimed, ∃ row', db'.dispatches.find row.executionId = some row' ∧ Published bad row row'
  others  : ∀ e ∉ claimed.map (·.executionId), db'.dispatches.find e = db.dispatches.find e
  tables  : db' = { db with dispatches := db'.dispatches }

section
variable {M : Semantics platform.outer platform.Global KernelError} {s s' : platform.Global × List platform.outer.Op}

theorem transaction_enqueues {c : Call} {res : Except KernelError c.Result} (h : (transaction c).Runs M.recorded s res s') :
    enqueued s'.snd = enqueued s.snd := by
  have hu : (transaction c).Uses fun o => enqueuedBy o = none := ⟨rfl, Uses.ofExcept⟩
  refine h.keeps (P := fun s' => enqueued s'.snd = enqueued s.snd) hu ?_ rfl
  intro o s₁ r s₂ ho hs he
  rw [hs.right, enqueued_concat, ho, he]
  exact List.append_nil _

variable (hM : ∀ o s e, ¬M.fails o s e)
include hM

theorem enqueue_enqueues (h : (enqueue e).Runs M.recorded s res s') :
    enqueued s'.snd = enqueued s.snd ++ if blank e then [] else [e] := by
  unfold enqueue at h
  split at h
  case isTrue hb  => simp [h.right, hb]
  case isFalse hb =>
    obtain ⟨r, s₁, hs, h⟩ | ⟨_, hf, _⟩ := h
    case inr => exact absurd hf (hM _ _ _)
    case inl =>
      have hr : s' = s₁ := by cases r <;> exact h.right
      rw [hr, if_neg hb]
      exact (congrArg enqueued hs.right).trans <| enqueued_concat _ _

theorem publish_enqueues (h : (publish claim).Runs M.recorded s res s') :
    enqueued s'.snd = enqueued s.snd ++ if claim.Enqueues then [claim.executionId] else [] := by
  have body {res : Except KernelError Bool} {s' : platform.Global × List platform.outer.Op}
      (h : (if claim.queueName ≠ EXECUTION_QUEUE_NAME then Program.throw (.unsupportedQueue claim.queueName) else do
        enqueue claim.executionId
        transaction (.markDispatchSucceeded claim)
        return true : Process Bool).Runs M.recorded s res s') :
      enqueued s'.snd = enqueued s.snd ++ if claim.Enqueues then [claim.executionId] else [] := by
    split at h
    case isTrue hq  => simp [h.right, DispatchClaim.Enqueues, hq]
    case isFalse hq =>
      have hq : claim.queueName = EXECUTION_QUEUE_NAME := not_not.mp hq
      have he {res : Except KernelError Unit} {s₁ : platform.Global × List platform.outer.Op}
          (h : (enqueue claim.executionId).Runs M.recorded s res s₁) :
          enqueued s₁.snd = enqueued s.snd ++ if claim.Enqueues then [claim.executionId] else [] := by
        rw [enqueue_enqueues hM h]
        by_cases hb : blank claim.executionId <;> simp [DispatchClaim.Enqueues, hq, hb]
      obtain ⟨_, s₁, h₁, h⟩ | ⟨_, _, h⟩ := runs_bind h
      case inr => exact he h
      case inl =>
        obtain ⟨_, s₂, h₂, h⟩ | ⟨_, _, h⟩ := runs_bind h
        case inr => exact (transaction_enqueues h).trans (he h₁)
        case inl => exact h.right ▸ (transaction_enqueues h₂).trans (he h₁)
  obtain ⟨_, _, h⟩ | ⟨_, s₁, h₁, h⟩ | ⟨_, _, _, o, s₁, hf⟩ := h.tryCatch_cases
  case inl => exact body h
  case inr.inr => exact absurd hf (hM o s₁.fst _)
  case inr.inl =>
    obtain ⟨_, s₂, h₂, h⟩ | ⟨_, _, h⟩ := runs_bind h
    case inr => exact (transaction_enqueues h).trans (body h₁)
    case inl => exact h.right ▸ (transaction_enqueues h₂).trans (body h₁)

end

section
variable {bad : String → Bool} {since : Time} {s s' : platform.Global × List platform.outer.Op}

theorem publishAll_enqueues
    (h : (publishAll claims m n).Runs ((publishing bad since).semantics pid).recorded s res s') :
    enqueued s'.snd = enqueued s.snd ++ (claims.filter (·.Enqueues)).map (·.executionId) := by
  induction claims generalizing m n s
  case nil => simp [h.right]
  case cons claim claims ih =>
    obtain ⟨d, s₁, hp, h⟩ | ⟨_, _, hp⟩ := runs_bind h
    case inr => exact absurd hp.of_recorded publish_returns
    have hp := publish_enqueues (fun _ _ _ => id) hp
    have ih : enqueued s'.snd = enqueued s₁.snd ++ (claims.filter (·.Enqueues)).map (·.executionId) := by
      cases d
      case false => exact ih h
      case true  => exact ih h
    rw [ih, hp, List.append_assoc]
    by_cases hc : claim.Enqueues <;> simp [hc]

-- The rows that are claimed, as they have been before.
def rowsOf (db : Db) (claims : List DispatchClaim) : List DispatchRow :=
  (claims.map (·.executionId)).filterMap db.dispatches.find

section
variable {limit leaseMs : Int} {claims : List DispatchClaim} {db db' : Db}
  (h : Claim (.exact fun now _ _ => since ≤ now) now limit leaseMs db claims db')
include h

theorem Claim.map_rowsOf : (rowsOf db claims).map (·.executionId) = claims.map (·.executionId) := by
  refine Table.map_filterMap_find fun e he => ?_
  have ⟨claim, hm, he⟩ := List.mem_map.mp he
  have ⟨row, _, ht⟩ := h.took.left claim hm
  simp [← he, ht.find]

theorem Claim.oldest_rowsOf :
    Batches.Oldest (·.createdAt) (clamp limit 1 100).toNat (db.dispatches.rows.filter (·.Claimable now))
      (rowsOf db claims) := by
  have ⟨rank, hp⟩ := h.oldest
  rw [← List.map_take] at hp
  have hl := List.perm_insertionSort (fun r r' : DispatchRow => r.createdAt < r'.createdAt ∨
    r.createdAt = r'.createdAt ∧ rank r ≤ rank r') (db.dispatches.rows.filter (·.Claimable now))
  refine .of_sorted (Statement.pairwise_orderBy _) hl (db.dispatches.nodup.of_map _ |>.filter _) ?_
  refine Table.filterMap_find_perm hp fun row hm => ?_
  exact (List.mem_filter.mp <| hl.subset <| List.mem_of_mem_take hm).left

theorem Claim.countP_rowsOf (bad : String → Bool) :
    (rowsOf db claims).countP (¬·.Fails bad) = claims.countP (¬·.Fails bad) := by
  rw [rowsOf, List.filterMap_map, List.countP_filterMap]
  refine List.countP_congr fun claim hm => ?_
  have ⟨row, _, ht⟩ := h.took.left claim hm
  simp [ht.find, DispatchClaim.fails_iff ht.find (by rw [ht.of]; rfl)]

end

-- What becomes of the claimed rows, once all claims are settled.
theorem Publication.cycle {limit leaseMs : Int} {claims : List DispatchClaim} {g g' : platform.Global}
    (hc : Claim (.exact fun now _ _ => since ≤ now) now limit leaseMs g.db claims db')
    (hp : Publication bad claims 0 0 ((Call.claimDispatches limit leaseMs).commitTo pid claims now db' g) counts g') :
    Cycle bad (clamp limit 1 100).toNat now (rowsOf g.db claims) g.db g'.db where
  batch   := hc.oldest_rowsOf
  settled := by
    intro row hm
    have ⟨e, he, hf⟩ := List.mem_filterMap.mp hm
    have ⟨claim, hm, hc'⟩ := List.mem_map.mp he
    subst hc'
    have he := Table.key_of_find hf
    have ⟨_, _, ht⟩ := hc.took.left claim hm
    cases hf.symm.trans ht.find
    have ⟨row', hf', hs⟩ := hp.settled claim hm _ ht.find'
    refine ⟨row', he ▸ hf', ?_⟩
    cases hs
    case success hn => exact .dispatched hn
    case failure hn => exact .failed hn
  others  := by
    intro e he
    rw [hc.map_rowsOf] at he
    exact (hp.aside.others e he).trans (hc.took.right.left e he)
  tables  := by
    rw [hp.aside.tables]
    exact congrArg (fun db : Db => { db with dispatches := g'.db.dispatches }) hc.tables

end

theorem Published.dispatched_iff (h : Published bad row row') : row'.status = .dispatched ↔ ¬row.Fails bad := by
  cases h
  case dispatched hn => simp [hn]
  case failed hf     => simp [hf]

theorem Cycle.countP_dispatched (h : Cycle bad size now claimed db db') :
    (claimed.countP fun row => (db'.dispatches.find row.executionId).any (·.status = .dispatched)) =
    claimed.countP (¬·.Fails bad) := by
  refine List.countP_congr fun row hm => ?_
  have ⟨row', hf, hp⟩ := h.settled row hm
  simp [hf, hp.dispatched_iff]

theorem publish_cycles_account_for_claims {bad : String → Bool} {since : Time} {g : platform.Global}
    (hs : since ≤ g.clock) (options : ExecutionOutboxPublisherOptions) (pid : Pid) :
    (∃ res s', (ExecutionOutboxPublisher.new options).publishOnce.Runs
      ((publishing bad since).semantics pid).recorded (g, []) res s') ∧
    ∀ res s', (ExecutionOutboxPublisher.new options).publishOnce.Runs
        ((publishing bad since).semantics pid).recorded (g, []) res s' →
      ∃ now claimed result, since ≤ now ∧ now ≤ g.clock ∧
        Cycle bad (clamp (options.batchSize.getD 20) 1 100).toNat now claimed g.db s'.fst.db ∧
        (enqueued s'.snd).Nodup ∧ (∀ e ∈ enqueued s'.snd, ∃ row ∈ claimed, row.executionId = e) ∧
        res = .ok result ∧ result.claimed = claimed.length ∧ result.claimed = result.dispatched + result.failed ∧
        result.dispatched =
          claimed.countP fun row => (s'.fst.db.dispatches.find row.executionId).any (·.status = .dispatched) := by
  have hclamp : clamp (ExecutionOutboxPublisher.new options).batchSize 1 100 = clamp (options.batchSize.getD 20) 1 100 := by
    simp only [ExecutionOutboxPublisher.new, clamp]
    omega
  refine ⟨?_, fun res s' h => ?_⟩
  case refine_1 =>
    obtain ⟨g', hp, _⟩ : ∃ g', Publishes bad since (.new options) pid 1 g g' ∧ _ := Publishes.exists (.new options) pid hs 1
    cases hp
    case succ hp h =>
      cases hp
      obtain ⟨ops, h⟩ := h.exists_recorded []
      exact ⟨_, _, h⟩
  case refine_2 =>
    obtain ⟨claims, s₁, ht, h⟩ | ⟨e, _, h⟩ := runs_bind h
    case inr => exact absurd h.of_recorded <| transaction_returns (.claimDispatches _ _) claimDispatches_returns
    have he := transaction_enqueues ht
    have done {counts s''} (h : (publishAll claims 0 0).Runs ((publishing bad since).semantics pid).recorded s₁ counts s'') :=
      claims_runs ht.of_recorded h.of_recorded
    obtain ⟨counts, s₂, h, rfl, rfl⟩ | ⟨e, _, h⟩ := runs_bind h
    case inr =>
      obtain ⟨_, _, _, _, _, _, hp⟩ := done h
      cases hp.result
    case inl =>
      obtain ⟨now, db', hs, hn, hc, hg, hp⟩ := done h
      have hcycle := Publication.cycle hc (hg ▸ hp)
      have hlen : (rowsOf g.db claims).length = claims.length := by
        simpa using congrArg List.length hc.map_rowsOf
      have hq : enqueued s'.snd = (claims.filter (·.Enqueues)).map (·.executionId) :=
        (publishAll_enqueues h).trans <| he ▸ List.nil_append _
      have hsub : (enqueued s'.snd).Sublist ((rowsOf g.db claims).map (·.executionId)) := by
        rw [hq, hc.map_rowsOf]
        exact List.filter_sublist.map _
      have hcount := Except.ok.inj hp.result
      refine ⟨now, rowsOf g.db claims, _, hs, hn, hclamp ▸ hcycle, ?_, ?_, rfl, hlen.symm, ?_, ?_⟩
      · exact hsub.nodup <| hc.map_rowsOf ▸ hc.took.right.right
      · exact fun e hm => List.mem_map.mp <| hsub.subset hm
      · rw [hcount, List.length_eq_countP_add_countP (·.Fails bad)]
        simp [Nat.add_comm]
      · rw [hcycle.countP_dispatched, hcount]
        simpa using (hc.countP_rowsOf bad).symm

open Sample in
theorem publish_cycles_account_for_claims_backlog :
    ∃ res s' result, (ExecutionOutboxPublisher.new ⟨some 2, none⟩).publishOnce.Runs
        ((publishing refused 2).semantics 0).recorded (backlog, []) res s' ∧
      res = .ok result ∧ result.claimed = 2 ∧ (enqueued s'.snd).Nodup := by
  have ⟨⟨res, s', h⟩, ha⟩ :=
    @publish_cycles_account_for_claims refused 2 backlog (le_refl backlog.clock) ⟨some 2, none⟩ 0
  have ⟨now, claimed, result, hs, hn, hc, he, _, hr, hl, _⟩ := ha res s' h
  have hn : now = 2 := Int.le_antisymm hn hs
  refine ⟨res, s', result, h, hr, ?_, he⟩
  rw [hl, hc.batch.length, hn]
  rfl

end Logon
