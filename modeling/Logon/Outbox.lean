import Logon.Loop

-- The outbox loses no dispatch, and publishers do not get in each other's way unless one of them gives up a
-- dispatch that is not its own any more.

namespace Logon

open System

variable {P : Premise} {now : Time} {db db' : Db}

-- The claim of an execution's dispatch that a transaction has made.
def claimOf (e : String) : platform.Commit → Option DispatchClaim
  | ⟨_, .claimDispatches _ _, claims, _⟩ => claims.find? (·.executionId = e)
  | _                                    => none

-- The lease with which a transaction claims.
def leaseOf : platform.Commit → Int
  | ⟨_, .claimDispatches _ leaseMs, _, _⟩ => clamp leaseMs 1000 300000
  | _                                     => 0

theorem leaseOf_le (entry : platform.Commit) : leaseOf entry ≤ 300000 := by
  unfold leaseOf
  split
  · unfold clamp; omega
  · decide

-- What a transaction does to the dispatch of an execution.
inductive Touches (entry : platform.Commit) (e : String) : Option DispatchRow → Option DispatchRow → Prop
  | same {row} :
    claimOf e entry = none → Touches entry e row row
  | created :
    claimOf e entry = none → Touches entry e none (some (.of e "logon.execution" entry.startedAt))
  | claimed {row} :
    row.Claimable entry.startedAt → claimOf e entry = some (.of (row.claim entry.startedAt (leaseOf entry))) →
    Touches entry e (some row) (some (row.claim entry.startedAt (leaseOf entry)))
  | succeeded {row claim} :
    entry.call = Call.markDispatchSucceeded claim → claim.executionId = e →
    Touches entry e (some row) (some (row.succeed entry.startedAt))
  | failed {row claim error} :
    entry.call = Call.markDispatchFailed claim error → claim.executionId = e →
    Touches entry e (some row) (some (row.fail (slice error 2000)))

-- Executions are dispatched by starting them, or by approving them.
def Dispatches (now : Time) (db db' : Db) : Prop :=
  db'.dispatches = db.dispatches ∨
  ∃ e, db.dispatches.find e = none ∧ db'.dispatches = db.dispatches.insert (.of e "logon.execution" now)

theorem Dispatches.touches {entry : platform.Commit} (h : Dispatches entry.startedAt db db')
    (hn : claimOf e entry = none) : Touches entry e (db.dispatches.find e) (db'.dispatches.find e) := by
  obtain h | ⟨e', hf, h⟩ := h
  case inl => exact h ▸ .same hn
  case inr =>
    rw [h, Table.find_insert]
    split
    case isFalse => exact .same hn
    case isTrue he =>
      replace he : e = e' := he
      subst he
      rw [hf]
      exact .created hn

theorem AwaitOrDispatch.dispatches' {request : ExecutionRequest} (h : AwaitOrDispatch P now request decision db db') :
    Dispatches now db db' := by
  cases h
  case dispatch hf => exact .inr ⟨_, hf, rfl⟩
  all_goals exact .inl rfl

theorem Create.dispatches {request : ExecutionRequest} (h : Create P now request db event db') :
    Dispatches now db db' := by
  cases h
  case mk ha hu =>
    cases hu
    exact ha.dispatches'

theorem Start.dispatches {request : ExecutionRequest} (h : Start P now request requestHash options db result db') :
    Dispatches now db db' := by
  cases h
  case unkeyed hc => exact hc.dispatches
  case reused     => exact .inl rfl
  case keyed hc   => exact hc.dispatches

theorem Decide.dispatches {decision : ApprovalDecision} (h : Decide P now decision db outcome db') :
    Dispatches now db db' := by
  cases h
  case expired hr => exact .inl hr.dispatches
  case decided hd hv hs hu =>
    subst hd
    cases hv
    cases hu
    obtain ⟨-, rfl⟩ | ⟨-, hf, rfl⟩ | ⟨-, -, rfl⟩ := hs
    · exact .inl rfl
    · exact .inr ⟨_, hf, rfl⟩
    · exact .inl rfl

theorem Sweep.dispatches (h : Sweep P now limit db result db') : db'.dispatches = db.dispatches := by
  cases h
  case mk hx hr =>
    rw [hr.unchanged Db.dispatches Reject.dispatches]
    exact hx.unchanged Db.dispatches fun _ _ _ _ => Expire.dispatches

theorem Claim.touches (h : Claim P now limit leaseMs db claims db') :
    Touches ⟨pid, Call.claimDispatches limit leaseMs, claims, now⟩ e (db.dispatches.find e) (db'.dispatches.find e) := by
  have ⟨ht, hs, _⟩ := h.took
  cases hc : claims.find? (·.executionId = e)
  case none =>
    have hn : e ∉ claims.map (·.executionId) := by
      simp only [List.find?_eq_none, decide_eq_true_eq] at hc
      exact fun hm => have ⟨claim, hm, he⟩ := List.mem_map.mp hm; hc claim hm he
    rw [hs e hn]
    exact .same hc
  case some claim =>
    have he : claim.executionId = e := by simpa using List.find?_some hc
    have ⟨row, hr, htk⟩ := ht claim (List.mem_of_find?_eq_some hc)
    rw [← he, htk.find, htk.find']
    exact .claimed hr <| by rw [he]; exact hc.trans (congrArg some htk.of)

theorem Call.Commits.touches {c : Call} {r : c.Result} (h : c.Commits P now db r db') :
    Touches ⟨pid, c, r, now⟩ e (db.dispatches.find e) (db'.dispatches.find e) := by
  cases c
  case start                 => exact Dispatches.touches (Start.dispatches h) rfl
  case decideApproval        => exact Dispatches.touches (Decide.dispatches h) rfl
  case expireApprovalsOnce   => exact Dispatches.touches (.inl (Sweep.dispatches h)) rfl
  case transition            => exact Dispatches.touches (.inl (by cases h.right; rfl)) rfl
  case fail                  => exact Dispatches.touches (.inl (by cases h.right; rfl)) rfl
  case claimDispatches       => exact Claim.touches h
  case markDispatchSucceeded claim =>
    cases h
    case none => exact .same rfl
    case some row hf =>
      rw [Db.succeedDispatch_dispatches, Table.find_modify]
      split
      case isFalse => exact .same rfl
      case isTrue he =>
        rw [he, hf]
        exact .succeeded rfl rfl
  case markDispatchFailed claim error =>
    cases h
    case none => exact .same rfl
    case some row hf =>
      rw [Db.failDispatch_dispatches, Table.find_modify]
      split
      case isFalse => exact .same rfl
      case isTrue he =>
        rw [he, hf]
        exact .failed rfl rfl

section
variable {log : List platform.Commit} {entry a : platform.Commit} {i : Nat}

theorem getElem?_concat (h : (log ++ [entry])[i]? = some a) : log[i]? = some a ∨ i = log.length ∧ a = entry := by
  rw [List.getElem?_append] at h
  split at h
  case isTrue  => exact .inl h
  case isFalse =>
    have ⟨hi, ha⟩ := List.getElem?_eq_some_iff.mp h
    simp only [List.length_singleton] at hi
    exact .inr ⟨by omega, by simpa [show i - log.length = 0 by omega] using ha.symm⟩

theorem getElem?_concat_of_some (h : log[i]? = some a) : (log ++ [entry])[i]? = some a := by
  have ⟨hi, _⟩ := List.getElem?_eq_some_iff.mp h
  rwa [List.getElem?_append_left hi]

-- The last transaction that has claimed a dispatch.
structure LastClaim (log : List platform.Commit) (e : String) (i : Nat) (a : platform.Commit) (claim : DispatchClaim) :
    Prop where
  find : log[i]? = some a
  made : claimOf e a = some claim
  last : ∀ j m, i < j → log[j]? = some m → claimOf e m = none

theorem LastClaim.concat (h : LastClaim log e i a claim) (hn : claimOf e entry = none) :
    LastClaim (log ++ [entry]) e i a claim where
  find := getElem?_concat_of_some h.find
  made := h.made
  last := by
    intro j m hj hm
    cases getElem?_concat hm
    case inl hm => exact h.last j m hj hm
    case inr hm => exact hm.right ▸ hn

theorem LastClaim.new (h : claimOf e entry = some claim) : LastClaim (log ++ [entry]) e log.length entry claim where
  find := by simp
  made := h
  last := by
    intro j m hj hm
    cases getElem?_concat hm
    case inl hm =>
      have ⟨hj', _⟩ := List.getElem?_eq_some_iff.mp hm
      omega
    case inr hm => omega

-- How the log accounts for what a row tells about the claims of its dispatch.
inductive Tracked (log : List platform.Commit) (e : String) : Option DispatchRow → Prop
  | unclaimed {row} :
    (∀ m ∈ log, claimOf e m = none) → (∀ r ∈ row, r.status ≠ .processing) → Tracked log e row
  | claimed {row i a claim} :
    LastClaim log e i a claim → row.attempts = claim.attempts →
    (row.status = .processing → row.lockedUntil = some (a.startedAt + leaseOf a)) → Tracked log e (some row)

theorem claimOf_succeeded (h : entry.call = Call.markDispatchSucceeded claim) : claimOf e entry = none := by
  obtain ⟨pid, c, r, now⟩ := entry
  cases h
  rfl

theorem claimOf_failed (h : entry.call = Call.markDispatchFailed claim error) : claimOf e entry = none := by
  obtain ⟨pid, c, r, now⟩ := entry
  cases h
  rfl

theorem Tracked.unclaimed_concat (hm : ∀ m ∈ log, claimOf e m = none) (hn : claimOf e entry = none)
    (hs : row.status ≠ .processing) : Tracked (log ++ [entry]) e (some row) := by
  apply Tracked.unclaimed
  · exact List.forall_mem_append.mpr ⟨hm, List.forall_mem_singleton.mpr hn⟩
  · intro r hr
    cases hr
    exact hs

-- A claim is not affected by what does not claim and does not touch the lease either.
theorem Tracked.keep (h : Tracked log e (some row)) (hn : claimOf e entry = none) (ha : row'.attempts = row.attempts)
    (hs : row'.status ≠ .processing) : Tracked (log ++ [entry]) e (some row') := by
  cases h
  case unclaimed hm _  => exact .unclaimed_concat hm hn hs
  case claimed hl hc _ => exact .claimed (hl.concat hn) (ha.trans hc) fun h => absurd h hs

theorem Tracked.step (h : Tracked log e row) (ht : Touches entry e row row') : Tracked (log ++ [entry]) e row' := by
  cases ht
  case same hn =>
    cases h
    case unclaimed hm hs => exact .unclaimed (List.forall_mem_append.mpr ⟨hm, List.forall_mem_singleton.mpr hn⟩) hs
    case claimed hl hc hx => exact .claimed (hl.concat hn) hc hx
  case created hn =>
    cases h
    case unclaimed hm _ => exact .unclaimed_concat hm hn DispatchStatus.noConfusion
  case claimed hc           => exact .claimed (.new hc) rfl fun _ => rfl
  case succeeded hc _       => exact h.keep (claimOf_succeeded hc) rfl DispatchStatus.noConfusion
  case failed hc _          => exact h.keep (claimOf_failed hc) rfl DispatchStatus.noConfusion

end

theorem Queue.has_add {q : Queue} {job : Job} : (q.add job).Has jobId ↔ q.Has jobId ∨ jobId = job.jobId := by
  unfold add
  split
  case isTrue h  => exact ⟨.inl, fun hj => hj.elim id fun he => he ▸ h⟩
  case isFalse   => simp [Has, or_and_right, exists_or, eq_comm]

theorem Action.has_act {a : Action} {q : Queue} (h : q.Has jobId) : (a.act amb db q).snd.Has jobId := by
  cases a
  case latestEvent =>
    simp only [act]
    split <;> exact h
  case add =>
    simp only [act]
    split
    case h_1 => exact Queue.has_add.mpr <| .inl h
    case h_2 =>
      split
      case isTrue  => exact Queue.has_add.mpr <| .inl h
      case isFalse => exact h

-- The jobs of the queue have different ids, which are those of their executions.
structure Queue.Sound (q : Queue) : Prop where
  nodup       : (q.jobs.map (·.jobId)).Nodup
  executionId : ∀ job ∈ q.jobs, job.executionId = job.jobId

theorem Queue.Sound.add {q : Queue} {job : Job} (h : q.Sound) (hj : job.executionId = job.jobId) : (q.add job).Sound where
  nodup := by
    unfold Queue.add
    split
    case isTrue    => exact h.nodup
    case isFalse hn =>
      rw [List.map_append, List.nodup_append]
      refine ⟨h.nodup, by simp, ?_⟩
      intro jobId hm jobId' hm' he
      have ⟨job', hm, hi⟩ := List.mem_map.mp hm
      simp only [List.map_cons, List.map_nil, List.mem_singleton] at hm'
      exact hn ⟨job', hm, hi.trans <| he.trans hm'⟩
  executionId job' hm := by
    cases Queue.mem_add hm
    case inl hm => exact h.executionId job' hm
    case inr he => exact he ▸ hj

theorem Queue.Sound.one {q : Queue} (h : q.Sound) (hh : q.Has e) :
    (q.jobs.filter fun job => job.jobId = e ∧ job.executionId = e).length = 1 := by
  have ⟨job, hm, hj⟩ := hh
  have hf : (⟨q.jobs, h.nodup⟩ : Table Job.jobId).rows.filter (·.jobId = e) = _ := Table.filter_key _ e
  have he : (q.jobs.filter fun job => job.jobId = e ∧ job.executionId = e) = q.jobs.filter (·.jobId = e) := by
    apply List.filter_congr
    intro job hm
    simp [h.executionId job hm]
  have hs : (⟨q.jobs, h.nodup⟩ : Table Job.jobId).find e = some job := hj ▸ Table.find_of_mem hm
  rw [he, hf, hs]
  rfl

theorem Action.sound_act {a : Action} {q : Queue} (h : q.Sound) (hj : ∀ job, a = .add job → job.executionId = job.jobId) :
    (a.act amb db q).snd.Sound := by
  cases a
  case latestEvent =>
    simp only [act]
    split <;> exact h
  case add job =>
    have ha := h.add (hj job rfl)
    simp only [act]
    cases amb.failure
    case none => exact ha
    case some =>
      cases amb.added
      case true  => exact ha
      case false => exact h

-- Nothing is dispatched that is not queued.
structure Filed (g : platform.Global) : Prop where
  queue   : g.world.Sound
  queued  : ∀ e row, g.db.dispatches.find e = some row → row.status = .dispatched → g.world.Has e
  tracked : ∀ e, Tracked g.log e (g.db.dispatches.find e)

-- What publishers rely on.
def outbox : Contract (loose platform Premise.none.answer fun _ _ => True) where
  Inv           := Filed
  Le g g'       := ∀ e, g.world.Has e → g'.world.Has e
  Guard _ o g   :=
    match o with
    | .inl (.markDispatchSucceeded claim) => g.world.Has claim.executionId
    | .inr (.add job)                     => job.executionId = job.jobId
    | _                                   => True
  le_refl _ _   := id
  le_trans h h' := fun e he => h' e (h e he)
  tick _ h      := ⟨⟨h.queue, h.queued, h.tracked⟩, fun _ => id⟩
  op {pid o g r g'} hi hg hd := by
    cases hd
    case throw => exact ⟨hi, fun _ => id⟩
    case fault => exact ⟨hi, fun _ => id⟩
    case commit c r now db' _ _ hr =>
      have ht e : Touches ⟨pid, c, r, now⟩ e (g.db.dispatches.find e) (db'.dispatches.find e) :=
        (Call.commits c hr).touches
      refine ⟨⟨hi.queue, fun e row hf hs => ?_, fun e => (hi.tracked e).step (ht e)⟩, fun _ => id⟩
      have ht := hf ▸ ht e
      generalize hr : g.db.dispatches.find e = row' at ht
      cases ht
      case same                => exact hi.queued e row hr hs
      case created             => cases hs
      case claimed             => cases hs
      case failed              => cases hs
      case succeeded row claim hc he =>
        cases hc
        exact he ▸ hg
    case act a amb _ =>
      have hle e : g.world.Has e → (a.act amb g.db g.world).snd.Has e := Action.has_act
      refine ⟨⟨?_, fun e row hf hs => hle e <| hi.queued e row hf hs, hi.tracked⟩, hle⟩
      exact Action.sound_act hi.queue fun job he => by subst he; exact hg

def outbox.publishing : Publishing outbox where
  Claimed _ _     := True
  Queued claim g  := g.world.Has claim.executionId
  claimed_le _ _  := trivial
  queued_le hl h  := hl _ h
  take _          := trivial
  taken _ _       := fun _ _ => trivial
  add _ _         := rfl
  added           := Queue.has_add.mpr <| .inr rfl
  succeed _ h     := h
  fail _ _        := trivial

theorem outbox.permits {host : Host} {o : platform.outer.Op} (h : ofService host o) : outbox.Guard pid o g := by
  cases o
  case inl c => cases c <;> trivial
  case inr a =>
    cases a
    case latestEvent => trivial
    case add         => exact h.elim

variable {host : Host} {s : platform.State}

theorem Reachable.filed (h : Reachable (Guard.clients host) s) : Filed s.toGlobal := by
  have ⟨clock, hs⟩ := h.atomic <| Guard.clients_meets host
  have hi : Filed (System.initial Db.empty Queue.empty clock : platform.State).toGlobal :=
    ⟨⟨List.nodup_nil, List.forall_mem_nil _⟩, fun _ _ hf => (by cases hf),
      fun _ => .unclaimed (List.forall_mem_nil _) fun _ hr => (by cases hr)⟩
  exact (Contract.sound hs
    (fun _ _ _ hc _ => hc.safe outbox.publishing fun _ _ _ ho _ => outbox.permits ho) hi nofun).left

-- A dispatch is in the queue, or will be claimed again.
theorem no_dispatch_is_lost (h : Reachable (Guard.clients host) s) (hf : s.db.dispatches.find e = some row) :
    (row.status = .dispatched →
      (s.world.jobs.filter fun job => job.jobId = e ∧ job.executionId = e).length = 1 ∧
      ∀ job ∈ s.world.jobs, job.jobId = e → job.executionId = e) ∧
    (row.status = .processing →
      ∃ i a claim t, LastClaim s.log e i a claim ∧ row.lockedUntil = some t ∧ t ≤ a.startedAt + 300000) ∧
    ∀ now, row.status ≠ .dispatched →
      (∀ i a claim, LastClaim s.log e i a claim → a.startedAt + 300000 < now) → row.Claimable now := by
  have hi := h.filed
  have hx (hs : row.status = .processing) :
      ∃ i a claim t, LastClaim s.log e i a claim ∧ row.lockedUntil = some t ∧ t ≤ a.startedAt + 300000 := by
    have ht := hf ▸ hi.tracked e
    cases ht
    case unclaimed hn => exact absurd hs (hn row rfl)
    case claimed i a claim hl _ hx =>
      exact ⟨i, a, claim, _, hl, hx hs, Int.add_le_add_left (leaseOf_le a) _⟩
  refine ⟨fun hs => ⟨hi.queue.one <| hi.queued e row hf hs, ?_⟩, hx, ?_⟩
  · intro job hm hj
    exact (hi.queue.executionId job hm).trans hj
  · intro now hs hn
    cases hst : row.status
    case dispatched => exact absurd hst hs
    case pending    => exact .inl hst
    case processing =>
      have ⟨i, a, claim, t, hl, ht, hle⟩ := hx hst
      exact .inr ⟨hst, t, ht, Int.lt_of_le_of_lt hle (hn i a claim hl)⟩

open Sample in
theorem published_client {pid : Pid} {code : platform.Code} (h : .spawn pid code ∈ published) :
    Client Sample.host code := by
  simp only [published, transact, List.mem_append, List.mem_cons, List.mem_replicate, List.not_mem_nil, or_false,
    reduceCtorEq, and_false] at h
  obtain ⟨-, rfl⟩ | ⟨-, rfl⟩ := h
  · exact .start
  · exact .publishOnce

open Sample in
theorem no_dispatch_is_lost_published :
    ∃ row, (reach unchecked published).db.dispatches.find "e" = some row ∧ row.status = .dispatched ∧
      ((reach unchecked published).world.jobs.filter fun job => job.jobId = "e" ∧ job.executionId = "e").length = 1 := by
  have hr : Reachable (Guard.clients Sample.host) (reach unchecked published) :=
    reach_reachable fun l hl s _ => Guard.clients_of_spawn (fun _ _ => published_client) hl s
  obtain ⟨row, hf⟩ := Option.isSome_iff_exists.mp
    (by decide : ((reach unchecked published).db.dispatches.find "e").isSome)
  have hs : ((reach unchecked published).db.dispatches.find "e").map (·.status) = some .dispatched := by decide
  have hs : row.status = .dispatched := by simpa [hf] using hs
  exact ⟨row, hf, hs, ((no_dispatch_is_lost hr hf).left hs).left⟩

-- Whether a transaction gives up a claim.
def Releases (e : String) (claim : DispatchClaim) (m : platform.Commit) : Prop :=
  ∃ claim' error, m.call = Call.markDispatchFailed claim' error ∧ claim'.executionId = e ∧
    claim'.attempts = claim.attempts

-- A failure that is about the current claim of its dispatch, unlike one of a publisher that has been
-- overtaken.
def timely (c : Call) (g : platform.Global) : Prop :=
  match c with
  | .markDispatchFailed claim _ =>
    (g.db.dispatches.find claim.executionId).any fun row => row.status = .processing ∧ row.attempts = claim.attempts
  | _ => True

instance (c : Call) (g : platform.Global) : Decidable (timely c g) :=
  match c with
  | .markDispatchFailed _ _    => inferInstanceAs (Decidable (_ = true))
  | .start _ _ _               => .isTrue trivial
  | .decideApproval _          => .isTrue trivial
  | .expireApprovalsOnce _     => .isTrue trivial
  | .transition _ _ _ _        => .isTrue trivial
  | .fail _ _ _                => .isTrue trivial
  | .claimDispatches _ _       => .isTrue trivial
  | .markDispatchSucceeded _   => .isTrue trivial

-- A dispatch that waits to be claimed again has been given up by whoever has claimed it last.
def Released (log : List platform.Commit) (e : String) (row : Option DispatchRow) : Prop :=
  ∀ r ∈ row, r.status = .pending → ∀ i a claim, LastClaim log e i a claim →
    ∃ j m, i < j ∧ log[j]? = some m ∧ Releases e claim m

-- Of two claims, the first one has expired, or has been given up before the second one.
def Exclusive (clock : Time) (log : List platform.Commit) (e : String) : Prop :=
  ∀ (i j : Nat) a b claim, i < j → log[i]? = some a → log[j]? = some b → claimOf e a = some claim → (claimOf e b).isSome →
    a.startedAt + leaseOf a < clock ∨ ∃ k m, i < k ∧ k < j ∧ log[k]? = some m ∧ Releases e claim m

-- What is true of publishers whose failures are timely.
structure Fenced (e : String) (g : platform.Global) : Prop where
  tracked   : Tracked g.log e (g.db.dispatches.find e)
  released  : Released g.log e (g.db.dispatches.find e)
  exclusive : Exclusive g.clock g.log e

section
variable {log : List platform.Commit} {entry a a' : platform.Commit} {i i' : Nat} {claim claim' : DispatchClaim}

theorem lt_length_of_getElem? (h : log[i]? = some a) : i < log.length :=
  (List.getElem?_eq_some_iff.mp h).choose

theorem LastClaim.unique (h : LastClaim log e i a claim) (h' : LastClaim log e i' a' claim') : i = i' ∧ claim = claim' := by
  have hi : i = i' := by
    by_contra hn
    cases Nat.lt_or_gt_of_ne hn
    case inl hlt => cases h'.made.symm.trans <| h.last i' a' hlt h'.find
    case inr hlt => cases h.made.symm.trans <| h'.last i a hlt h.find
  subst hi
  cases h.find.symm.trans h'.find
  exact ⟨rfl, Option.some.inj <| h.made.symm.trans h'.made⟩

theorem LastClaim.of_concat (h : LastClaim (log ++ [entry]) e i a claim) (hn : claimOf e entry = none) :
    LastClaim log e i a claim := by
  constructor
  case made => exact h.made
  case last => exact fun j m hj hm => h.last j m hj (getElem?_concat_of_some hm)
  case find =>
    cases getElem?_concat h.find
    case inl hf => exact hf
    case inr he => cases h.made.symm.trans (he.right ▸ hn)

end

theorem Fenced.released_commit {g : platform.Global} {entry : platform.Commit} (h : Fenced e g) (hm : timely entry.call g)
    (ht : Touches entry e (g.db.dispatches.find e) row') : Released (g.log ++ [entry]) e row' := by
  intro r hr hp i a claim hl
  have hk := h.tracked
  generalize hf : g.db.dispatches.find e = row at ht hk
  cases ht
  case claimed   => cases hr; cases hp
  case succeeded => cases hr; cases hp
  case same hn =>
    obtain ⟨j, m, hj, hm, hrel⟩ := h.released r (hf ▸ hr) hp i a claim (hl.of_concat hn)
    exact ⟨j, m, hj, getElem?_concat_of_some hm, hrel⟩
  case created hn =>
    cases hk
    case unclaimed hnone _ =>
      have hl := hl.of_concat hn
      cases hl.made.symm.trans <| hnone a <| List.mem_of_getElem? hl.find
  case failed row claim' error hc he =>
    subst he
    have hl := hl.of_concat (claimOf_failed hc)
    simp only [timely, hc, hf, Option.any_some, Bool.decide_and, Bool.and_eq_true, decide_eq_true_eq] at hm
    cases hk
    case unclaimed hs => exact absurd hm.left (hs row rfl)
    case claimed hl' ha _ =>
      obtain ⟨_, he⟩ := hl.unique hl'
      refine ⟨g.log.length, entry, lt_length_of_getElem? hl.find, by simp, claim', error, hc, rfl, ?_⟩
      rw [he, ← ha, hm.right]

theorem Touches.claimed_of_isSome {entry : platform.Commit} (h : Touches entry e row row')
    (hc : (claimOf e entry).isSome) : ∃ r, row = some r ∧ r.Claimable entry.startedAt := by
  cases h
  case same hn        => simp [hn] at hc
  case created hn     => simp [hn] at hc
  case claimed r hr _ => exact ⟨r, rfl, hr⟩
  case succeeded h _  => simp [claimOf_succeeded h] at hc
  case failed h _     => simp [claimOf_failed h] at hc

theorem Fenced.exclusive_commit {g : platform.Global} {entry : platform.Commit} (h : Fenced e g)
    (hn : entry.startedAt ≤ g.clock) (ht : Touches entry e (g.db.dispatches.find e) row') :
    Exclusive g.clock (g.log ++ [entry]) e := by
  intro i j a b claim hij ha hb hca hcb
  have hi {j b} (hb : g.log[j]? = some b) (hij : i < j) : g.log[i]? = some a := by
    cases getElem?_concat ha
    case inl ha => exact ha
    case inr ha => have := lt_length_of_getElem? hb; omega
  have extend {j} (h : a.startedAt + leaseOf a < g.clock ∨
        ∃ k m, i < k ∧ k < j ∧ g.log[k]? = some m ∧ Releases e claim m) (hj : j ≤ g.log.length) :
      a.startedAt + leaseOf a < g.clock ∨
        ∃ k m, i < k ∧ k < g.log.length ∧ (g.log ++ [entry])[k]? = some m ∧ Releases e claim m := by
    refine h.imp_right fun ⟨k, m, hik, hkj, hm, hrel⟩ => ?_
    exact ⟨k, m, hik, by omega, getElem?_concat_of_some hm, hrel⟩
  cases getElem?_concat hb
  case inl hb =>
    refine (h.exclusive i j a b claim hij (hi hb hij) hb hca hcb).imp_right fun ⟨k, m, hik, hkj, hm, hrel⟩ => ?_
    exact ⟨k, m, hik, hkj, getElem?_concat_of_some hm, hrel⟩
  case inr hb =>
    obtain ⟨rfl, rfl⟩ := hb
    have ha : g.log[i]? = some a := by
      cases getElem?_concat ha
      case inl ha => exact ha
      case inr ha => omega
    have ⟨row, hf, hrow⟩ := ht.claimed_of_isSome hcb
    have hk := hf ▸ h.tracked
    cases hk
    case unclaimed hnone _ => cases hca.symm.trans <| hnone a <| List.mem_of_getElem? ha
    case claimed i' a' claim' hl _ hx =>
      by_cases hii : i < i'
      case pos =>
        refine extend (h.exclusive i i' a a' claim hii ha hl.find hca (by simp [hl.made])) ?_
        exact Nat.le_of_lt <| lt_length_of_getElem? hl.find
      case neg =>
        have hii : i = i' := by
          by_contra hne
          cases hca.symm.trans <| hl.last i a (by omega) ha
        subst hii
        cases ha.symm.trans hl.find
        cases hca.symm.trans hl.made
        cases hrow
        case inl hp =>
          have ⟨k, m, hik, hm, hrel⟩ := h.released row hf hp i a claim hl
          exact .inr ⟨k, m, hik, lt_length_of_getElem? hm, getElem?_concat_of_some hm, hrel⟩
        case inr hp =>
          have ⟨hs, t, ht, hlt⟩ := hp
          rw [hx hs] at ht
          cases ht
          exact .inl <| Int.lt_of_lt_of_le hlt hn

theorem Fenced.commit {g : platform.Global} {entry : platform.Commit} (h : Fenced e g) (hn : entry.startedAt ≤ g.clock)
    (hm : timely entry.call g) (ht : Touches entry e (g.db.dispatches.find e) (db'.dispatches.find e)) :
    Fenced e { g with db := db', log := g.log ++ [entry] } where
  tracked   := h.tracked.step ht
  released  := h.released_commit hm ht
  exclusive := h.exclusive_commit hn ht

theorem Fenced.invariant {s s' : platform.Atomic} {spawnable : platform.Code → platform.Global → Prop}
    (hs : AtomicSteps .none spawnable timely s s') (h : Fenced e s.toGlobal) : Fenced e s'.toGlobal := by
  refine AtomicSteps.invariant hs h ?_ (fun _ _ _ h => ⟨h.tracked, h.released, h.exclusive⟩) ?_
  case refine_1 =>
    refine fun g t hle h => ⟨h.tracked, h.released, fun i j a b claim hij ha hb hca hcb => ?_⟩
    exact (h.exclusive i j a b claim hij ha hb hca hcb).imp_left fun hx => Int.lt_of_lt_of_le hx hle
  case refine_2 => exact fun g pid c r now db' hm hn hc _ h => h.commit hn hm hc.touches

def Db.Dispatched (db : Db) (e : String) : Prop :=
  ∃ row, db.dispatches.find e = some row ∧ row.status = .dispatched

-- A dispatch is done for good, unless it is reported to have failed.
theorem Touches.dispatched {entry : platform.Commit}
    (h : Touches entry e (db.dispatches.find e) (db'.dispatches.find e)) (hd : db.Dispatched e) :
    db'.Dispatched e ∨ ∃ claim error, entry.call = Call.markDispatchFailed claim error ∧ claim.executionId = e := by
  have ⟨row, hf, hr⟩ := hd
  rw [hf] at h
  generalize hf' : db'.dispatches.find e = row' at h
  cases h
  case same               => exact .inl ⟨row, hf', hr⟩
  case succeeded          => exact .inl ⟨_, hf', rfl⟩
  case claimed hcl _      => simp [DispatchRow.Claimable, hr] at hcl
  case failed claim error hc he => exact .inr ⟨claim, error, hc, he⟩

theorem Db.Dispatched.invariant {s s' : platform.Atomic} {spawnable : platform.Code → platform.Global → Prop}
    (hs : AtomicSteps .none spawnable timely s s') (h : s.db.Dispatched e) : s'.db.Dispatched e := by
  refine AtomicSteps.invariant (Q := fun g => g.db.Dispatched e) hs h (fun _ _ _ => id) (fun _ _ _ => id) ?_
  intro g pid c r now db' hm _ hc _ hd
  have ht : Touches ⟨pid, c, r, now⟩ e (g.db.dispatches.find e) (db'.dispatches.find e) := hc.touches
  cases ht.dispatched hd
  case inl hd => exact hd
  case inr hf =>
    have ⟨claim, error, hc, he⟩ := hf
    have ⟨row, hrow, hr⟩ := hd
    cases hc
    subst he
    simp only [timely] at hm
    rw [show g.db.dispatches.find claim.executionId = some row from hrow] at hm
    simp [hr] at hm

-- Claims respect leases, and a dispatch only ceases to be done by being reported to have failed. If nobody
-- reports a failure of a claim that is not the current one, it never does, and claims do not overlap.
theorem leases_are_exclusive {G : Guard} (h : Reachable G s) :
    (∀ l s' entry, step l s = some s' → s'.log = s.log ++ [entry] →
      ((claimOf e entry).isSome → ∃ row, s.db.dispatches.find e = some row ∧ row.Claimable entry.startedAt) ∧
      (s.db.Dispatched e → s'.db.Dispatched e ∨
        ∃ claim error, entry.call = Call.markDispatchFailed claim error ∧ claim.executionId = e)) ∧
    (∀ l s', step l s = some s' → s'.log = s.log → s'.db = s.db) ∧
    ((∀ l s, G l s → Guard.of .none timely l s) →
      (s.db.Dispatched e → ∀ s', Steps G s s' → s'.db.Dispatched e) ∧ Exclusive s.clock s.log e) := by
  refine ⟨?commit, ?other, ?timely⟩
  case commit =>
    intro l s' entry hs hl
    obtain ⟨-, hn⟩ | ⟨pid, c, r, now, hl', hc⟩ := h.commits hs
    case inl => simp [hn] at hl
    case inr =>
      have he : entry = ⟨pid, c, r, now⟩ := by simpa using hl.symm.trans hl'
      have ht : Touches entry e (s.db.dispatches.find e) (s'.db.dispatches.find e) := he ▸ hc.touches
      exact ⟨ht.claimed_of_isSome, ht.dispatched⟩
  case other =>
    intro l s' hs hl
    obtain ⟨hd, -⟩ | ⟨pid, c, r, now, hl', hc⟩ := h.commits hs
    case inl => exact hd
    case inr => simp [hl] at hl'
  case timely =>
    intro hG
    have hm := Guard.of_meets Premise.none_stable timely
    have h := h.mono hG
    refine ⟨fun hd s' hs => ?_, ?_⟩
    case refine_1 =>
      exact Db.Dispatched.invariant (h.atomicSteps (hs.mono hG) hm) hd
    case refine_2 =>
      have ⟨clock, hs⟩ := h.atomic hm
      refine (Fenced.invariant hs ⟨.unclaimed (List.forall_mem_nil _) fun _ hr => (by cases hr), ?_, ?_⟩).exclusive
      · exact fun _ hr => (by cases hr)
      · exact fun _ _ _ _ _ _ ha => (by cases ha)

namespace Sample

def publisher : platform.Code := do
  return .published (← (ExecutionOutboxPublisher.new ⟨none, some 1000⟩).publishOnce)

-- A publisher's lease expires, another publisher takes over, and finishes.
def overtaken : List platform.Label :=
  transact 0 (do return .started (← PostgresExecutionService.Process.start Sample.host (request false) ⟨none⟩)) 0 "a" 8 ++
  transact 1 publisher 0 "" 4 ++ [.tick 2000] ++ transact 2 publisher 2000 "" 4 ++
  [.act 2 (ambient 2000 ""), .begin 2, .stmt 2 (ambient 2000 ""), .commit 2]

-- The first publisher does not get the job into the queue, and gives up.
def gaveUp : List platform.Label :=
  [.act 1 { ambient 2000 "" with failure := some "connection lost" }, .begin 1, .stmt 1 (ambient 2000 ""), .commit 1]

theorem overtaken_client {pid : Pid} {code : platform.Code} (h : .spawn pid code ∈ overtaken) :
    Client Sample.host code := by
  simp only [overtaken, transact, List.mem_append, List.mem_cons, List.mem_replicate, List.not_mem_nil, or_false,
    reduceCtorEq, and_false] at h
  obtain (⟨-, rfl⟩ | ⟨-, rfl⟩) | ⟨-, rfl⟩ := h
  · exact .start
  · exact .publishOnce
  · exact .publishOnce

end Sample

open Sample in
theorem leases_are_exclusive_overtaken :
    (reach (Guard.check .none timely) overtaken).db.Dispatched "e" ∧
    Exclusive 2000 (reach (Guard.check .none timely) overtaken).log "e" := by
  have hr : Reachable (Guard.of .none timely) (reach (Guard.check .none timely) overtaken) :=
    reach_reachable fun _ _ _ => Guard.of_check
  have hx := (leases_are_exclusive hr (e := "e")).right.right fun _ _ => id
  obtain ⟨row, hf⟩ := Option.isSome_iff_exists.mp
    (by decide : ((reach (Guard.check .none timely) overtaken).db.dispatches.find "e").isSome)
  have hs : ((reach (Guard.check .none timely) overtaken).db.dispatches.find "e").map (·.status) = some .dispatched := by
    decide
  exact ⟨⟨row, hf, by simpa [hf] using hs⟩, hx.right⟩

open Sample in
theorem leases_are_not_fenced :
    ∃ s s' : platform.State, Reachable (Guard.clients Sample.host) s ∧ Steps (Guard.clients Sample.host) s s' ∧
      (s.db.dispatches.find "e").map (fun row => (row.status, row.attempts)) = some (.dispatched, 2) ∧
      (s'.log.getLast?.map (·.call)) =
        some (Call.markDispatchFailed ⟨"e", "logon.execution", 1⟩ "connection lost") ∧
      (s'.db.dispatches.find "e").map (fun row => (row.status, row.attempts)) = some (.pending, 2) := by
  refine ⟨reach unchecked overtaken, follow unchecked gaveUp (reach unchecked overtaken), ?_, ?_, ?_, ?_, ?_⟩
  · exact reach_reachable fun l hl s _ => Guard.clients_of_spawn (fun _ _ => overtaken_client) hl s
  · exact follow_steps fun l hl s _ => Guard.clients_of_spawn (fun _ _ hm => by simp [gaveUp] at hm) hl s
  · decide
  · rfl
  · decide

end Logon
