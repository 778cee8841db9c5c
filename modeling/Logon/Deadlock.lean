import Logon.Library.Waiting
import Logon.Runtime.Reachable

-- Whether transactions can wait for each other.

namespace Logon

open System Tx

-- The order in which transactions lock.
def Resource.rank : Resource → Nat
  | tenant _        => 0
  | advisory _      => 1
  | execution _     => 2
  | approval _      => 3
  | dispatch _      => 4
  | idempotency _ _ => 5
  | audit _         => 6

-- What transactions wait for. The ids of audit records are random and used once.
def Resource.Listed : Resource → Prop
  | audit _ => False
  | _       => True

-- The statements with `skip locked`
def Statement.Skips : Statement → Prop
  | lockExecution _ => True
  | lockDispatch _  => True
  | _               => False

-- Approvals that are to expire are found with their executions.
abbrev Premise.located : Premise := fun _ o db r =>
  match o, r with
  | .scanApprovals, rows => ∀ c ∈ rows, ∃ row, db.approvals.find c.fst = some row ∧ row.executionId = c.snd
  | _,              _    => True

theorem Premise.located_stable : located.Stable := by
  intro now o r db db' hg _ hp
  cases o
  case scanApprovals =>
    intro c hc
    have ⟨row, hf, he⟩ := hp c hc
    have ⟨row', hf', hs⟩ := hg.approvals _ _ hf
    exact ⟨row', hf', hs.executionId.trans he⟩
  all_goals trivial

theorem Statement.located_of_reply {o : Statement} {r : o.Reply} (h : o.reply now amb db = .ok r) :
    Premise.located now o db r := by
  cases o
  case scanApprovals =>
    intro c hc
    simp only [Statement.reply, Except.ok.injEq] at h
    rw [← h, orderBy, List.mem_map] at hc
    obtain ⟨row, hr, hc⟩ := hc
    rw [List.mem_insertionSort, List.mem_filter] at hr
    exact ⟨row, hc ▸ Table.find_of_mem hr.left, hc ▸ rfl⟩
  all_goals trivial

theorem Guard.meets_located (G : Guard) : G.Meets .located (fun _ _ => True) fun _ _ => True where
  stable := Premise.located_stable
  spawn  := fun _ => trivial
  stmt   := fun _ _ hr => Statement.located_of_reply hr
  commit := fun _ _ => trivial

-- Whoever has locked an approval has locked its execution.
def Tidy (db : Db) (H : Resource → Prop) : Prop :=
  ∀ a, H (.approval a) → ∃ row, db.approvals.find a = some row ∧ H (.execution row.executionId)

-- What a statement may lock, where `db₀` is the database that is committed. Approvals are locked out of
-- order, but only together with their executions.
structure Orderly (db₀ : Db) (o : Statement) (r : o.Reply) (db : Db) (H : Resource → Prop) : Prop where
  tidy   : Tidy db H
  awaits : ∀ x ∈ o.awaits, H x
  locks  : ∀ x ∈ o.locks r, x.Listed → o.Skips ∨ H x ∨ (∀ y, y.Listed → H y → y.rank < x.rank) ∨
           ∃ a row, x = .approval a ∧ db₀.approvals.find a = some row ∧ H (.execution row.executionId)

-- A transaction that has only locked what comes before a certain rank.
structure Rung (n : Nat) (db : Db) (H : Resource → Prop) : Prop where
  tidy  : Tidy db H
  below : ∀ x, x.Listed → H x → x.rank < n

-- A rung that a transaction reaches from a database and some locks.
structure After (n : Nat) (db : Db) (H : Resource → Prop) (db' : Db) (K : Resource → Prop) : Prop where
  rung  : Rung n db' K
  grows : db.Grows db'
  keeps : ∀ x, H x → K x

-- Where a transaction is when a part of it has ended. An expired approval is the only error after which it
-- goes on.
def Reached (n : Nat) (db : Db) (H : Resource → Prop) (R : α → (Resource → Prop) → Prop) :
    Except KernelError α → Db → (Resource → Prop) → Prop
  | .ok a,    db', K => After n db H db' K ∧ R a K
  | .error e, db', K => ∀ a, e = .approvalExpired a → After 4 db H db' K

-- A program that locks in order, and reaches a rung with some result and some locks unless it throws.
def Tx.Climbs (db₀ : Db) (now : Time) (n : Nat) (p : Tx α) (db : Db) (H : Resource → Prop)
    (R : α → (Resource → Prop) → Prop) : Prop :=
  engine.Obeys (Premise.located.answer now) (Orderly db₀) p db H (Reached n db H R)

variable {db₀ db : Db} {now : Time} {H : Resource → Prop} {α β γ : Type}

theorem Rung.mono (h : Rung m db H) (hn : m ≤ n) : Rung n db H where
  tidy  := h.tidy
  below := fun x hl hx => Nat.lt_of_lt_of_le (h.below x hl hx) hn

theorem Rung.refl (h : Rung n db H) : After n db H db H where
  rung  := h
  grows := .refl db
  keeps := fun _ => id

-- A rung with more locks.
theorem Rung.extend {xs : List Resource} (h : Rung l db H) (hg : db.Grows db') (hm : l ≤ m)
    (ht : ∀ a, .approval a ∈ xs → H (.approval a) ∨
      ∃ row, db'.approvals.find a = some row ∧ (H (.execution row.executionId) ∨ .execution row.executionId ∈ xs))
    (hr : ∀ x ∈ xs, x.Listed → x.rank < m) : After m db H db' fun x => H x ∨ x ∈ xs where
  grows       := hg
  keeps       := fun _ => .inl
  rung.below  := fun x hx' hx => hx.elim (fun hx => Nat.lt_of_lt_of_le (h.below x hx' hx) hm) fun hx => hr x hx hx'
  rung.tidy   := by
    intro a hx
    obtain hx | ⟨row, hf, he⟩ := hx.elim .inl (ht a)
    case inr => exact ⟨row, hf, he⟩
    case inl =>
      have ⟨row, hf, he⟩ := h.tidy a hx
      have ⟨row', hf', hs⟩ := hg.approvals _ _ hf
      exact ⟨row', hf', .inl <| hs.executionId ▸ he⟩

theorem After.since (hg : db.Grows db') (hk : ∀ x, H x → K x) (h : After n db' K db'' K') :
    After n db H db'' K' where
  rung  := h.rung
  grows := hg.trans h.grows
  keeps := fun x hx => h.keeps x <| hk x hx

theorem After.trans (h : After n db H db' K) (h' : After m db' K db'' K') : After m db H db'' K' :=
  h'.since h.grows h.keeps

theorem Reached.since {R : α → (Resource → Prop) → Prop} {res : Except KernelError α} (hg : db.Grows db')
    (hk : ∀ x, H x → K x) (h : Reached n db' K R res db'' K') : Reached n db H R res db'' K' := by
  cases res
  case ok    => exact h.imp_left (·.since hg hk)
  case error => exact fun a he => (h a he).since hg hk

namespace Tx.Climbs

variable {R : α → (Resource → Prop) → Prop} {R' : β → (Resource → Prop) → Prop}

theorem pure {a : α} (h : Rung n db H) (hr : R a H) : Climbs db₀ now n (.pure a) db H R :=
  ⟨h.refl, hr⟩

theorem throw {e : KernelError} (h : ∀ a, e = .approvalExpired a → Rung 4 db H) :
    Climbs db₀ now n (.throw e : Tx α) db H R :=
  fun a he => (h a he).refl

theorem since {p : Tx α} (h : p.Climbs db₀ now n db' K R) (hg : db.Grows db') (hk : ∀ x, H x → K x) :
    engine.Obeys (Premise.located.answer now) (Orderly db₀) p db' K (Reached n db H R) :=
  Engine.Obeys.mono (fun _ _ _ => .since hg hk) h

theorem mono {p : Tx α} (h : p.Climbs db₀ now m db H R) (hn : m ≤ n) : p.Climbs db₀ now n db H R := by
  refine Engine.Obeys.mono (fun res db' K hq => ?_) h
  cases res
  case error => exact hq
  case ok    => exact hq.imp_left fun hs => { hs with rung := hs.rung.mono hn }

theorem bind {p : Tx α} {f : α → Tx β} (h : p.Climbs db₀ now m db H R)
    (hf : ∀ a db' K, After m db H db' K → R a K → (f a).Climbs db₀ now n db' K R') :
    Climbs db₀ now n (p.bind f) db H R' := by
  apply Engine.Obeys.bind
  refine Engine.Obeys.mono (fun res db' K hq => ?_) h
  cases res
  case error => exact hq
  case ok a  => exact (hf a db' K hq.left hq.right).since hq.left.grows hq.left.keeps

-- A statement that takes locks which rank higher than those that are taken already.
theorem query {o : Statement} {k : o.Reply → Tx α} (h : Rung l db H) (ha : ∀ x ∈ o.awaits, H x)
    (hl : ∀ r, Premise.located.answer now o db r → ∀ x ∈ o.locks r, x.Listed → o.Skips ∨ H x ∨ l ≤ x.rank ∨
      ∃ a row, x = .approval a ∧ db₀.approvals.find a = some row ∧ H (.execution row.executionId))
    (hm : l ≤ m) (hr : ∀ r, ∀ x ∈ o.locks r, x.Listed → x.rank < m)
    (hk : ∀ r K, Premise.located.answer now o db r → (∀ x, H x → K x) → (∀ x ∈ o.locks r, K x) →
      ((∀ a, .approval a ∈ o.locks r → H (.approval a) ∨
        ∃ row, (o.effect r db).approvals.find a = some row ∧ K (.execution row.executionId)) →
        After m db H (o.effect r db) K) →
      (k r).Climbs db₀ now n (o.effect r db) K R) :
    Climbs db₀ now n ((Logon.query o).bind k) db H R := by
  intro r hr'
  refine ⟨⟨h.tidy, ha, fun x hx hx' => (hl r hr' x hx hx').imp_right ?_⟩, ?_⟩
  · rintro (hx'' | hle | hx'')
    · exact .inl hx''
    · exact .inr <| .inl fun y hy hy' => Nat.lt_of_lt_of_le (h.below y hy hy') hle
    · exact .inr <| .inr hx''
  have hg := Db.grows_effect o r db
  have hk := hk r (fun x => H x ∨ x ∈ o.locks r) hr' (fun _ => .inl) (fun _ => .inr) fun ht => h.extend hg hm ht (hr r)
  exact hk.since hg fun _ => .inl

-- A statement that takes no locks that are not taken already.
theorem still {o : Statement} {k : o.Reply → Tx α} (h : Rung m db H) (ha : ∀ x ∈ o.awaits, H x)
    (hl : ∀ r, ∀ x ∈ o.locks r, x.Listed → H x)
    (hk : ∀ r K, Premise.located.answer now o db r → After m db H (o.effect r db) K →
      (k r).Climbs db₀ now n (o.effect r db) K R) :
    Climbs db₀ now n ((Logon.query o).bind k) db H R :=
  .query h ha (fun r _ x hx hx' => .inr <| .inl <| hl r x hx hx') (Nat.le_refl m)
    (fun r x hx hx' => h.below x hx' <| hl r x hx hx')
    fun r K hr _ _ ht => hk r K hr <| ht fun _ hx => .inl <| hl r _ hx trivial

-- A statement that locks no approval.
theorem next {o : Statement} {k : o.Reply → Tx α} (h : Rung l db H) (ha : ∀ x ∈ o.awaits, H x) (hm : l ≤ m)
    (hl : ∀ r, ∀ x ∈ o.locks r, x.Listed → (o.Skips ∨ H x ∨ l ≤ x.rank) ∧ x.rank < m)
    (hp : ∀ r a, .approval a ∉ o.locks r)
    (hk : ∀ r K, Premise.located.answer now o db r → After m db H (o.effect r db) K → (∀ x ∈ o.locks r, K x) →
      (k r).Climbs db₀ now n (o.effect r db) K R) :
    Climbs db₀ now n ((Logon.query o).bind k) db H R :=
  .query h ha (fun r _ x hx hx' => (hl r x hx hx').left.imp_right <| .imp_right .inl) hm
    (fun r x hx hx' => (hl r x hx hx').right)
    fun r K hr _ hK ht => hk r K hr (ht fun a hx => absurd hx <| hp r a) hK

theorem newDate (h : Rung n db H) : Climbs db₀ now n newDate db H fun _ _ => True :=
  .still h nofun nofun fun _ _ _ hs => .pure hs.rung trivial

-- What is locked one by one, skipping what is locked already.
theorem lockCandidates {lock : β → Tx Candidate} {x : β → Resource} {db : Db} {H : Resource → Prop}
    (hl : ∀ b db H, Rung n db H → (lock b).Climbs db₀ now n db H fun c K => c = .locked → K (x b)) (limit : Nat)
    (bs : List β) (h : Rung n db H) :
    Climbs db₀ now n (Logon.lockCandidates lock limit bs) db H fun ls K => ∀ b ∈ ls, b ∈ bs ∧ K (x b) := by
  fun_induction Logon.lockCandidates lock limit bs generalizing db H
  case case1 => exact .pure h (List.forall_mem_nil _)
  case case2 => exact .pure h (List.forall_mem_nil _)
  case case3 limit b bs ih₁ ih₂ =>
    refine (hl b db H h).bind fun c db' K hs hK => ?_
    split
    case h_1 =>
      refine (ih₁ hs.rung).bind fun ls db'' K' hs' hls => .pure hs'.rung ?_
      intro b' hb'
      cases hb'
      case head    => exact ⟨.head _, hs'.keeps _ <| hK rfl⟩
      case tail hb => exact (hls b' hb).imp_left (.tail _)
    case h_2 =>
      refine Engine.Obeys.mono ?_ (ih₂ hs.rung)
      intro res db'' K' hq
      cases res
      case error => exact hq
      case ok    => exact ⟨hq.left, fun b' hb' => (hq.right b' hb').imp_left (.tail _)⟩

-- The items of a list, one by one, where the locks that are needed for it are taken already.
theorem collect {f : β → Tx (Option γ)} {R : γ → (Resource → Prop) → Prop} {db : Db} {H : Resource → Prop}
    (hR : ∀ c K K', (∀ x, K x → K' x) → R c K → R c K') (bs : List β)
    (hf : ∀ b ∈ bs, ∀ db' K, After n db H db' K → (f b).Climbs db₀ now n db' K fun o K => ∀ c ∈ o, R c K)
    (h : Rung n db H) : Climbs db₀ now n (Program.collect f bs) db H fun cs K => ∀ c ∈ cs, R c K := by
  induction bs generalizing db H
  case nil => exact .pure h nofun
  case cons b bs ih =>
    refine (hf b (.head _) db H h.refl).bind fun o db' K hs ho => ?_
    refine (ih (fun b hb _ _ hs' => hf b (.tail _ hb) _ _ <| hs.trans hs') hs.rung).bind fun cs db'' K' hs' hcs => ?_
    refine .pure hs'.rung fun c hc => ?_
    cases List.mem_append.mp hc
    case inl hc => exact hR c _ _ hs'.keeps <| ho c <| by simpa using hc
    case inr hc => exact hcs c hc

end Tx.Climbs

open Tx.Climbs

namespace PgExecutionStore

theorem ensureTenant_climbs (h : Rung 0 db H) : (ensureTenant t).Climbs db₀ now 1 db H fun _ _ => True :=
  .next h nofun (by decide) (by rintro (_ | _) <;> simp [Resource.rank]) (by rintro (_ | _) <;> simp)
    fun _ _ _ hs _ => .pure hs.rung trivial

theorem createDispatch_climbs (h : Rung 4 db H) (he : H (.execution e)) :
    (createDispatch e q).Climbs db₀ now 5 db H fun _ _ => True :=
  .next h (by simpa [Statement.awaits]) (by decide) (by rintro (_ | _) <;> simp [Resource.rank])
    (by rintro (_ | _) <;> simp) fun _ _ _ hs _ => .pure hs.rung trivial

theorem appendEvent_climbs (h : Rung n db H) (he : H (.execution event.executionId)) :
    (appendEvent event).Climbs db₀ now n db H fun _ _ => True :=
  .still h (by simpa [Statement.awaits]) nofun fun _ _ _ hs => .pure hs.rung trivial

theorem appendAudit_climbs (h : Rung n db H) (he : H (.execution record.executionId)) :
    (appendAudit record).Climbs db₀ now n db H fun _ _ => True :=
  .next h (by simpa [Statement.awaits]) (Nat.le_refl n) (by simp [Resource.Listed]) (by simp)
    fun _ _ _ hs _ => .pure hs.rung trivial

theorem latestEvent_climbs (h : Rung n db H) : (latestEvent e).Climbs db₀ now n db H fun _ _ => True :=
  .still h nofun nofun fun _ _ _ hs => .pure hs.rung trivial

theorem findIdempotency_climbs (h : Rung n db H) : (findIdempotency t key).Climbs db₀ now n db H fun _ _ => True :=
  .still h nofun nofun fun _ _ _ hs => .pure hs.rung trivial

theorem lockExecution_climbs (h : Rung m db H) (he : H (.execution e) ∨ m ≤ 2) (hm : m ≤ n) (hn : 3 ≤ n) :
    (lockExecution e).Climbs db₀ now n db H fun _ K => K (.execution e) := by
  refine .next h nofun hm ?_ (by rintro (_ | _) <;> simp) fun r K _ hs hK => ?_
  · rintro (_ | _) <;> simp only [Statement.locks, List.not_mem_nil, List.mem_singleton, forall_eq, false_implies,
      implies_true]
    exact fun _ => ⟨.inr he, hn⟩
  · cases r
    case none => exact .throw nofun
    case some => exact .pure hs.rung <| hK _ (by simp)

theorem createApproval_climbs (h : Rung 3 db H) (he : H (.execution request.executionId)) :
    (createApproval request).Climbs db₀ now 4 db H fun _ _ => True := by
  refine .query h (by simpa [Statement.awaits]) (m := 4) ?_ (by decide) ?_ fun r K hr hK _ ht => ?_
  · rintro (_ | _) <;> simp [Resource.rank]
  · rintro (_ | _) <;> simp [Resource.rank]
  · refine .pure (ht fun a ha => ?_).rung trivial
    obtain _ | ⟨createdAt, expiresAt⟩ := r
    case none => cases ha
    case some =>
      cases List.mem_singleton.mp ha
      exact .inr ⟨.of request createdAt expiresAt, Table.find_insert_new hr.left.left, hK _ he⟩

-- An approval may be locked by others already, but not without its execution.
theorem expireApproval_climbs (h : Rung 4 db H) (hf : db₀.approvals.find a = some row)
    (he : H (.execution row.executionId)) (hf' : db.approvals.find a = some row')
    (hs : row'.executionId = row.executionId) :
    (query (.expireApproval a)).Climbs db₀ now 4 db H fun o K => ∀ row ∈ o, K (.execution row.executionId) := by
  refine .query h nofun ?_ (Nat.le_refl 4) (by rintro (_ | _) <;> simp [Resource.rank]) fun r K hr hK _ ht => ?_
  · rintro (_ | _) _ x hx
    case none => cases hx
    case some =>
      cases List.mem_singleton.mp hx
      exact fun _ => .inr <| .inr <| .inr ⟨a, row, rfl, hf, he⟩
  · cases r
    case none => exact .pure (ht nofun).rung nofun
    case some =>
      obtain ⟨old, ho, rfl⟩ := hr.left
      cases ho.symm.trans hf'
      refine .pure (ht fun a ha => ?_).rung ?_
      · cases List.mem_singleton.mp ha
        exact .inr ⟨row'.expire now, by simp [Statement.effect, Table.find_modify_self, hf'], hK _ <| hs ▸ he⟩
      · intro row hr
        cases hr
        exact hK _ <| hs ▸ he

theorem claimExpiredApprovals_climbs (h : Rung 3 db H) (hg : db₀ = db) :
    (claimExpiredApprovals limit).Climbs db₀ now 4 db H fun claims K =>
      ∀ claim ∈ claims, K (.execution claim.executionId) := by
  refine .still h nofun nofun fun rows K₁ hr hs₁ => ?_
  have lock (c : String × String) db H (h : Rung 3 db H) :
      (query (.lockExecution c.snd)).Climbs db₀ now 3 db H fun r K => r = .locked → K (.execution c.snd) := by
    refine .next h nofun (Nat.le_refl 3) (by rintro (_ | _ | _) <;> simp [Resource.rank, Statement.Skips])
      (by rintro (_ | _ | _) <;> simp) fun r K _ hs hK => .pure hs.rung ?_
    rintro rfl
    exact hK _ (by simp)
  refine (Climbs.lockCandidates lock _ _ hs₁.rung).bind fun candidates db₂ K₂ hs₂ hc => ?_
  refine .still hs₂.rung nofun nofun fun ids K₃ hp hs₃ => ?_
  have hs := hs₁.trans <| hs₂.trans hs₃
  refine (Climbs.collect (R := fun row K => K (.execution row.executionId)) (fun _ _ _ hK => hK _) _
    (fun a ha db' K' hs' => ?_) (hs.rung.mono (by decide : 3 ≤ 4))).bind fun rows _ _ hs' hr' => ?_
  · have ⟨c, hc', hca⟩ := List.mem_map.mp <| hp.left.subset ha
    have ⟨hc', hK⟩ := hc c hc'
    have ⟨row, hf, he⟩ := hr.right c hc'
    have he' : K' (.execution row.executionId) := hs'.keeps _ <| hs₃.keeps _ <| he ▸ hK
    have ⟨row', hf', hsame⟩ := (hs.trans hs').grows.approvals _ _ <| hca ▸ hf
    exact expireApproval_climbs hs'.rung (hg ▸ hca ▸ hf) he' hf' hsame.executionId
  · refine .pure hs'.rung fun claim hc => ?_
    have ⟨row, hr, he⟩ := List.mem_map.mp hc
    exact he ▸ hr' row hr

theorem claimDispatches_climbs (h : Rung 0 db H) :
    (claimDispatches limit leaseMs).Climbs db₀ now 5 db H fun _ _ => True := by
  refine .still h nofun nofun fun ids K₁ _ hs₁ => ?_
  have lock (e : String) db H (h : Rung 5 db H) :
      (query (.lockDispatch e)).Climbs db₀ now 5 db H fun r K => r = .locked → K (.dispatch e) := by
    refine .next h nofun (Nat.le_refl 5) (by rintro (_ | _ | _) <;> simp [Resource.rank, Statement.Skips])
      (by rintro (_ | _ | _) <;> simp) fun r K _ hs hK => .pure hs.rung ?_
    rintro rfl
    exact hK _ (by simp)
  refine (Climbs.lockCandidates lock _ _ (hs₁.rung.mono (by decide))).bind fun candidates db₂ K₂ hs₂ hc => ?_
  refine .still hs₂.rung nofun nofun fun ids K₃ hp hs₃ => ?_
  refine (Climbs.collect (R := fun _ _ => True) (fun _ _ _ _ => id) _ (fun e he db' K' hs' => ?_) hs₃.rung).bind
    fun _ _ _ hs' _ => .pure hs'.rung trivial
  have hK : K' (.dispatch e) := hs'.keeps _ <| hs₃.keeps _ (hc e <| hp.left.subset he).right
  exact .still hs'.rung nofun (by rintro (_ | _) <;> simp [hK]) fun _ _ _ hs => .pure hs.rung fun _ _ => trivial

theorem markDispatchSucceeded_climbs (h : Rung 0 db H) :
    (markDispatchSucceeded e).Climbs db₀ now 5 db H fun _ _ => True :=
  .next h nofun (by decide) (by rintro (_ | _) <;> simp [Resource.rank]) (by rintro (_ | _) <;> simp)
    fun _ _ _ hs _ => .pure hs.rung trivial

theorem markDispatchFailed_climbs (h : Rung 0 db H) :
    (markDispatchFailed e error).Climbs db₀ now 5 db H fun _ _ => True :=
  .next h nofun (by decide) (by rintro (_ | _) <;> simp [Resource.rank]) (by rintro (_ | _) <;> simp)
    fun _ _ _ hs _ => .pure hs.rung trivial

-- A decision that does not fit has locked an approval without its execution, but does nothing any more.
theorem decideApproval_climbs (h : Rung 3 db H) (he : H (.execution decision.executionId)) :
    (PgExecutionStore.decideApproval decision).Climbs db₀ now 4 db H fun _ _ => True := by
  refine .query h (List.forall_mem_nil _) (m := 4) ?_ (by decide) (by rintro (_ | _) <;> simp [Resource.rank]) fun r K hr hK hl ht => ?_
  · rintro (_ | _) <;> simp [Resource.rank]
  obtain _ | ⟨row, tenantId⟩ := r
  case none => exact .throw (by simp)
  case some =>
    have ha : K (.approval decision.approvalId) := hl _ (by simp)
    dsimp only
    split
    · exact .throw (by simp)
    rename_i hm
    have he : K (.execution row.executionId) := not_ne_iff.mp (not_or.mp hm).left ▸ hK _ he
    have h₁ := ht fun a ha => by
      cases List.mem_singleton.mp ha
      exact .inr ⟨row, hr.left.left, he⟩
    split
    · exact .throw (by simp)
    refine (?_ : (decideApproval.expired row).Climbs db₀ now 4 _ K fun _ _ => True).bind fun expired _ _ h₂ _ => ?_
    · unfold decideApproval.expired
      split
      · exact .pure h₁.rung trivial
      · exact .still h₁.rung (List.forall_mem_nil _) (fun _ => List.forall_mem_nil _) fun _ _ _ h₂ => .pure h₂.rung trivial
    have ha := h₂.keeps _ ha
    split
    · exact .still h₂.rung (List.forall_mem_nil _) (by simp [ha]) fun _ _ _ h₃ => .throw fun _ _ => h₃.rung
    · exact .still h₂.rung (List.forall_mem_nil _) (by simp [ha]) fun _ _ _ h₃ => .pure h₃.rung trivial

end PgExecutionStore

theorem nextSequence_climbs (h : Rung n db H) : (nextSequence e).Climbs db₀ now n db H fun _ _ => True :=
  .still h nofun nofun fun _ _ _ hs => .pure hs.rung trivial

theorem updateStatus_climbs (h : Rung n db H) (he : H (.execution e)) :
    (updateStatus e status).Climbs db₀ now n db H fun _ _ => True :=
  .still h nofun (by simp [he]) fun _ _ _ hs => .pure hs.rung trivial

theorem assertTransition_climbs (h : Rung n db H) :
    (assertTransition src dst).Climbs db₀ now n db H fun _ _ => True := by
  unfold assertTransition
  split
  · exact .pure h trivial
  · exact .throw nofun

namespace PostgresExecutionService

open PgExecutionStore

theorem lookupTenant_climbs (h : Rung n db H) : (lookupTenant e).Climbs db₀ now n db H fun _ _ => True := by
  refine .still h nofun nofun fun r _ _ hs => ?_
  cases r
  · exact .throw nofun
  · exact .pure hs.rung trivial

theorem rejectExpiredExecution_climbs (h : Rung n db H) (he : H (.execution e)) :
    (rejectExpiredExecution e a actor).Climbs db₀ now n db H fun _ _ => True := by
  refine (nextSequence_climbs h).bind fun _ _ _ h₁ _ => (Climbs.newDate h₁.rung).bind fun _ _ _ h₂ _ => ?_
  have he := h₂.keeps _ <| h₁.keeps _ he
  refine (updateStatus_climbs h₂.rung he).bind fun _ _ _ h₃ _ => ?_
  have he := h₃.keeps _ he
  refine (appendEvent_climbs h₃.rung he).bind fun _ _ _ h₄ _ => ?_
  refine (lookupTenant_climbs h₄.rung).bind fun _ _ _ h₅ _ => ?_
  have he := h₅.keeps _ <| h₄.keeps _ he
  exact .still h₅.rung nofun nofun fun _ _ _ h₆ => appendAudit_climbs h₆.rung <| h₆.keeps _ he

theorem dispatchApproved_climbs (h : Rung 4 db H) (he : H (.execution e)) :
    (dispatchApproved e approvalStatus).Climbs db₀ now 5 db H fun _ _ => True := by
  unfold dispatchApproved
  split
  · exact createDispatch_climbs h he
  · exact .pure (h.mono (by decide)) trivial

theorem applyDecision_climbs (h : Rung 4 db H) (he : H (.execution decision.executionId)) :
    (applyDecision decision approvalStatus current).Climbs db₀ now 5 db H fun _ _ => True := by
  refine (assertTransition_climbs h).bind fun _ _ _ h₁ _ => (nextSequence_climbs h₁.rung).bind fun _ _ _ h₂ _ => ?_
  have he := h₂.keeps _ <| h₁.keeps _ he
  refine (updateStatus_climbs h₂.rung he).bind fun _ _ _ h₃ _ => ?_
  have he := h₃.keeps _ he
  refine (appendEvent_climbs h₃.rung he).bind fun _ _ _ h₄ _ => ?_
  have he := h₄.keeps _ he
  refine (dispatchApproved_climbs h₄.rung he).bind fun _ _ _ h₅ _ => ?_
  refine (lookupTenant_climbs h₅.rung).bind fun _ _ _ h₆ _ => ?_
  have he := h₆.keeps _ <| h₅.keeps _ he
  refine .still h₆.rung nofun nofun fun _ _ _ h₇ => ?_
  exact (appendAudit_climbs h₇.rung <| h₇.keeps _ he).bind fun _ _ _ h₈ _ => .pure h₈.rung trivial

theorem rejectClaims_climbs (claims : List ExpiredApprovalClaim) (rejected skipped : Nat) {db : Db}
    {H : Resource → Prop} (h : Rung 4 db H) (he : ∀ claim ∈ claims, H (.execution claim.executionId)) :
    (rejectClaims claims rejected skipped).Climbs db₀ now 4 db H fun _ _ => True := by
  induction claims generalizing db H rejected skipped
  case nil => exact .pure h trivial
  case cons claim claims ih =>
    have ⟨hc, he⟩ := List.forall_mem_cons.mp he
    refine (lockExecution_climbs h (.inl hc) (Nat.le_refl 4) (by decide)).bind fun status _ _ h₁ hc => ?_
    have he claim hm := h₁.keeps _ <| he claim hm
    split
    · exact ih _ _ h₁.rung he
    · refine (rejectExpiredExecution_climbs h₁.rung hc).bind fun _ _ _ h₂ _ => ?_
      exact ih _ _ h₂.rung fun claim hm => h₂.keeps _ <| he claim hm

theorem expireApprovalsOnce_climbs (h : Rung 3 db H) (hg : db₀ = db) :
    (expireApprovalsOnce limit).Climbs db₀ now 4 db H fun _ _ => True :=
  (claimExpiredApprovals_climbs h hg).bind fun _ _ _ h₁ he =>
    (rejectClaims_climbs _ _ _ h₁.rung he).bind fun _ _ _ h₂ _ => .pure h₂.rung trivial

theorem move_climbs (h : Rung n db H) (he : H (.execution e)) :
    (move e status type actor payload).Climbs db₀ now n db H fun _ _ => True := by
  refine (Climbs.newDate h).bind fun _ _ _ h₁ _ => (nextSequence_climbs h₁.rung).bind fun _ _ _ h₂ _ => ?_
  have he := h₂.keeps _ <| h₁.keeps _ he
  refine (updateStatus_climbs h₂.rung he).bind fun _ _ _ h₃ _ => ?_
  exact appendEvent_climbs h₃.rung <| h₃.keeps _ he

theorem transition_climbs (h : Rung 0 db H) :
    (transition e status actor payload).Climbs db₀ now 3 db H fun _ _ => True := by
  refine (lockExecution_climbs h (.inr (by decide)) (by decide) (Nat.le_refl 3)).bind fun current _ _ h₁ he => ?_
  exact (assertTransition_climbs h₁.rung).bind fun _ _ _ h₂ _ => move_climbs h₂.rung <| h₂.keeps _ he

theorem fail_climbs (h : Rung 0 db H) :
    (PostgresExecutionService.fail e actor reason).Climbs db₀ now 3 db H fun _ _ => True := by
  refine (lockExecution_climbs h (.inr (by decide)) (by decide) (Nat.le_refl 3)).bind fun current _ _ h₁ he => ?_
  split
  · exact .throw nofun
  · exact move_climbs h₁.rung he

theorem decideApproval_climbs (h : Rung 0 db H) :
    (PostgresExecutionService.decideApproval decision).Climbs db₀ now 5 db H fun _ _ => True := by
  refine (lockExecution_climbs h (.inr (by decide)) (by decide) (Nat.le_refl 3)).bind fun current _ _ h₁ he => ?_
  split
  · exact .throw nofun
  refine Climbs.bind (m := 4) (R := fun _ _ => True) ?_ fun approvalStatus _ _ h₂ _ => ?_
  · apply Engine.Obeys.tryCatch
    have hd : Climbs db₀ now 4 (some <$> PgExecutionStore.decideApproval decision) _ _ fun _ _ => True :=
      (PgExecutionStore.decideApproval_climbs h₁.rung he).bind fun _ _ _ h₂ _ => .pure h₂.rung trivial
    refine Engine.Obeys.mono (fun res db' K hq => ?_) hd
    cases res
    case ok => exact hq
    case error e =>
      dsimp only
      split
      case h_1 =>
        have h₂ := hq _ rfl
        refine Climbs.since (.bind (rejectExpiredExecution_climbs h₂.rung <| h₂.keeps _ he) ?_) h₂.grows h₂.keeps
        exact fun _ _ _ h₃ _ => .pure h₃.rung trivial
      case h_2 hn => exact fun a he => absurd he <| hn a
  · cases approvalStatus
    · exact .pure (h₂.rung.mono (by decide)) trivial
    · exact applyDecision_climbs h₂.rung <| h₂.keeps _ he

theorem awaitOrDispatch_climbs (h : Rung 3 db H) (he : H (.execution request.identity.executionId)) :
    (awaitOrDispatch request decision).Climbs db₀ now 5 db H fun _ _ => True := by
  unfold awaitOrDispatch
  split
  · refine .still h nofun nofun fun _ _ _ h₁ => .still h₁.rung nofun nofun fun _ _ _ h₂ => ?_
    refine (Climbs.newDate h₂.rung).bind fun _ _ _ h₃ _ => ?_
    have he := h₃.keeps _ <| h₂.keeps _ <| h₁.keeps _ he
    exact (createApproval_climbs h₃.rung he).mono (by decide)
  split
  · exact createDispatch_climbs (h.mono (by decide)) he
  · exact .pure (h.mono (by decide)) trivial

theorem create_climbs (h : Rung 2 db H) :
    (create request).Climbs db₀ now 5 db H fun _ K => K (.execution request.identity.executionId) := by
  refine .next h nofun (m := 3) (by decide) (by simp [Resource.rank]) (by simp) fun _ _ _ h₁ hK => ?_
  have he := hK (.execution request.identity.executionId) (by simp)
  refine (Climbs.newDate h₁.rung).bind fun _ _ _ h₂ _ => ?_
  have he := h₂.keeps _ he
  refine (appendEvent_climbs h₂.rung he).bind fun _ _ _ h₃ _ => ?_
  have he := h₃.keeps _ he
  refine (awaitOrDispatch_climbs h₃.rung he).bind fun _ _ _ h₄ _ => ?_
  have he := h₄.keeps _ he
  refine .still h₄.rung nofun nofun fun _ _ _ h₅ => (Climbs.newDate h₅.rung).bind fun _ _ _ h₆ _ => ?_
  have he := h₆.keeps _ <| h₅.keeps _ he
  exact (appendAudit_climbs h₆.rung he).bind fun _ _ _ h₇ _ => .pure h₇.rung <| h₇.keeps _ he

theorem recordKey_climbs {requestHash : String} (h : Rung 5 db H) (he : H (.execution request.identity.executionId)) :
    (recordKey request key requestHash).Climbs db₀ now 6 db H fun _ _ => True := by
  refine (?_ : (putIdempotency _ _ _ _).Climbs db₀ now 6 db H fun _ _ => True).bind fun _ _ _ h₁ _ => ?_
  · exact .next h (by simpa [Statement.awaits]) (by decide) (by rintro (_ | _) <;> simp [Resource.rank])
      (by rintro (_ | _) <;> simp) fun _ _ _ hs _ => .pure hs.rung trivial
  refine (findIdempotency_climbs h₁.rung).bind fun recorded _ _ h₂ _ => ?_
  cases recorded
  · exact .throw nofun
  dsimp only
  split
  · exact .throw nofun
  split
  · refine (latestEvent_climbs h₂.rung).bind fun event _ _ h₃ _ => ?_
    cases event
    · exact .throw nofun
    · exact .pure h₃.rung trivial
  · exact .pure h₂.rung trivial

theorem findReusable_climbs {requestHash : String} (h : Rung 1 db H) :
    (findReusable t key requestHash).Climbs db₀ now 2 db H fun _ _ => True := by
  refine .next h nofun (m := 2) (by decide) (by simp [Resource.rank]) (by simp) fun _ _ _ h₁ _ => ?_
  refine (findIdempotency_climbs h₁.rung).bind fun existing _ _ h₂ _ => ?_
  cases existing
  · exact .pure h₂.rung trivial
  dsimp only
  split
  · exact .throw nofun
  refine (latestEvent_climbs h₂.rung).bind fun event _ _ h₃ _ => ?_
  cases event
  · exact .throw nofun
  · exact .pure h₃.rung trivial

theorem start_climbs {requestHash : String} (h : Rung 0 db H) :
    (start request requestHash options).Climbs db₀ now 6 db H fun _ _ => True := by
  refine (ensureTenant_climbs h).bind fun _ _ _ h₁ _ => ?_
  split
  · exact (create_climbs (h₁.rung.mono (by decide))).bind fun _ _ _ h₂ _ => .pure (h₂.rung.mono (by decide)) trivial
  refine (findReusable_climbs h₁.rung).bind fun result _ _ h₂ _ => ?_
  cases result
  case some => exact .pure (h₂.rung.mono (by decide)) trivial
  case none =>
    refine (create_climbs h₂.rung).bind fun stored _ _ h₃ he => ?_
    refine (recordKey_climbs h₃.rung he).bind fun result _ _ h₄ _ => ?_
    cases result
    · exact .pure h₄.rung trivial
    · exact .pure h₄.rung trivial

end PostgresExecutionService

open PostgresExecutionService PgExecutionStore in
theorem Call.climbs (c : Call) (db : Db) : c.body.Climbs db now 6 db (fun _ => False) fun _ _ => True := by
  have h n : Rung n db fun _ => False := ⟨nofun, nofun⟩
  cases c
  case start                 => exact start_climbs (h 0)
  case decideApproval        => exact (PostgresExecutionService.decideApproval_climbs (h 0)).mono (by decide)
  case expireApprovalsOnce   => exact (expireApprovalsOnce_climbs (h 3) rfl).mono (by decide)
  case transition            => exact (transition_climbs (h 0)).mono (by decide)
  case fail                  => exact (fail_climbs (h 0)).mono (by decide)
  case claimDispatches       => exact (claimDispatches_climbs (h 0)).mono (by decide)
  case markDispatchSucceeded => exact (markDispatchSucceeded_climbs (h 0)).mono (by decide)
  case markDispatchFailed    => exact (markDispatchFailed_climbs (h 0)).mono (by decide)

-- Statements that skip locked rows do not wait.
theorem Statement.Skips.not_blocked {s : platform.State} {c : Call} {o : Statement} {k' : o.Reply → Tx c.Result}
    {k : Except KernelError c.Result → platform.Code} (ho : o.Skips)
    (hp : s.procs pid = some (.inside c ⟨.op o k', tr, now⟩ k)) : ∃ amb, step (.stmt pid amb) s ≠ none := by
  -- The row is locked if it is free, and skipped otherwise.
  cases o <;> try exact ho.elim
  case lockExecution e =>
    by_cases hf : s.Free pid (.execution e)
    case pos =>
      refine ⟨Sample.ambient 0 "", State.stmt_ne_none hp rfl ?_ nofun⟩
      simpa [platform, engine, awaits, Sample.ambient]
    case neg =>
      refine ⟨{ Sample.ambient 0 "" with skip := true }, State.stmt_ne_none hp rfl nofun ?_⟩
      simpa [platform, engine, skips]
  case lockDispatch e =>
    by_cases hf : s.Free pid (.dispatch e)
    case neg =>
      refine ⟨{ Sample.ambient 0 "" with skip := true }, State.stmt_ne_none hp rfl nofun ?_⟩
      simpa [platform, engine, skips]
    case pos =>
      have ⟨r, hr, hl, hs⟩ : ∃ r : Candidate,
          (lockDispatch e).reply now (Sample.ambient 0 "") (engine.replay tr s.db) = .ok r ∧
          (lockDispatch e).locks r = [.dispatch e] ∧ (lockDispatch e).skips r = [] := by
        by_cases hc : ((engine.replay tr s.db).dispatches.find e).any (·.Claimable now)
        case pos => exact ⟨.locked, by simp [reply, Sample.ambient, hc], rfl, rfl⟩
        case neg => exact ⟨.dropped, by simp [reply, Sample.ambient, hc], rfl, rfl⟩
      have free : ∀ x ∈ (lockDispatch e).locks r ++ (lockDispatch e).awaits, s.Free pid x := by
        rw [hl]
        simpa [awaits]
      have skipped : ∀ x ∈ (lockDispatch e).skips r, ¬s.Free pid x := by simp [hs]
      exact ⟨_, State.stmt_ne_none hp hr free skipped⟩

-- A transaction that cannot go on waits for another one.
theorem Reachable.waits {s : platform.State} {c : Call} {o : Statement} {k' : o.Reply → Tx c.Result}
    {k : Except KernelError c.Result → platform.Code} (h : Reachable G s)
    (hp : s.procs pid = some (.inside c ⟨.op o k', tr, now⟩ k)) (hb : ∀ amb, step (.stmt pid amb) s = none) :
    ∃ pid', s.Waits (fun _ => True) pid pid' := by
  have ⟨clock, hi⟩ := h
  have hown : s.Owned := (State.Owned.initial _ _ _).steps hi
  refine hown.waits hb hp (Sample.ambient 0 "") fun r _ x hx => ?_
  have hk : o.Skips := by cases o <;> trivial
  have ⟨amb, hn⟩ := hk.not_blocked hp
  exact absurd (hb amb) hn

-- A transaction that waits has locked in order so far.
theorem Reachable.orderly {s : platform.State} (h : Reachable G s) (hw : s.WaitsFor pid x) :
    ∃ (o : Statement) (r : o.Reply) (tr : List (Engine.Entry sql)) (H : Resource → Prop),
      (∀ y, s.Has pid y ↔ H y) ∧ (∀ y, H y → s.Holds pid y) ∧ x ∈ o.locks r ++ o.awaits ∧ ¬o.Skips ∧
      Orderly s.db o r (engine.replay tr s.db) H := by
  have ⟨hb, c, o, k', tr, now, k, amb, r, hp, hr, hx⟩ := hw
  have ⟨clock, hi⟩ := h
  have hown : s.Owned := (State.Owned.initial _ _ _).steps hi
  have hs := ((h.allSound G.meets_located).left _ _ _ _ hp).now
  have ⟨ht, H, hH, hq⟩ := (Call.climbs c s.db).steps hs
  have ha : Premise.located.answer now o (engine.replay tr s.db) r :=
    ⟨Statement.told_of_reply hr, Statement.located_of_reply hr⟩
  simp only [false_or] at hH ht
  refine ⟨o, r, tr, H, fun y => ⟨?_, ?_⟩, fun y hy => (hown.holds hp).mpr <| (hH y).mp hy, hx, ?_, (hq r ha).left⟩
  · rintro ⟨c', t', k'', hp', e, he, hy⟩
    cases hp.symm.trans hp'
    have ⟨_, K, hK, ho⟩ := ht e he
    obtain hy | hy := List.mem_append.mp hy
    · exact (hH y).mpr <| List.mem_flatMap.mpr ⟨e, he, hy⟩
    · exact (hH y).mpr <| hK y <| ho.awaits y hy
  · intro hy
    have ⟨e, he, hy⟩ := List.mem_flatMap.mp <| (hH y).mp hy
    exact ⟨c, _, k, hp, e, he, List.mem_append_left _ hy⟩
  · intro ho
    have ⟨amb, hn⟩ := ho.not_blocked hp
    exact hn <| hb amb

-- No transactions wait for each other.
theorem transactions_never_deadlock {s : platform.State} (h : Reachable G s) (pid : Pid) :
    ¬Relation.TransGen (s.Waits Resource.Listed) pid pid := by
  refine State.acyclic Resource.rank (fun pid pid' x x' hn hx hw hx' hw' y hy hy' => ?_) pid
  have ⟨o, r, tr, H, hH, hh, hm, hk, ho⟩ := h.orderly hw
  have ⟨_, _, tr', H', hH', hh', _, _, ho'⟩ := h.orderly hw'
  have other {x} (hx : H x) (hx' : s.Has pid' x) : False :=
    hn <| Option.some.inj <| (hh' x <| (hH' x).mp hx').symm.trans (hh x hx)
  cases List.mem_append.mp hm
  case inr hm => exact (other (ho.awaits x hm) hx').elim
  case inl hm =>
    obtain hs | hx'' | hlt | ⟨a, row, rfl, hf, he⟩ := ho.locks x hm hx
    · exact absurd hs hk
    · exact (other hx'' hx').elim
    · exact hlt y hy <| (hH y).mp hy'
    · have ⟨row', hf', he'⟩ := ho'.tidy a <| (hH' _).mp hx'
      have ⟨row'', hf'', hs⟩ := ((discipline .none Premise.none_stable).replay_grows tr' s.db).approvals a row hf
      cases hf'.symm.trans hf''
      exact (other he <| (hH' _).mpr <| hs.executionId ▸ he').elim

-- Two clients start executions of the same tenant.
def Sample.contended : List platform.Label :=
  [.spawn 0 (started true none), .begin 0, .stmt 0 (ambient 0 ""), .spawn 1 (started true none), .begin 1]

open Sample in
theorem transactions_never_deadlock_contended :
    (reach unchecked contended).Waits Resource.Listed 1 0 ∧
    ∀ pid, ¬Relation.TransGen ((reach unchecked contended).Waits Resource.Listed) pid pid := by
  refine ⟨⟨by decide, .tenant "t", trivial, ⟨fun _ => rfl, ?_⟩, ?_⟩, ?_⟩
  · exact ⟨_, _, _, _, _, _, ambient 0 "", _, rfl, rfl, .head _⟩
  · exact ⟨_, _, _, rfl, _, .head _, .head _⟩
  · have hr : Reachable Guard.any (reach unchecked contended) := reach_reachable fun _ _ _ _ => trivial
    exact transactions_never_deadlock hr

end Logon
