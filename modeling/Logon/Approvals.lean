import Logon.Lifecycle

-- Decisions about approvals are final, unless a sweep overtakes them.

namespace Logon

open System

variable {P : Premise} {now : Time} {db db' : Db}

-- What a change can do to approvals.
inductive ApprovalChange (P : Premise) (now : Time) (db db' : Db) : Prop
  | same :
    db'.approvals = db.approvals → ApprovalChange P now db db'
  | request {request c x} :
    db.approvals.find request.approvalId = none → db'.approvals = db.approvals.insert (.of request c x) →
    ApprovalChange P now db db'
  | decide {a row status decidedBy t} :
    db.approvals.find a = some row → status ≠ .pending → (status = .expired → decidedBy = "logon.approval.expiry") →
    (row.status = .pending ∨ status = .expired ∧ P now (.expireApproval a) db (some (row.expire now))) →
    db'.approvals = db.approvals.modify a (·.decide status decidedBy t) → ApprovalChange P now db db'

theorem Change.approvals (h : Change P now db db') : ApprovalChange P now db db' := by
  cases h
  case approval hn         => exact .request hn rfl
  case decision hf hp hs hx => exact .decide hf hs hx (.inl hp) rfl
  case expiry hf hp        => exact .decide hf (by decide) (fun _ => rfl) (.inr ⟨rfl, hp⟩) rfl
  case advance hv          => cases hv; exact .same rfl
  all_goals exact .same rfl

namespace Db

-- Only the expiry of approvals expires approvals.
def Signed (db : Db) : Prop :=
  ∀ a row, db.approvals.find a = some row → row.status = .expired →
  row.decidedBy = some "logon.approval.expiry"

theorem Signed.empty : Db.empty.Signed :=
  nofun

theorem Signed.change (hc : Change P now db db') (h : db.Signed) : db'.Signed := by
  intro a row hf hs
  cases hc.approvals
  case same he => exact h a row (he ▸ hf) hs
  case request hn he =>
    rw [he, Table.find_insert] at hf
    split at hf
    case isTrue ha =>
      rw [ha, ApprovalRow.of_approvalId, hn] at hf
      cases hf
      cases hs
    case isFalse => exact h a row hf hs
  case decide a' old status decidedBy t hf' _ hx _ he =>
    rw [he, Table.find_modify] at hf
    split at hf
    case isTrue ha =>
      rw [ha, hf'] at hf
      cases hf
      exact congrArg some (hx hs)
    case isFalse => exact h a row hf hs

-- A decision about an approval, that stays as it is.
def Decided (db : Db) (a : String) (status : ApprovalStatus) (decidedBy : Option String) : Prop :=
  (db.approvals.find a).map (fun row => (row.status, row.decidedBy)) = some (status, decidedBy)

instance (db : Db) (a : String) (status : ApprovalStatus) (decidedBy : Option String) :
    Decidable (db.Decided a status decidedBy) :=
  inferInstanceAs (Decidable (_ = _))

theorem Decided.iff : db.Decided a status decidedBy ↔
    ∃ row, db.approvals.find a = some row ∧ row.status = status ∧ row.decidedBy = decidedBy := by
  simp [Decided]

end Db

-- No sweep expires an approval that someone has decided about.
abbrev Premise.spares : Premise := .of fun _ o db r =>
  match o, r with
  | .expireApproval a, some _ => (db.approvals.find a).all fun row => row.status = .pending ∨ row.status = .expired
  | _, _                      => true

theorem Premise.spares_stable : spares.Stable := by
  intro now o r db db' _ hs hp
  cases o <;> try exact hp
  case expireApproval a =>
    cases r
    case none => exact hp
    case some =>
      have he : db.approvals.find a = db'.approvals.find a := hs (.approval a) (by simp [Statement.footprint])
      simpa only [spares, of, he] using hp

theorem Db.Decided.change (hc : Change .spares now db db') (hg : db.Signed) (hn : status ≠ .pending)
    (h : db.Decided a status decidedBy) : db'.Decided a status decidedBy := by
  obtain ⟨row, hf, rfl, rfl⟩ := Decided.iff.mp h
  rw [Decided.iff]
  cases hc.approvals
  case same he       => exact ⟨row, he ▸ hf, rfl, rfl⟩
  case request hn he => exact ⟨row, he ▸ Table.find_insert_of_some hf, rfl, rfl⟩
  case decide a' old status decidedBy t hf' _ hx hp he =>
    by_cases ha : a = a'
    case neg => exact ⟨row, by rw [he, Table.find_modify_ne _ _ _ ha, hf], rfl, rfl⟩
    case pos =>
      subst ha
      rw [hf] at hf'
      cases hf'
      -- Both the old decision and the new one are that the approval has expired.
      have ⟨hs, hp⟩ := hp.resolve_left hn
      have ho : row.status = .expired := by simpa [Premise.of, hf, hn] using hp
      refine ⟨_, by rw [he, Table.find_modify_self, hf]; rfl, hs.trans ho.symm, ?_⟩
      rw [hg a row hf ho, ← hx hs]

structure Db.Settled (db : Db) (a : String) (status : ApprovalStatus) (decidedBy : Option String) : Prop where
  signed  : db.Signed
  decided : db.Decided a status decidedBy

theorem Db.Settled.change (hn : status ≠ .pending) (hc : Change .spares now db db')
    (h : db.Settled a status decidedBy) : db'.Settled a status decidedBy where
  signed  := h.signed.change hc
  decided := h.decided.change hc h.signed hn

-- Decisions are final in every run in which the sweep spares approvals that are decided.
theorem decisions_are_final {s s' : platform.State} {status : ApprovalStatus} {decidedBy : Option String}
    (h : Reachable (Guard.of .spares fun _ _ => True) s) (hs : Steps (Guard.of .spares fun _ _ => True) s s')
    (hn : status ≠ .pending) (hd : s.db.Decided a status decidedBy) : s'.db.Decided a status decidedBy := by
  have hm := Guard.of_meets Premise.spares_stable fun _ _ => True
  have ⟨_, hi⟩ := h.atomic hm
  have hg : s.db.Signed :=
    AtomicSteps.db_invariant hi Db.Signed.empty fun _ _ _ _ _ hc _ => hc.changes.preserves Db.Signed.change
  have hd : s.db.Settled a status decidedBy := ⟨hg, hd⟩
  have hd' : s'.db.Settled a status decidedBy := AtomicSteps.db_invariant (h.atomicSteps hs hm) hd
    fun _ _ _ _ _ hc _ => hc.changes.preserves <| Db.Settled.change hn
  exact hd'.decided

open Sample in
-- An approval is granted, and a later sweep leaves it alone.
theorem decisions_are_final_swept :
    (follow (Guard.check .spares fun _ _ => True) (.tick 86400000 :: transact 2 swept 86400000 "z" 2)
      (reach (Guard.check .spares fun _ _ => True) (gated ++ transact 1 decided 5 "y" 11))).db.Decided
      "a" .approved (some "boss") :=
  decisions_are_final (reach_reachable fun _ _ _ => Guard.of_check) (follow_steps fun _ _ _ => Guard.of_check)
    (by decide) (by decide +kernel)

open Sample in
-- A sweep that has read the pending approval before the decision commits updates it all the same.
theorem decisions_are_not_final :
    ∃ s s' : platform.State, Reachable Guard.any s ∧ Steps Guard.any s s' ∧
      s.db.Decided "a" .approved (some "boss") ∧ s'.db.Decided "a" .expired (some "logon.approval.expiry") := by
  let before : List platform.Label :=
    gated ++ [.tick 86399999, .spawn 1 decided, .begin 1] ++
    List.replicate 11 (.stmt 1 (ambient 86399999 "y")) ++
    [.tick 86400000, .spawn 2 swept, .begin 2, .stmt 2 (ambient 86400000 ""), .commit 1]
  let after : List platform.Label := List.replicate 4 (.stmt 2 (ambient 86400000 "z")) ++ [.commit 2]
  refine ⟨reach unchecked before, follow unchecked after (reach unchecked before), ?_, ?_, ?_, ?_⟩
  · exact reach_reachable fun _ _ _ _ => trivial
  · exact follow_steps fun _ _ _ _ => trivial
  · decide +kernel
  · decide +kernel

end Logon
