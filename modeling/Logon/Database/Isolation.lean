import Logon.Database.Statements
import Logon.Library.Atomicity

namespace Logon

namespace Statement

-- Statements of other transactions wait for these locks. Updates of rows that do not exist take none.
@[simp]
def locks : (o : Statement) → o.Reply → List Resource
  | insertTenant t, true                => [.tenant t]
  | advisoryLock key, _                 => [.advisory key]
  | insertIdempotency t k _ _, some _   => [.idempotency t k]
  | insertExecution request _, _        => [.execution request.identity.executionId]
  | selectExecutionForUpdate e, some _  => [.execution e]
  | updateExecution e _, _              => [.execution e]
  | insertApproval request, some _      => [.approval request.approvalId]
  | selectApprovalForUpdate a, some _   => [.approval a]
  | updateApproval a _ _ _, _           => [.approval a]
  | lockExecution e, .locked            => [.execution e]
  | expireApproval a, some _            => [.approval a]
  | insertAudit record, _               => [.audit record.auditId]
  | insertDispatch e _, some _          => [.dispatch e]
  | lockDispatch e, .locked             => [.dispatch e]
  | lockDispatch e, .dropped            => [.dispatch e]
  | claimDispatch e _, some _           => [.dispatch e]
  | updateDispatchSucceeded e, some _   => [.dispatch e]
  | updateDispatchFailed e _, true      => [.dispatch e]
  | _, _                                => []

-- Foreign keys are checked under a lock of the row they refer to, which has to be free for that.
def awaits : Statement → List Resource
  | insertIdempotency _ _ e _ => [.execution e]
  | insertEvent event         => [.execution event.executionId]
  | insertApproval request    => [.execution request.executionId]
  | insertAudit record        => [.execution record.executionId]
  | insertDispatch e _        => [.execution e]
  | _                         => []

def skips : (o : Statement) → o.Reply → List Resource
  | lockExecution e, .skipped => [.execution e]
  | lockDispatch e, .skipped  => [.dispatch e]
  | _, _                      => []

end Statement

def KernelError.isDatabase : KernelError → Bool
  | database _ => true
  | _          => false

-- PostgreSQL
def engine : Engine sql Db Resource Ambient KernelError where
  reply  := Statement.reply
  effect := Statement.effect
  locks  := Statement.locks
  awaits := Statement.awaits
  skips  := Statement.skips
  fault  := KernelError.isDatabase

namespace Statement

-- What a transaction that holds its locks may conclude from a reply up to the moment it commits.
-- There is little to conclude from a snapshot, and nothing from the absence of a row, as neither
-- locks anything.
def Told (now : Time) : (o : Statement) → Db → o.Reply → Prop
  | insertTenant t, db, false => t ∈ db.tenants
  | insertTenant t, db, true => t ∉ db.tenants
  | selectIdempotency t k, db, r => r = db.idempotency.find (t, k)
  | insertIdempotency t k _ _, db, none => (db.idempotency.find (t, k)).isSome
  | insertIdempotency t k _ _, db, some t' => db.idempotency.find (t, k) = none ∧ t' = now
  | selectLatestEvent e, db, some row => row ∈ db.eventsOf e
  | insertExecution request _, db, t =>
    db.executions.find request.identity.executionId = none ∧ request.identity.tenantId ∈ db.tenants ∧
    request.createdAt.timestamptz = some t
  | selectExecutionForUpdate e, db, some row => db.executions.find e = some row
  | selectTenant e, db, r => r = (db.executions.find e).map (·.tenantId)
  | updateExecution _ _, _, t => t = now
  | selectMaxSequence e, db, n => n = db.maxSequence e
  | insertEvent event, db, t =>
    db.events.find (event.executionId, event.sequence) = none ∧ event.timestamp.timestamptz = some t
  | insertApproval request, db, none => (db.approvals.find request.approvalId).isSome
  | insertApproval request, db, some (t, t') =>
    db.approvals.find request.approvalId = none ∧ request.createdAt.timestamptz = some t ∧
    request.expiresAt.mapM Timestamp.timestamptz = some t'
  | selectApprovalForUpdate a, db, some (row, tenantId) =>
    db.approvals.find a = some row ∧
    ∃ execution, db.executions.find row.executionId = some execution ∧ execution.tenantId = tenantId
  | updateApproval _ _ _ decidedAt, _, t => t = (decidedAt.bind (·.timestamptz)).getD now
  | scanApprovals, _, rows => (rows.map Prod.fst).Nodup
  | expireApproval a, db, some row => ∃ old, db.approvals.find a = some old ∧ row = old.expire now
  | insertAudit record, db, t =>
    db.audit.find record.auditId = none ∧ record.createdAt.timestamptz = some t
  | insertDispatch e _, db, none => (db.dispatches.find e).isSome
  | insertDispatch e _, db, some t => db.dispatches.find e = none ∧ t = now
  | scanDispatches, _, ids => ids.Nodup
  | lockDispatch e, db, .locked => ∃ row, db.dispatches.find e = some row ∧ row.Claimable now
  | claimDispatch e leaseMs, db, some row =>
    ∃ old, db.dispatches.find e = some old ∧ row = old.claim now leaseMs
  | updateDispatchSucceeded e, db, some t => (db.dispatches.find e).isSome ∧ t = now
  | updateDispatchFailed e _, db, true => (db.dispatches.find e).isSome
  | join ids, _, r => r.Perm ids
  | _, _, _ => True

end Statement

-- The locks that protect what a statement reads and writes, given its reply.
@[simp]
def Statement.footprint : (o : Statement) → o.Reply → List Resource
  | insertTenant t, true                => [.tenant t]
  | selectIdempotency t k, _            => [.advisory (t ++ ":" ++ k)]
  | insertIdempotency t k _ _, some _   => [.advisory (t ++ ":" ++ k)]
  | insertExecution request _, _        => [.execution request.identity.executionId]
  | selectExecutionForUpdate e, some _  => [.execution e]
  | selectTenant e, _                   => [.execution e]
  | updateExecution e _, _              => [.execution e]
  | selectMaxSequence e, _              => [.execution e]
  | insertEvent event, _                => [.execution event.executionId]
  | insertApproval request, some _      => [.approval request.approvalId]
  | selectApprovalForUpdate a, some _   => [.approval a]
  | updateApproval a _ _ _, _           => [.approval a]
  | expireApproval a, some _            => [.approval a]
  | insertAudit record, _               => [.audit record.auditId]
  | insertDispatch e _, some _          => [.dispatch e]
  | lockDispatch e, .locked             => [.dispatch e]
  | claimDispatch e _, some _           => [.dispatch e]
  | updateDispatchSucceeded e, some _   => [.dispatch e]
  | updateDispatchFailed e _, true      => [.dispatch e]
  | _, _                                => []

namespace Db

theorem find_events (db : Db) (e : String) (n : Nat) :
    db.events.find (e, n) = (db.eventsOf e).find? (·.sequence = n) := by
  simp [Table.find, eventsOf, List.find?_filter, EventRow.key]

theorem eventsOf_insert {db : Db} {row : EventRow} (h : db.events.find row.key = none) (e : String) :
    { db with events := db.events.insert row }.eventsOf e =
    db.eventsOf e ++ if row.executionId = e then [row] else [] := by
  simp only [eventsOf, Table.rows_insert_new h, List.filter_append]
  congr 1
  by_cases he : row.executionId = e <;> simp [he]

theorem eventsOf_insert_ne {db : Db} {row : EventRow} (h : row.executionId ≠ e) :
    { db with events := db.events.insert row }.eventsOf e = db.eventsOf e := by
  cases hf : db.events.find row.key
  case none => simp [eventsOf_insert hf, h]
  case some => rw [Table.insert_of_some hf]

-- Events are either appended to those of their execution, or rejected.
theorem eventsOf_insert_congr {db db' : Db} (row : EventRow) (e : String)
    (hr : db.eventsOf row.executionId = db'.eventsOf row.executionId) :
    ∃ evs, { db with events := db.events.insert row }.eventsOf e = db.eventsOf e ++ evs ∧
           { db' with events := db'.events.insert row }.eventsOf e = db'.eventsOf e ++ evs := by
  have hf : db.events.find row.key = db'.events.find row.key := by
    simp only [EventRow.key, find_events, hr]
  cases h : db.events.find row.key
  case none   => exact ⟨_, eventsOf_insert h e, eventsOf_insert (hf ▸ h) e⟩
  case some r => exact ⟨[], by simp [Table.insert_of_some h, Table.insert_of_some (hf ▸ h)]⟩

-- What every statement preserves, whatever is locked.
structure Grows (db db' : Db) : Prop where
  tenants     : db.tenants ⊆ db'.tenants
  executions  : db.executions.Keeps ExecutionRow.Same db'.executions
  events      : ∀ e, db.eventsOf e <+: db'.eventsOf e
  approvals   : db.approvals.Keeps ApprovalRow.Same db'.approvals
  idempotency : db.idempotency.Keeps (· = ·) db'.idempotency
  dispatches  : db.dispatches.Keeps DispatchRow.Same db'.dispatches

theorem Grows.refl (db : Db) : Grows db db where
  tenants     := fun _ => id
  executions  := .refl .refl _
  events      := fun _ => List.prefix_refl _
  approvals   := .refl .refl _
  idempotency := .refl (fun _ => rfl) _
  dispatches  := .refl .refl _

theorem Grows.trans {db₁ db₂ db₃ : Db} (h₁ : Grows db₁ db₂) (h₂ : Grows db₂ db₃) : Grows db₁ db₃ where
  tenants     := fun _ h => h₂.tenants <| h₁.tenants h
  executions  := h₁.executions.trans .trans h₂.executions
  events      := fun e => (h₁.events e).trans (h₂.events e)
  approvals   := h₁.approvals.trans .trans h₂.approvals
  idempotency := h₁.idempotency.trans Eq.trans h₂.idempotency
  dispatches  := h₁.dispatches.trans .trans h₂.dispatches

theorem Grows.findEvent {db db' : Db} (h : Grows db db') (hf : db.events.find key = some ev) :
    db'.events.find key = some ev := by
  obtain ⟨e, n⟩ := key
  rw [find_events] at hf ⊢
  exact (h.events e).find?_eq_some hf

-- The slice of the database that a lock protects.
def Same (db db' : Db) : Resource → Prop
  | .advisory key  => ∀ t k, t ++ ":" ++ k = key → db.idempotency.find (t, k) = db'.idempotency.find (t, k)
  | .execution e   => db.executions.find e = db'.executions.find e ∧ db.eventsOf e = db'.eventsOf e
  | .approval a    => db.approvals.find a = db'.approvals.find a
  | .audit a       => db.audit.find a = db'.audit.find a
  | .dispatch e    => db.dispatches.find e = db'.dispatches.find e
  | .tenant t      => t ∈ db.tenants ↔ t ∈ db'.tenants
  | .idempotency _ _ => True

theorem same_equivalence (x : Resource) : Equivalence fun db db' => Same db db' x where
  refl := fun db => by cases x <;> simp [Same]
  symm := fun {db db'} h => by cases x <;> simp_all [Same]
  trans := fun {db₁ db₂ db₃} h₁ h₂ => by cases x <;> simp_all [Same]

variable {o : Statement} {r : o.Reply} {db db' : Db}

theorem grows_effect (o : Statement) (r : o.Reply) (db : Db) : db.Grows (o.effect r db) := by
  unfold Statement.effect
  split
  case h_1  => exact { Grows.refl db with tenants := by simp }
  case h_2  => exact { Grows.refl db with idempotency := .insert (fun _ => rfl) _ _ }
  case h_3  => exact { Grows.refl db with executions := .insert .refl _ _ }
  case h_4  => exact { Grows.refl db with executions := .modify .refl (fun _ _ => ⟨rfl, rfl⟩) (by simp) }
  case h_5 event t =>
    refine { Grows.refl db with events := fun e => ?_ }
    have ⟨evs, h, _⟩ := eventsOf_insert_congr (.of event t) e (rfl : db.eventsOf _ = _)
    rw [h]
    exact List.prefix_append _ _
  case h_6  => exact { Grows.refl db with approvals := .insert .refl _ _ }
  case h_7  => exact { Grows.refl db with approvals := .modify .refl (fun _ _ => ⟨rfl, rfl, rfl⟩) (by simp) }
  case h_8  => exact { Grows.refl db with approvals := .modify .refl (fun _ _ => ⟨rfl, rfl, rfl⟩) (by simp) }
  case h_9  => exact { Grows.refl db with }
  case h_10 => exact { Grows.refl db with dispatches := .insert .refl _ _ }
  case h_11 => exact { Grows.refl db with dispatches := .modify .refl (fun _ _ => ⟨rfl, rfl⟩) (by simp) }
  case h_12 => exact { Grows.refl db with dispatches := .modify .refl (fun _ _ => ⟨rfl, rfl⟩) (by simp) }
  case h_13 => exact { Grows.refl db with dispatches := .modify .refl (fun _ _ => ⟨rfl, rfl⟩) (by simp) }
  case h_14 => exact .refl db

theorem same_effect (db : Db) (h : x ∉ o.footprint r) : Same db (o.effect r db) x := by
  revert h
  unfold Statement.effect
  split <;> intro h <;> cases x <;>
    first | exact trivial | exact rfl | exact ⟨rfl, rfl⟩ | exact fun _ _ _ => rfl | exact Iff.rfl |
      simp [Statement.footprint] at h
  case h_1.tenant => simp [Same, h]
  case h_2.advisory =>
    intro t k hk
    refine (Table.find_insert_ne _ fun he => h ?_).symm
    cases he
    exact hk.symm
  case h_3.execution => exact ⟨(Table.find_insert_ne _ (by exact h)).symm, rfl⟩
  case h_4.execution => exact ⟨(Table.find_modify_ne _ _ (by simp) h).symm, rfl⟩
  case h_5.execution =>
    exact ⟨rfl, (eventsOf_insert_ne <| by exact Ne.symm h).symm⟩
  case h_6.approval => exact (Table.find_insert_ne _ (by exact h)).symm
  case h_7.approval => exact (Table.find_modify_ne _ _ (by simp) h).symm
  case h_8.approval => exact (Table.find_modify_ne _ _ (by simp) h).symm
  case h_9.audit    => exact (Table.find_insert_ne _ (by exact h)).symm
  case h_10.dispatch => exact (Table.find_insert_ne _ (by exact h)).symm
  case h_11.dispatch => exact (Table.find_modify_ne _ _ (by simp) h).symm
  case h_12.dispatch => exact (Table.find_modify_ne _ _ (by simp) h).symm
  case h_13.dispatch => exact (Table.find_modify_ne _ _ (by simp) h).symm

-- Statements take databases that are the same under the locks they need to databases that are so, too.
theorem grows_effect_congr (hg : db.Grows db') (hs : ∀ x ∈ o.footprint r, Same db db' x) :
    (o.effect r db).Grows (o.effect r db') := by
  revert hs
  unfold Statement.effect
  split <;> intro hs <;> simp only [Statement.footprint, List.mem_singleton, forall_eq] at hs
  case h_1 => exact { hg with tenants := by simpa using List.Subset.trans hg.tenants (by simp) }
  case h_2 => exact { hg with idempotency := hg.idempotency.insert_congr (fun _ => rfl) (hs _ _ rfl) }
  case h_3 => exact { hg with executions := hg.executions.insert_congr .refl hs.left }
  case h_4 => exact { hg with executions := hg.executions.modify_congr .refl (by simp) hs.left }
  case h_5 event t =>
    refine { hg with events := fun e => ?_ }
    by_cases he : event.executionId = e
    case pos =>
      subst he
      have ⟨evs, h, h'⟩ := eventsOf_insert_congr (.of event t) event.executionId hs.right
      simp [h, h', hs.right]
    case neg =>
      rw [eventsOf_insert_ne he, eventsOf_insert_ne he]
      exact hg.events e
  case h_6  => exact { hg with approvals := hg.approvals.insert_congr .refl hs }
  case h_7  => exact { hg with approvals := hg.approvals.modify_congr .refl (by simp) hs }
  case h_8  => exact { hg with approvals := hg.approvals.modify_congr .refl (by simp) hs }
  case h_9  => exact { hg with }
  case h_10 => exact { hg with dispatches := hg.dispatches.insert_congr .refl hs }
  case h_11 => exact { hg with dispatches := hg.dispatches.modify_congr .refl (by simp) hs }
  case h_12 => exact { hg with dispatches := hg.dispatches.modify_congr .refl (by simp) hs }
  case h_13 => exact { hg with dispatches := hg.dispatches.modify_congr .refl (by simp) hs }
  case h_14 => exact hg

theorem same_effect_congr (hs : ∀ x ∈ o.footprint r, Same db db' x) :
    ∀ x ∈ o.footprint r, Same (o.effect r db) (o.effect r db') x := by
  revert hs
  unfold Statement.effect
  split <;> intro hs <;> simp only [Statement.footprint, List.mem_singleton, forall_eq] at hs ⊢
  case h_1  => simp [Same]
  case h_2  => exact fun t k hk => Table.find_insert_congr (hs t k hk)
  case h_3  => exact ⟨Table.find_insert_congr hs.left, hs.right⟩
  case h_4  =>
    exact ⟨Table.find_modify_congr (by simp) hs.left, hs.right⟩
  case h_5 event t =>
    obtain ⟨evs, h, h'⟩ := eventsOf_insert_congr (.of event t) event.executionId hs.right
    exact ⟨hs.left, by rw [h, h', hs.right]⟩
  case h_6  => exact Table.find_insert_congr hs
  case h_7  => exact Table.find_modify_congr (by simp) hs
  case h_8  => exact Table.find_modify_congr (by simp) hs
  case h_9  => exact Table.find_insert_congr hs
  case h_10 => exact Table.find_insert_congr hs
  case h_11 => exact Table.find_modify_congr (by simp) hs
  case h_12 => exact Table.find_modify_congr (by simp) hs
  case h_13 => exact Table.find_modify_congr (by simp) hs
  case h_14 => exact hs

-- What was told stays true while the locks are held.
theorem told_stable (hg : db.Grows db') (hs : ∀ x ∈ o.footprint r, Same db db' x)
    (h : o.Told now db r) : o.Told now db' r := by
  have hs {x} (hx : o.footprint r = [x]) : Same db db' x := hs x (hx ▸ List.mem_singleton_self x)
  cases o
  case insertTenant =>
    cases r
    case false => exact hg.tenants h
    case true  => exact fun hm => h ((hs rfl).mpr hm)
  case selectIdempotency => exact h.trans (hs rfl _ _ rfl)
  case insertIdempotency =>
    cases r
    case none => exact hg.idempotency.isSome h
    case some => exact ⟨(hs rfl _ _ rfl).symm.trans h.left, h.right⟩
  case selectLatestEvent =>
    cases r
    case none => trivial
    case some => exact (hg.events _).subset h
  case insertExecution =>
    exact ⟨(hs rfl).left.symm.trans h.left, hg.tenants h.right.left, h.right.right⟩
  case selectExecutionForUpdate =>
    cases r
    case none => trivial
    case some => exact (hs rfl).left.symm.trans h
  case selectTenant      => exact h.trans (by rw [(hs rfl).left])
  case selectMaxSequence => exact h.trans (by rw [maxSequence, maxSequence, (hs rfl).right])
  case insertEvent       => exact ⟨by rw [find_events, ← (hs rfl).right, ← find_events]; exact h.left, h.right⟩
  case insertApproval =>
    cases r
    case none => exact hg.approvals.isSome h
    case some => exact ⟨(hs rfl).symm.trans h.left, h.right⟩
  case selectApprovalForUpdate =>
    cases r
    case none => trivial
    case some =>
      have ⟨hf, execution, he, ht⟩ := h
      have ⟨execution', he', ht'⟩ := hg.executions _ _ he
      exact ⟨(hs rfl).symm.trans hf, execution', he', ht'.tenantId.trans ht⟩
  case expireApproval =>
    cases r
    case none => trivial
    case some =>
      have ⟨old, ho, hr⟩ := h
      exact ⟨old, (hs rfl).symm.trans ho, hr⟩
  case insertAudit => exact ⟨(hs rfl).symm.trans h.left, h.right⟩
  case insertDispatch =>
    cases r
    case none => exact hg.dispatches.isSome h
    case some => exact ⟨(hs rfl).symm.trans h.left, h.right⟩
  case lockDispatch =>
    cases r
    case locked =>
      have ⟨row, hr, hc⟩ := h
      exact ⟨row, (hs rfl).symm.trans hr, hc⟩
    all_goals trivial
  case claimDispatch =>
    cases r
    case none => trivial
    case some =>
      have ⟨old, ho, hr⟩ := h
      exact ⟨old, (hs rfl).symm.trans ho, hr⟩
  case updateDispatchSucceeded =>
    cases r
    case none => trivial
    case some => exact ⟨hg.dispatches.isSome h.left, h.right⟩
  case updateDispatchFailed =>
    cases r
    case false => trivial
    case true  => exact hg.dispatches.isSome h
  all_goals exact h

end Db

namespace Statement

theorem bind_ok {x : Except ε α} {f : α → Except ε β} :
    (x >>= f) = .ok b ↔ ∃ a, x = .ok a ∧ f a = .ok b := by
  cases x <;> simp [bind, Except.bind]

@[simp]
theorem require_ok {p : Prop} [Decidable p] {e : SqlError} {u : Unit} : require p e = .ok u ↔ p := by
  unfold require
  split <;> simp_all

@[simp]
theorem checkTexts_ok {texts : List String} {u : Unit} : checkTexts texts = .ok u ↔ ∀ text ∈ texts, Storable text :=
  require_ok

@[simp]
theorem checkJson_ok {json : Json} {u : Unit} : checkJson json = .ok u ↔ json.Storable :=
  require_ok

@[simp]
theorem castTime_ok {t : Timestamp} : castTime t = .ok t' ↔ t.timestamptz = some t' := by
  unfold castTime
  split <;> simp_all

theorem mapM_castTime_ok {t : Option Timestamp} :
    t.mapM castTime = .ok t' ↔ t.mapM Timestamp.timestamptz = some t' := by
  cases t
  case none => simp [pure, Except.pure, eq_comm]
  case some t =>
    cases h : t.timestamptz <;> simp [Functor.map, Except.map, castTime, h]

theorem nodup_orderBy [DecidableEq κ] {key : α → κ} (t : Table key) {p : α → Bool} :
    ((orderBy time rank (t.rows.filter p)).map key).Nodup := by
  have hp := (List.perm_insertionSort (fun r r' => time r < time r' ∨ time r = time r' ∧ rank r ≤ rank r')
    (t.rows.filter p)).map key
  exact hp.nodup_iff.mpr <| t.nodup.sublist <| List.filter_sublist.map key

-- Results whose errors are those of the database.
def DatabaseErrors (x : Except KernelError α) : Prop :=
  ∀ e, x = .error e → e.isDatabase

namespace DatabaseErrors

theorem ok {a : α} : DatabaseErrors (.ok a) :=
  nofun

theorem bind {x : Except KernelError α} {f : α → Except KernelError β} (hx : DatabaseErrors x)
    (hf : ∀ a, DatabaseErrors (f a)) : DatabaseErrors (x >>= f) := by
  cases x
  case ok a    => exact hf a
  case error e =>
    intro _ h
    cases h
    exact hx e rfl

theorem require {p : Prop} [Decidable p] {e : SqlError} : DatabaseErrors (require p e) := by
  unfold Statement.require
  split
  case isTrue  => exact ok
  case isFalse =>
    intro _ h
    cases h
    rfl

theorem castTime {t : Timestamp} : DatabaseErrors (castTime t) := by
  unfold Statement.castTime
  split
  case h_1 => exact ok
  case h_2 =>
    intro _ h
    cases h
    rfl

theorem mapM_castTime {t : Option Timestamp} : DatabaseErrors (t.mapM Statement.castTime) := by
  cases t
  case none   => exact ok
  case some t =>
    rw [Option.mapM_some, map_eq_pure_bind]
    exact castTime.bind fun _ => ok

end DatabaseErrors

theorem reply_databaseErrors (o : Statement) (now : Time) (amb : Ambient) (db : Db) :
    DatabaseErrors (o.reply now amb db) := by
  cases o <;> simp only [Statement.reply]
  case insertTenant => exact .bind .require fun _ => .ok
  case insertIdempotency =>
    refine .bind .require fun _ => ?_
    split
    · exact .ok
    · exact .bind .require fun _ => .ok
  case insertExecution =>
    exact .bind .require fun _ => .bind .require fun _ => .bind .castTime fun _ => .bind .require fun _ =>
      .bind .require fun _ => .ok
  case insertEvent =>
    exact .bind .require fun _ => .bind .require fun _ => .bind .castTime fun _ => .bind .require fun _ =>
      .bind .require fun _ => .ok
  case insertAudit =>
    exact .bind .require fun _ => .bind .castTime fun _ => .bind .require fun _ => .bind .require fun _ => .ok
  case insertApproval =>
    refine .bind .require fun _ => .bind .castTime fun _ => .bind .mapM_castTime fun _ => ?_
    split
    · exact .ok
    · exact .bind .require fun _ => .ok
  case updateApproval =>
    refine .bind .require fun _ => ?_
    split
    · exact .castTime
    · exact .ok
  case insertDispatch  =>
    split
    · exact .ok
    · exact .bind .require fun _ => .ok
  all_goals exact .ok

-- The errors that the server gives are those of the database.
theorem reply_error {o : Statement} {db : Db} (h : o.reply now amb db = .error e) : e.isDatabase :=
  reply_databaseErrors o now amb db e h

theorem told_of_reply {o : Statement} {db : Db} {r : o.Reply} (h : o.reply now amb db = .ok r) :
    o.Told now db r := by
  cases o <;> simp only [Statement.reply, Except.ok.injEq, bind_ok] at h
  case insertTenant t =>
    obtain ⟨_, _, h⟩ := h
    cases r <;> simpa [Told, pure, Except.pure] using h
  case selectIdempotency => exact h.symm
  case insertIdempotency =>
    obtain ⟨_, _, h⟩ := h
    split at h
    case h_1 hf =>
      cases h
      simp [Told, hf]
    case h_2 hf =>
      simp only [bind_ok, pure, Except.pure, Except.ok.injEq] at h
      obtain ⟨_, _, rfl⟩ := h
      exact ⟨hf, rfl⟩
  case selectLatestEvent e =>
    cases r
    case none => trivial
    case some => exact List.mem_of_find?_eq_some h
  case insertExecution =>
    simp only [castTime_ok, require_ok, pure, Except.pure, Except.ok.injEq] at h
    obtain ⟨_, _, _, _, _, ht, _, hn, _, hm, rfl⟩ := h
    exact ⟨by simpa using hn, hm, ht⟩
  case selectExecutionForUpdate =>
    cases r
    case none => trivial
    case some => exact h
  case selectTenant      => exact h.symm
  case updateExecution   => exact h.symm
  case selectMaxSequence => exact h.symm
  case insertEvent =>
    simp only [castTime_ok, require_ok, pure, Except.pure, Except.ok.injEq] at h
    obtain ⟨_, _, _, _, _, ht, _, hn, _, _, rfl⟩ := h
    exact ⟨by simpa using hn, ht⟩
  case insertApproval =>
    obtain ⟨_, _, _, ht, _, ht', h⟩ := h
    split at h
    case h_1 hf =>
      cases h
      simp [Told, hf]
    case h_2 hf =>
      simp only [bind_ok, pure, Except.pure, Except.ok.injEq] at h
      obtain ⟨_, _, rfl⟩ := h
      exact ⟨hf, castTime_ok.mp ht, mapM_castTime_ok.mp ht'⟩
  case selectApprovalForUpdate =>
    cases r
    case none => trivial
    case some p =>
      simp only [bind, Option.bind_eq_some_iff, pure, Option.some.injEq] at h
      obtain ⟨row, hr, execution, he, rfl⟩ := h
      exact ⟨hr, execution, he, rfl⟩
  case updateApproval =>
    obtain ⟨_, _, h⟩ := h
    split at h
    · simp_all [Told]
    · simp_all [Told, pure, Except.pure]
  case scanApprovals =>
    subst h
    rw [Told, List.map_map]
    exact nodup_orderBy db.approvals
  case scanDispatches => exact h ▸ nodup_orderBy db.dispatches
  case expireApproval =>
    cases r
    case none => trivial
    case some =>
      obtain ⟨old, ho, hr⟩ := Option.map_eq_some_iff.mp h
      exact ⟨old, ho, hr.symm⟩
  case insertAudit =>
    simp only [castTime_ok, require_ok, pure, Except.pure, Except.ok.injEq] at h
    obtain ⟨_, _, _, ht, _, hn, _, _, rfl⟩ := h
    exact ⟨by simpa using hn, ht⟩
  case insertDispatch =>
    split at h
    case h_1 hf =>
      cases h
      simp [Told, hf]
    case h_2 hf =>
      simp only [bind_ok, pure, Except.pure, Except.ok.injEq] at h
      obtain ⟨_, _, rfl⟩ := h
      exact ⟨hf, rfl⟩
  case lockDispatch e =>
    cases r
    case skipped => trivial
    case dropped => trivial
    case locked =>
      split at h
      · cases h
      · split at h
        case isTrue hc => simpa [Told, Option.any_eq_true] using hc
        case isFalse   => cases h
  case claimDispatch =>
    cases r
    case none => trivial
    case some =>
      obtain ⟨old, ho, hr⟩ := Option.map_eq_some_iff.mp h
      exact ⟨old, ho, hr.symm⟩
  case updateDispatchSucceeded =>
    cases r
    case none => trivial
    case some =>
      obtain ⟨row, hr, ht⟩ := Option.map_eq_some_iff.mp h
      exact ⟨by simp [hr], ht.symm⟩
  case updateDispatchFailed =>
    cases r
    case false => trivial
    case true  => exact h
  case join => exact h ▸ List.perm_insertionSort ..
  all_goals trivial

end Statement

-- What else a group of results assumes about replies.
abbrev Premise := Time → (o : Statement) → Db → o.Reply → Prop

namespace Premise

def Stable (P : Premise) : Prop :=
  ∀ now o r db db', db.Grows db' → (∀ x ∈ o.footprint r, Db.Same db db' x) → P now o db r → P now o db' r

def none : Premise :=
  fun _ _ _ _ => True

theorem none_stable : none.Stable :=
  fun _ _ _ _ _ _ _ => id

instance (now : Time) (o : Statement) (db : Db) (r : o.Reply) : Decidable (none now o db r) :=
  .isTrue trivial

-- A premise that can be evaluated.
def of (p : Time → (o : Statement) → Db → o.Reply → Bool) : Premise :=
  fun now o db r => p now o db r

instance {p : Time → (o : Statement) → Db → o.Reply → Bool} (now : Time) (o : Statement) (db : Db) (r : o.Reply) :
    Decidable (of p now o db r) :=
  inferInstanceAs (Decidable (p now o db r = true))

-- What is known about replies under a premise.
def answer (P : Premise) (now : Time) (o : Statement) (db : Db) (r : o.Reply) : Prop :=
  o.Told now db r ∧ P now o db r

end Premise

def discipline (P : Premise) (h : P.Stable) : engine.Discipline Statement.footprint P.answer where
  Same        := fun x db db' => Db.Same db db' x
  Grows       := Db.Grows
  same        := Db.same_equivalence
  grows_refl  := .refl
  grows_trans := .trans
  grows       := Db.grows_effect
  frame       := Db.same_effect
  congr_grows := Db.grows_effect_congr
  congr_same  := fun _ => Db.same_effect_congr
  stable      := fun hg hs ha => ⟨Db.told_stable hg hs ha.left, h _ _ _ _ _ hg hs ha.right⟩
  faults      := Statement.reply_error

end Logon
