import Mathlib.Logic.Equiv.Basic
import Logon.Lifecycle
import Logon.Runtime.Parties

-- Calls of `start` under one key of a tenant take effect once.

namespace Logon

open System PostgresExecutionService

variable {P : Premise} {now : Time} {db db' : Db} {requestHash : String}

theorem Reject.idempotency (h : Reject P now e a db db') : db'.idempotency = db.idempotency := by
  cases h
  case mk hv hu =>
    cases hv
    cases hu
    rfl

theorem Decide.idempotency {decision : ApprovalDecision} (h : Decide P now decision db outcome db') :
    db'.idempotency = db.idempotency := by
  cases h
  case expired hr => exact hr.idempotency
  case decided hd hv hs hu =>
    subst hd
    cases hv
    cases hu
    obtain ⟨-, rfl⟩ | ⟨-, -, rfl⟩ | ⟨-, -, rfl⟩ := hs <;> rfl

theorem Sweep.idempotency (h : Sweep P now limit db result db') : db'.idempotency = db.idempotency := by
  cases h
  case mk hx hr =>
    rw [hr.unchanged Db.idempotency Reject.idempotency]
    exact hx.unchanged Db.idempotency fun _ _ _ _ hx => by cases hx <;> rfl

theorem Claim.idempotency (h : Claim P now limit leaseMs db claims db') : db'.idempotency = db.idempotency := by
  cases h
  case mk hx => exact hx.unchanged Db.idempotency fun _ _ _ _ hx => by cases hx <;> rfl

theorem Create.findExecution {request : ExecutionRequest} (h : Create P now request db event db') :
    ∃ execution, db'.executions.find request.identity.executionId = some execution ∧
      execution.tenantId = request.identity.tenantId ∧
      execution.requestJson = request.toJs.toJson.getD .null := by
  cases h
  case mk c t db₁ _ hf _ _ _ ha hu =>
    have he : db'.executions = (db.addExecution request (createdEvent request (.iso t)) c t).executions :=
      hu.executions.trans ha.executions
    refine ⟨.of request (createdEvent request (.iso t)).status c, ?_, rfl, rfl⟩
    rw [he]
    exact Table.find_insert_new hf

-- Whether a transaction has been the one to take effect under a key.
def accepted (tenantId key : String) : platform.Commit → Bool
  | ⟨_, .start request _ options, result, _⟩ =>
    request.identity.tenantId = tenantId ∧ options.key = some key ∧ !result.reused
  | _ => false

-- The call that has put a record under a key, and the execution that it has started.
structure Recorded (host : Host) (db : Db) (log : List platform.Commit) (row : IdempotencyRow)
    (request : ExecutionRequest) : Prop where
  accepted    : ∃ entry ∈ log, accepted row.tenantId row.idempotencyKey entry ∧ ∃ options,
                entry.call = Call.start request row.requestHash options
  requestHash : PostgresExecutionService.requestHash host request = some row.requestHash
  executionId : request.identity.executionId = row.executionId
  tenantId    : request.identity.tenantId = row.tenantId
  execution   : ∃ execution, db.executions.find row.executionId = some execution ∧
                execution.tenantId = row.tenantId ∧ execution.requestJson = request.toJs.toJson.getD .null

theorem Recorded.mono {host : Host} {log log' : List platform.Commit} (h : Recorded host db log row request)
    (hg : db.Grows db') (hl : log ⊆ log') : Recorded host db' log' row request where
  accepted    := have ⟨entry, hm, ha⟩ := h.accepted; ⟨entry, hl hm, ha⟩
  requestHash := h.requestHash
  executionId := h.executionId
  tenantId    := h.tenantId
  execution   :=
    have ⟨_, hf, ht, hj⟩ := h.execution
    have ⟨execution, hf', hs⟩ := hg.executions _ _ hf
    ⟨execution, hf', hs.tenantId.trans ht, hs.requestJson.trans hj⟩

-- The records account for what has been accepted.
structure Idempotent (host : Host) (db : Db) (log : List platform.Commit) : Prop where
  recorded : ∀ {tenantId key row}, db.idempotency.find (tenantId, key) = some row → ∃ request, Recorded host db log row request
  tenant   : ∀ {tenantId key}, (db.idempotency.find (tenantId, key)).isSome → tenantId ∈ db.tenants
  found    : ∀ {tenantId key entry}, entry ∈ log → accepted tenantId key entry → (db.idempotency.find (tenantId, key)).isSome
  once     : ∀ tenantId key, log.countP (accepted tenantId key) ≤ 1

namespace Idempotent

variable {host : Host} {log : List platform.Commit}

theorem empty : Idempotent host Db.empty [] where
  recorded := nofun
  tenant   := nofun
  found    := nofun
  once _ _ := Nat.zero_le 1

theorem congr {entry : platform.Commit} (h : Idempotent host db log) (hi : db'.idempotency = db.idempotency)
    (hg : db.Grows db') (hn : ∀ tenantId key, ¬accepted tenantId key entry) : Idempotent host db' (log ++ [entry]) where
  recorded hf := by
    have ⟨request, hr⟩ := h.recorded (hi ▸ hf)
    exact ⟨request, hr.mono hg <| List.subset_append_left ..⟩
  tenant hf := hg.tenants <| h.tenant (hi ▸ hf)
  found hm ha := by
    rw [hi]
    cases List.mem_append.mp hm
    case inl hm => exact h.found hm ha
    case inr hm => exact absurd (List.mem_singleton.mp hm ▸ ha) (hn _ _)
  once t key := by simpa [hn] using h.once t key

theorem put {entry : platform.Commit} {row : IdempotencyRow} (h : Idempotent host db log)
    (hn : db.idempotency.find row.key = none) (hi : db'.idempotency = db.idempotency.insert row) (hg : db.Grows db')
    (ht : row.tenantId ∈ db'.tenants) (hr : Recorded host db' (log ++ [entry]) row request)
    (ha : ∀ tenantId key, accepted tenantId key entry ↔ (tenantId, key) = row.key) :
    Idempotent host db' (log ++ [entry]) where
  recorded {tenantId key row'} hf := by
    rw [hi, Table.find_insert] at hf
    split at hf
    case isTrue he =>
      rw [he, hn] at hf
      cases hf
      exact ⟨request, hr⟩
    case isFalse =>
      obtain ⟨request, hr⟩ := h.recorded hf
      exact ⟨request, hr.mono hg <| List.subset_append_left ..⟩
  tenant {tenantId key} hf := by
    rw [hi, Table.isSome_find_insert] at hf
    cases hf
    case inl he => cases he; exact ht
    case inr hf => exact hg.tenants <| h.tenant hf
  found {tenantId key entry'} hm ha' := by
    rw [hi, Table.isSome_find_insert]
    cases List.mem_append.mp hm
    case inl hm => exact .inr <| h.found hm ha'
    case inr hm => exact .inl <| (ha _ _).mp <| List.mem_singleton.mp hm ▸ ha'
  once t key := by
    rw [List.countP_append]
    by_cases he : (t, key) = row.key
    case neg => simpa [List.countP_singleton, ha, he] using h.once t key
    case pos =>
      -- Nobody has been accepted before, as there was no record.
      have h0 : log.countP (accepted t key) = 0 := by
        rw [List.countP_eq_zero]
        intro entry' hm ha'
        have hf := h.found hm ha'
        simp [he, hn] at hf
      simp only [h0, Nat.zero_add, List.countP_singleton]
      split <;> omega

theorem commit {c : Call} {r : c.Result} (h : Idempotent host db log) (hc : c.Commits P now db r db')
    (hg : db.Grows db')
    (hh : ∀ request hash options, c = .start request hash options → PostgresExecutionService.requestHash host request = some hash) :
    Idempotent host db' (log ++ [⟨pid, c, r, now⟩]) := by
  cases c
  case decideApproval        => exact h.congr (Decide.idempotency hc) hg fun _ _ => nofun
  case expireApprovalsOnce   => exact h.congr (Sweep.idempotency hc) hg fun _ _ => nofun
  case claimDispatches       => exact h.congr (Claim.idempotency hc) hg fun _ _ => nofun
  case transition            => exact h.congr (by cases hc.right; rfl) hg fun _ _ => nofun
  case fail                  => exact h.congr (by cases hc.right; rfl) hg fun _ _ => nofun
  case markDispatchSucceeded => exact h.congr (by cases hc <;> rfl) hg fun _ _ => nofun
  case markDispatchFailed    => exact h.congr (by cases hc <;> rfl) hg fun _ _ => nofun
  case start request hash options =>
    cases hc
    case unkeyed hk hc => exact h.congr hc.idempotency hg fun _ _ => by simp [accepted, hk]
    case reused        => exact h.congr rfl hg fun _ _ => by simp [accepted]
    case keyed key event db₁ hk hn hc =>
      have hi : db₁.idempotency = db.idempotency := hc.idempotency
      have ht : request.identity.tenantId ∈ db₁.tenants := by
        rw [hc.tenants, Db.withTenant_tenants]
        split
        case isTrue h => exact h
        case isFalse  => simp
      have hn' : db.idempotency.find
          (IdempotencyRow.key ⟨request.identity.tenantId, key, request.identity.executionId, hash, now⟩) = none := hn
      have hr : Recorded host (db₁.addIdempotency ⟨request.identity.tenantId, key, request.identity.executionId, hash, now⟩)
          (log ++ [⟨pid, Call.start request hash options, ⟨event, false⟩, now⟩])
          ⟨request.identity.tenantId, key, request.identity.executionId, hash, now⟩ request := by
        constructor
        case accepted    => exact ⟨_, List.mem_append_right _ (.head _), by simp [Logon.accepted, hk], options, rfl⟩
        case requestHash => exact hh _ _ _ rfl
        case executionId => rfl
        case tenantId    => rfl
        case execution   => exact hc.findExecution
      refine h.put hn' (by rw [Db.addIdempotency_idempotency, hi]) hg ht hr fun t key' => ?_
      simp only [accepted, hk, IdempotencyRow.key, Option.some.injEq, Bool.not_false, and_true, decide_eq_true_eq,
        Prod.mk.injEq]
      exact and_congr eq_comm eq_comm

end Idempotent

-- What the callers of `start` rely on: nobody else sends a wrong hash.
def idempotency (host : Host) : Contract (loose platform Premise.none.answer fun _ _ => True) where
  Inv g       := Idempotent host g.db g.log
  Le _ _      := True
  Guard _ o _ :=
    match o with
    | .inl (.start request hash _) => PostgresExecutionService.requestHash host request = some hash
    | _                            => True
  le_refl _   := trivial
  le_trans    := fun _ _ => trivial
  tick _ h    := ⟨h, trivial⟩
  op {pid o g r g'} hi hg hd := by
    refine ⟨?_, trivial⟩
    cases hd
    case throw => exact hi
    case fault => exact hi
    case act   => exact hi
    case commit c now db' r _ _ hr =>
      refine hi.commit (Call.commits c hr) (Call.grows c hr) fun _ _ _ he => ?_
      subst he
      exact hg

def idempotency.publishing (host : Host) : Publishing (idempotency host) where
  Claimed _ _    := True
  Queued _ _     := True
  claimed_le _ _ := trivial
  queued_le _ _  := trivial
  take _         := trivial
  taken _ _      := fun _ _ => trivial
  add _ _        := trivial
  added          := trivial
  succeed _ _    := trivial
  fail _ _       := trivial

theorem idempotency.permits {host : Host} {o : platform.outer.Op} (h : ofService host o) :
    (idempotency host).Guard pid o g := by
  cases o
  case inr   => trivial
  case inl c => cases c <;> first | exact h | trivial

-- Whether a statement puts a record.
def Statement.puts : Statement → Prop
  | insertIdempotency _ _ _ _ => True
  | _                         => False

theorem awaitOrDispatch_uses : (awaitOrDispatch request decision).Uses fun o : Statement => ¬o.puts := by
  unfold awaitOrDispatch
  split
  case isTrue  => exact ⟨id, fun _ => ⟨id, fun _ => ⟨id, fun _ => ⟨id, fun _ => trivial⟩⟩⟩⟩
  case isFalse =>
    split
    case isTrue  => exact ⟨id, fun _ => trivial⟩
    case isFalse => trivial

theorem create_uses : (create request).Uses fun o : Statement => ¬o.puts := by
  refine ⟨id, fun _ => ⟨id, fun _ => ⟨id, fun _ => awaitOrDispatch_uses.bind fun _ => ?_⟩⟩⟩
  exact ⟨id, fun _ => ⟨id, fun _ => ⟨id, fun _ => trivial⟩⟩⟩

section
variable {tr : List (Engine.Entry sql)}

-- What a call finds under its key, if it gets that far.
inductive Looked (t key requestHash : String) (db : Db) :
    List (Engine.Entry sql) → Tx (Option StartExecutionResult) → Prop
  | early {tr q} :
    (∀ r, q ≠ .pure r) → Looked t key requestHash db tr q
  | nothing {r} :
    db.idempotency.find (t, key) = none →
    Looked t key requestHash db [⟨.advisoryLock (t ++ ":" ++ key), r⟩, ⟨.selectIdempotency t key, none⟩] (.pure none)
  | reused {row ev r} :
    db.idempotency.find (t, key) = some row → row.requestHash = requestHash →
    Looked t key requestHash db [
      ⟨.advisoryLock (t ++ ":" ++ key), r⟩,
      ⟨.selectIdempotency t key, some row⟩,
      ⟨.selectLatestEvent row.executionId, some ev⟩] (.pure (some ⟨.of ev, true⟩))

theorem query_bind_steps {o : Statement} {k : o.Reply → Tx α} {q : Tx α}
    (h : Program.Steps (P.answer now) engine.effect ((query o).bind k) db tr q) :
    tr = [] ∧ (∃ k', q = .op o k') ∨
    ∃ r tr', tr = ⟨o, r⟩ :: tr' ∧ o.Told now db r ∧ Program.Steps (P.answer now) engine.effect (k r) (o.effect r db) tr' q := by
  obtain ⟨rfl, rfl⟩ | ⟨r, tr', rfl, ha, h⟩ := Program.steps_op h
  · exact .inl ⟨rfl, _, rfl⟩
  · exact .inr ⟨r, tr', rfl, ha.left, h⟩

theorem findReusable_uses : (findReusable t key requestHash).Uses fun o : Statement => ¬o.puts := by
  refine ⟨id, fun _ => ⟨id, fun existing => ?_⟩⟩
  cases existing
  case none => trivial
  case some =>
    simp only [Program.pure_bind]
    split
    case isTrue  => trivial
    case isFalse => exact ⟨id, fun event => by cases event <;> trivial⟩

theorem Looked.of_steps (h : Program.Steps (P.answer now) engine.effect (findReusable t key requestHash) db tr q) :
    Looked t key requestHash db tr q := by
  obtain ⟨-, _, rfl⟩ | ⟨_, _, rfl, -, h⟩ := query_bind_steps h
  case inl => exact .early Program.op_ne_pure
  obtain ⟨-, _, rfl⟩ | ⟨existing, _, rfl, hf, h⟩ := query_bind_steps h
  case inl => exact .early Program.op_ne_pure
  split at h
  case h_1 =>
    obtain ⟨rfl, rfl⟩ := Program.steps_pure h
    exact .nothing hf.symm
  case h_2 row =>
    split at h
    case isTrue =>
      obtain ⟨-, rfl⟩ := Program.steps_throw h
      exact .early Program.throw_ne_pure
    case isFalse hh =>
      obtain ⟨-, rfl⟩ | ⟨ev, _, rfl, -, h⟩ := Program.steps_op h
      case inl => exact .early Program.op_ne_pure
      cases ev
      case none =>
        obtain ⟨-, rfl⟩ := Program.steps_throw h
        exact .early Program.throw_ne_pure
      case some ev =>
        obtain ⟨rfl, rfl⟩ := Program.steps_pure h
        exact .reused hf.symm (not_not.mp hh)

-- When a record is put, it is there.
theorem recordKey_steps (h : Program.Steps (P.answer now) engine.effect (recordKey request key requestHash) db tr q)
    (hn : db.idempotency.find (request.identity.tenantId, key) = none) :
    tr = [] ∧ (∀ r, q ≠ .pure r) ∨
    (∃ k, q = .op (.selectIdempotency request.identity.tenantId key) k) ∨ q = .pure none := by
  obtain ⟨rfl, rfl⟩ | ⟨t, _, rfl, ha, h⟩ := Program.steps_op h
  case inl => exact .inl ⟨rfl, Program.op_ne_pure⟩
  obtain ⟨-, _, rfl⟩ | ⟨recorded, _, rfl, hr, h⟩ := query_bind_steps h
  case inl => exact .inr <| .inl ⟨_, rfl⟩
  obtain _ | t := t
  case none => simp [Premise.answer, Statement.Told, hn] at ha
  case some =>
    have hf : (db.addIdempotency ⟨request.identity.tenantId, key, request.identity.executionId, requestHash, t⟩
        ).idempotency.find (request.identity.tenantId, key) = some _ := Table.find_insert_new hn
    cases hr.trans hf
    simp only [ne_eq, not_true_eq_false, if_false] at h
    exact .inr <| .inr (Program.steps_pure h).right

-- A call that has found nothing under its key either puts a record, or has not done so yet.
theorem createAndRecord_steps
    (h : Program.Steps (P.answer now) engine.effect
      ((create request).bind fun stored => (recordKey request key requestHash).bind fun
        | some result => .pure result
        | none        => .pure ⟨stored, false⟩) db tr q)
    (hn : db.idempotency.find (request.identity.tenantId, key) = none) :
    (∀ e ∈ tr, ¬e.fst.puts) ∧ (∀ r, q ≠ .pure r) ∨
    (∃ k, q = .op (.selectIdempotency request.identity.tenantId key) k) ∨ ∃ event, q = .pure ⟨event, false⟩ := by
  obtain ⟨o, k, hc, rfl⟩ | ⟨e, hc, rfl⟩ | ⟨stored, tr₁, tr₂, rfl, hc, h⟩ := Program.steps_bind h
  case inl     => exact .inl ⟨(hc.uses create_uses).left, Program.op_ne_pure⟩
  case inr.inl => exact .inl ⟨(hc.uses create_uses).left, Program.throw_ne_pure⟩
  have hu := (hc.uses create_uses).left
  have hi := create_runs <| hc.runs ⟨rfl, rfl⟩
  have hn := hi.idempotency ▸ hn
  obtain ⟨o, k, hr, rfl⟩ | ⟨e, hr, rfl⟩ | ⟨found, tr₃, tr₄, rfl, hr, h⟩ := Program.steps_bind h
  case inl =>
    obtain ⟨rfl, -⟩ | ⟨_, he⟩ | he := recordKey_steps hr hn
    · exact .inl ⟨by simpa using hu, Program.op_ne_pure⟩
    · cases he
      exact .inr <| .inl ⟨_, rfl⟩
    · cases he
  case inr.inl =>
    obtain ⟨rfl, -⟩ | ⟨_, he⟩ | he := recordKey_steps hr hn
    · exact .inl ⟨by simpa using hu, Program.throw_ne_pure⟩
    · cases he
    · cases he
  case inr.inr =>
    obtain ⟨-, hq⟩ | ⟨_, he⟩ | he := recordKey_steps hr hn
    · exact absurd rfl (hq found)
    · cases he
    · cases he
      obtain ⟨-, rfl⟩ := Program.steps_pure h
      exact .inr <| .inr ⟨stored, rfl⟩

end

-- How far a call of `start` under a key has come.
inductive Started (request : ExecutionRequest) (key requestHash : String) (db : Db) :
    List (Engine.Entry sql) → Tx StartExecutionResult → Prop
  | early {tr q} :
    (∀ e ∈ tr, ¬e.fst.puts) → (∀ result, q ≠ .pure result) → Started request key requestHash db tr q
  | reused {row ev r r'} :
    db.idempotency.find (request.identity.tenantId, key) = some row → row.requestHash = requestHash →
    Started request key requestHash db [
      ⟨.insertTenant request.identity.tenantId, r⟩,
      ⟨.advisoryLock (request.identity.tenantId ++ ":" ++ key), r'⟩,
      ⟨.selectIdempotency request.identity.tenantId key, some row⟩,
      ⟨.selectLatestEvent row.executionId, some ev⟩] (.pure ⟨.of ev, true⟩)
  | checking {tr k} :
    Started request key requestHash db tr (.op (.selectIdempotency request.identity.tenantId key) k)
  | recorded {tr event} :
    Started request key requestHash db tr (.pure ⟨event, false⟩)

theorem start_keyed (hk : options.key = some key) :
    start request requestHash options =
    (query (.insertTenant request.identity.tenantId)).bind fun _ =>
    (findReusable request.identity.tenantId key requestHash).bind fun
      | some result => .pure result
      | none        => (create request).bind fun stored => (recordKey request key requestHash).bind fun
        | some result => .pure result
        | none        => .pure ⟨stored, false⟩ := by
  unfold start
  rw [hk]
  rfl

theorem Started.of_steps {tr : List (Engine.Entry sql)} (hk : options.key = some key)
    (h : Program.Steps (P.answer now) engine.effect (start request requestHash options) db tr q) :
    Started request key requestHash db tr q := by
  rw [start_keyed hk] at h
  obtain ⟨rfl, _, rfl⟩ | ⟨r, tr, rfl, -, h⟩ := query_bind_steps h
  case inl => exact .early (by simp) Program.op_ne_pure
  have hi : (Statement.effect (.insertTenant request.identity.tenantId) r db).idempotency = db.idempotency := by
    cases r <;> rfl
  obtain ⟨o, k, hl, rfl⟩ | ⟨e, hl, rfl⟩ | ⟨found, tr₁, tr₂, rfl, hl, h⟩ := Program.steps_bind h
  case inl =>
    have hu := (hl.uses findReusable_uses).left
    exact .early (List.forall_mem_cons.mpr ⟨id, hu⟩) Program.op_ne_pure
  case inr.inl =>
    have hu := (hl.uses findReusable_uses).left
    exact .early (List.forall_mem_cons.mpr ⟨id, hu⟩) Program.throw_ne_pure
  obtain hq | hf | ⟨hf, hh⟩ := Looked.of_steps hl
  case early => exact absurd rfl (hq found)
  case reused =>
    obtain ⟨rfl, rfl⟩ := Program.steps_pure h
    exact .reused (hi ▸ hf) hh
  case nothing r' =>
    have hn : (Statement.effect (.insertTenant request.identity.tenantId) r db).idempotency.find
        (request.identity.tenantId, key) = none := hf
    obtain ⟨hu, hq⟩ | ⟨k, rfl⟩ | ⟨event, rfl⟩ := createAndRecord_steps h hn
    · exact .early (by simpa [Statement.puts] using hu) hq
    · exact .checking
    · exact .recorded

variable {host : Host} {s s' : platform.State}

theorem Reachable.idempotent (h : Reachable (Guard.clients host) s) :
    Idempotent host s.db s.log ∧
    ∀ pid request hash options t k, s.procs pid = some (.inside (.start request hash options : Call) t k) →
      PostgresExecutionService.requestHash host request = some hash := by
  have ⟨_, hs⟩ := h.atomic <| Guard.clients_meets host
  have ⟨hi, hf⟩ := Contract.sound hs
    (fun _ _ _ hc _ => hc.safe (idempotency.publishing host) fun _ _ _ ho _ => idempotency.permits ho) .empty nofun
  refine ⟨hi, fun pid request hash options t k hp => ?_⟩
  exact (hf pid _ (State.atomic_codes hp) _ trivial hi).left

-- How a call of `start` under a key ends.
inductive Concluded (host : Host) (pid : Pid) (request : ExecutionRequest) (requestHash key : String)
    (options : StartExecutionOptions) (t : platform.Session (Call.start request requestHash options))
    (s s' : platform.State) : Except KernelError StartExecutionResult → Prop
  -- Nobody has come first.
  | accepted {event} :
    (∀ entry ∈ s.log, ¬accepted request.identity.tenantId key entry) →
    s'.log = s.log ++ [⟨pid, Call.start request requestHash options, ⟨event, false⟩, t.startedAt⟩] →
    Concluded host pid request requestHash key options t s s' (.ok ⟨event, false⟩)
  -- Somebody has come first, with the same request. The event was the latest one during the call.
  | reused {row ev first s₁ t₁ k} :
    s'.db = s.db → s.db.idempotency.find (request.identity.tenantId, key) = some row →
    Recorded host s.db s.log row first →
    first.toJs.canonicalJson host.localeCompare = request.toJs.canonicalJson host.localeCompare →
    Steps (Guard.clients host) s₁ s → s₁.procs pid = some (.inside (Call.start request requestHash options) t₁ k) →
    t₁.trace <+: t.trace → t₁.startedAt = t.startedAt → s₁.db.latestEvent row.executionId = some ev →
    Concluded host pid request requestHash key options t s s' (.ok ⟨.of ev, true⟩)
  | rejected {e} :
    s'.db = s.db → s'.log = s.log → Concluded host pid request requestHash key options t s s' (.error e)

theorem Start.reused_eq {request : ExecutionRequest} (h : Start P now request requestHash options db ⟨event, true⟩ db') :
    db' = db.withTenant request.identity.tenantId := by
  generalize hr : (⟨event, true⟩ : StartExecutionResult) = result at h
  cases h
  case reused => rfl
  all_goals cases hr

theorem Start.accepted_find {request : ExecutionRequest}
    (h : Start P now request requestHash options db ⟨event, false⟩ db') (hk : options.key = some key) :
    db.idempotency.find (request.identity.tenantId, key) = none := by
  generalize hr : (⟨event, false⟩ : StartExecutionResult) = result at h
  cases h
  case unkeyed hn _    => cases hn.symm.trans hk
  case reused          => cases hr
  case keyed hk' hn _ =>
    cases hk.symm.trans hk'
    exact hn

theorem Reachable.concluded {request : ExecutionRequest} {options : StartExecutionOptions}
    {t : platform.Session (Call.start request requestHash options)}
    {k : Except KernelError StartExecutionResult → platform.Code} (hinj : Function.Injective host.sha256)
    (h : Reachable (Guard.clients host) s) (hs : step l s = some s')
    (hp : s.procs pid = some (.inside (Call.start request requestHash options) t k)) (hk : options.key = some key)
    (hp' : s'.procs pid = some (.outside code)) :
    ∃ res, code = k res ∧ Concluded host pid request requestHash key options t s s' res := by
  obtain ⟨a, ha, rfl, hd, hl⟩ | ⟨e, rfl, hd, hl⟩ := step_ends hs hp hp'
  case inr => exact ⟨_, rfl, .rejected hd hl⟩
  case inl =>
    refine ⟨_, rfl, ?_⟩
    have ⟨hi, hh⟩ := h.idempotent
    have hsteps := ((h.allSound <| Guard.clients_meets host).left _ _ _ _ hp).now
    rw [ha] at hsteps
    have hc : Start .none t.startedAt request requestHash options s.db a s'.db :=
      hd ▸ Call.commits (.start request requestHash options) (hsteps.runs ⟨rfl, rfl⟩)
    generalize htr : t.trace = tr at hsteps
    obtain ⟨-, hq⟩ | ⟨hf, he⟩ | _ | _ := Started.of_steps hk hsteps
    case early => exact absurd rfl (hq a)
    case reused row ev r r' =>
      have ht := hi.tenant (by rw [hf]; rfl)
      have ⟨first, hr⟩ := hi.recorded hf
      have hj : (first.toJs.canonicalJson host.localeCompare).map host.sha256 =
          (request.toJs.canonicalJson host.localeCompare).map host.sha256 :=
        hr.requestHash.trans <| he ▸ (hh _ _ _ _ _ _ hp).symm
      have htr' : t.trace = [⟨.insertTenant request.identity.tenantId, r⟩,
          ⟨.advisoryLock (request.identity.tenantId ++ ":" ++ key), r'⟩,
          ⟨.selectIdempotency request.identity.tenantId key, some row⟩] ++
          ⟨.selectLatestEvent row.executionId, some ev⟩ :: [] := htr
      have ⟨_, hsi⟩ := h
      have ⟨s₁, k', amb, _, h₁, hp₁, hr₁⟩ := hsi.replied (fun _ => rfl) hp htr'
      refine .reused ?_ hf hr (Option.map_injective hinj hj) h₁ hp₁ ⟨_, htr'.symm⟩ rfl ?_
      · rw [hc.reused_eq]
        simp [Db.withTenant, ht]
      · have hv : (Statement.effect (.insertTenant request.identity.tenantId) r s₁.db).latestEvent row.executionId =
            s₁.db.latestEvent row.executionId := by
          cases r <;> rfl
        exact hv.symm.trans <| Except.ok.inj hr₁
    case recorded =>
      apply Concluded.accepted _ hl
      intro entry hm hacc
      simpa [hc.accepted_find hk] using hi.found hm hacc

-- Of the calls of `start` under one key of a tenant, one takes effect at most.
theorem start_is_idempotent (hinj : Function.Injective host.sha256) (h : Reachable (Guard.clients host) s) :
    (∀ tenantId key, s.log.countP (accepted tenantId key) ≤ 1) ∧
    (∀ row ∈ s.db.idempotency.rows, ∃ request, Recorded host s.db s.log row request) ∧
    ∀ pid request hash options key t k, s.procs pid = some (.inside (Call.start request hash options) t k) →
      options.key = some key →
      (∀ l s' code, Guard.clients host l s → step l s = some s' → s'.procs pid = some (.outside code) →
        ∃ res, code = k res ∧ Concluded host pid request hash key options t s s' res) ∧
      -- The record is found as it has been put.
      ((∃ e ∈ t.trace, e.fst.puts) →
        (∃ k', t.residual = .op (.selectIdempotency request.identity.tenantId key) k') ∨
        ∃ event, t.residual = .pure ⟨event, false⟩) := by
  have ⟨hi, _⟩ := h.idempotent
  refine ⟨hi.once, fun row hm => hi.recorded (Table.find_of_mem hm), ?_⟩
  intro pid request hash options key t k hp hk
  refine ⟨fun l s' code _ hs hp' => h.concluded hinj hs hp hk hp', ?_⟩
  intro ⟨e, hm, he⟩
  have hsteps := ((h.allSound <| Guard.clients_meets host).left _ _ _ _ hp).now
  generalize t.trace = tr, t.residual = q at *
  obtain ⟨hn, _⟩ | _ | _ | _ := Started.of_steps hk hsteps
  case early    => exact absurd he (hn e hm)
  case reused   =>
    simp only [List.mem_cons, List.not_mem_nil, or_false] at hm
    obtain rfl | rfl | rfl | rfl := hm <;> exact he.elim
  case checking => exact .inl ⟨_, rfl⟩
  case recorded => exact .inr ⟨_, rfl⟩

namespace Sample

def text : String :=
  ((request false).toJs.canonicalJson compare).getD ""

def digest : String :=
  "1e1dc7e48f3a620fa5f686498d92ea0fe5227c6992e19dfd9dbf3e6b4d691f59"

-- Only the sample's text has a digest here. All others stand for themselves.
def hashing : Host where
  sha256        := Equiv.swap text digest
  localeCompare := compare

theorem requestHash_hashing : PostgresExecutionService.requestHash hashing (request false) = some digest := by
  have ht : (request false).toJs.canonicalJson compare = some text := rfl
  exact (congrArg (Option.map _) ht).trans <| congrArg some <| Equiv.swap_apply_left text digest

def keyed : platform.Code := do
  return .started (← transaction (.start (request false) digest ⟨some "k"⟩))

theorem keyed_client : Client hashing keyed := by
  have hv : (request false).Valid := by decide
  have hs : Process.start hashing (request false) ⟨some "k"⟩ = transaction (.start (request false) digest ⟨some "k"⟩) := by
    rw [Process.start, if_pos hv, requestHash_hashing]
  have hc : Client hashing (do return .started (← Process.start hashing (request false) ⟨some "k"⟩)) := .start
  rwa [hs] at hc

-- A client that has got no answer repeats its call.
def repeated : List platform.Label :=
  transact 0 keyed 0 "a" 12 ++ transact 1 keyed 0 "b" 4

theorem repeated_reachable : Reachable (Guard.clients hashing) (reach unchecked repeated) := by
  refine reach_reachable fun l hl s _ => Guard.clients_of_spawn (fun pid code hm => ?_) hl s
  simp only [repeated, transact, List.mem_append, List.mem_cons, List.mem_replicate, List.not_mem_nil, or_false,
    Label.spawn.injEq, reduceCtorEq, and_false] at hm
  obtain ⟨-, rfl⟩ | ⟨-, rfl⟩ := hm <;> exact keyed_client

end Sample

open Sample in
theorem start_is_idempotent_repeated :
    (reach unchecked repeated).log.length = 2 ∧ (reach unchecked repeated).log.countP (accepted "t" "k") ≤ 1 :=
  ⟨by decide, (start_is_idempotent (Equiv.injective _) repeated_reachable).left "t" "k"⟩

end Logon
