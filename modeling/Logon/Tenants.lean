import Logon.Database.Constraints
import Logon.Idempotency
import Logon.Library.TwoRuns
import Logon.Starting

-- What a tenant's calls of `start` have to do with other tenants.

namespace Logon

open System PgExecutionStore PostgresExecutionService

namespace Db

-- Two databases have the same rows of a tenant, with those that only `start` reads.
structure EqualFor (tenantId : String) (db db' : Db) : Prop extends db.SameFor tenantId db' where
  tenants     : tenantId ∈ db.tenants ↔ tenantId ∈ db'.tenants
  idempotency : db.idempotency.SameRows (·.tenantId = tenantId) db'.idempotency

-- Keys are recorded for executions of their tenants.
def Keyed (db : Db) : Prop :=
  ∀ row ∈ db.idempotency.rows, db.Owns row.tenantId row.executionId

variable {db db' : Db}

theorem Keyed.congr (h : db.Keyed) (hi : db'.idempotency = db.idempotency) (hg : db.Grows db') : db'.Keyed :=
  fun row hr => (h row <| hi ▸ hr).mono hg

theorem Keyed.put {row : IdempotencyRow} (h : db.Keyed) (hn : db.idempotency.find row.key = none)
    (hi : db'.idempotency = db.idempotency.insert row) (hg : db.Grows db') (ho : db'.Owns row.tenantId row.executionId) :
    db'.Keyed := by
  intro row' hr
  rw [hi, Table.rows_insert_new hn, List.mem_append, List.mem_singleton] at hr
  obtain hr | rfl := hr
  · exact (h row' hr).mono hg
  · exact ho

end Db

theorem Call.Commits.keyed {c : Call} {r : c.Result} (hc : c.Commits P now db r db') (hg : db.Grows db') (h : db.Keyed) :
    db'.Keyed := by
  cases c
  case decideApproval        => exact h.congr (Decide.idempotency hc) hg
  case expireApprovalsOnce   => exact h.congr (Sweep.idempotency hc) hg
  case claimDispatches       => exact h.congr (Claim.idempotency hc) hg
  case transition            => exact h.congr (by cases hc.right; rfl) hg
  case fail                  => exact h.congr (by cases hc.right; rfl) hg
  case markDispatchSucceeded => exact h.congr (by cases hc <;> rfl) hg
  case markDispatchFailed    => exact h.congr (by cases hc <;> rfl) hg
  case start request digest options =>
    cases hc
    case unkeyed hc => exact h.congr hc.idempotency hg
    case reused     => exact h.congr rfl hg
    case keyed key event db₁ hk hn hc =>
      have ⟨row, hf, ht, _⟩ := hc.findExecution
      have hn' : db.idempotency.find
          (IdempotencyRow.key ⟨request.identity.tenantId, key, request.identity.executionId, digest, now⟩) = none := hn
      exact h.put hn' (by rw [Db.addIdempotency_idempotency, hc.idempotency]; rfl) hg ⟨row, hf, ht⟩

theorem Reachable.keyed {s : platform.State} (h : Reachable G s) : s.db.Keyed := by
  have ⟨_, hs⟩ := h.atomic G.meets_none
  exact AtomicSteps.db_invariant hs (nofun : Db.empty.Keyed) fun _ _ _ _ _ hc hg => hc.keyed hg

-- Two databases that `start` cannot tell apart if it only generates fresh ids.
structure Matched (t : String) (fresh : String → Prop) (db₁ db₂ : Db) : Prop extends db₁.EqualFor t db₂ where
  keyed    : ∀ row ∈ db₁.idempotency.rows, row.tenantId = t → db₁.Owns t row.executionId
  approval : ∀ u, fresh u → db₁.approvals.find u = db₂.approvals.find u
  record   : ∀ u, fresh u → db₁.audit.find u = db₂.audit.find u

-- The statements with which `start` works on what its tenant owns.
def Statement.Own (t : String) (fresh : String → Prop) (db : Db) : Statement → Prop
  | dateNow                    => True
  | randomUUID                 => True
  | advisoryLock _             => True
  | insertTenant t'            => t' = t
  | selectIdempotency t' _     => t' = t
  | insertIdempotency t' _ e _ => t' = t ∧ db.Owns t e
  | selectLatestEvent e        => db.Owns t e
  | insertEvent event          => db.Owns t event.executionId
  | insertApproval request     => request.tenantId = t ∧ db.Owns t request.executionId ∧ fresh request.approvalId
  | insertAudit record         => record.tenantId = t ∧ db.Owns t record.executionId ∧ fresh record.auditId
  | insertDispatch e _         => db.Owns t e
  | _                          => False

namespace Matched

variable {t : String} {fresh : String → Prop} {db₁ db₂ : Db} {now : Time} {amb : Ambient}

theorem findExecution (h : Matched t fresh db₁ db₂) (ho : db₁.Owns t e) : db₁.executions.find e = db₂.executions.find e := by
  have ⟨row, hf, ht⟩ := ho
  rw [hf, h.executions.find hf ht]

theorem findIdempotency (h : Matched t fresh db₁ db₂) (key : String) :
    db₁.idempotency.find (t, key) = db₂.idempotency.find (t, key) :=
  h.idempotency.find_eq fun _ hk => congrArg Prod.fst hk

theorem findEvent (h : Matched t fresh db₁ db₂) (ho : db₁.Owns t e) (n : Nat) :
    db₁.events.find (e, n) = db₂.events.find (e, n) :=
  h.events.find_eq fun row hk => (show row.executionId = e from congrArg Prod.fst hk) ▸ ho

theorem findDispatch (h : Matched t fresh db₁ db₂) (ho : db₁.Owns t e) :
    db₁.dispatches.find e = db₂.dispatches.find e :=
  h.dispatches.find_eq fun row hk => (hk : row.executionId = e) ▸ ho

theorem latestEvent (h : Matched t fresh db₁ db₂) (ho : db₁.Owns t e) : db₁.latestEvent e = db₂.latestEvent e := by
  have hp : (db₁.eventsOf e).Perm (db₂.eventsOf e) := h.events.filter_perm fun row hr => hr ▸ ho
  have hm : db₁.maxSequence e = db₂.maxSequence e := by
    have : RightCommutative fun (n : Nat) (ev : EventRow) => max n ev.sequence := ⟨fun _ _ _ => by omega⟩
    exact hp.foldl_eq 0
  rw [Db.latestEvent, Db.latestEvent, ← Db.find_events, ← Db.find_events, hm, h.findEvent ho]

-- Statements about what a tenant owns give the same replies.
theorem reply {o : Statement} (h : Matched t fresh db₁ db₂) (ho : o.Own t fresh db₁) :
    o.reply now amb db₁ = o.reply now amb db₂ := by
  cases o <;> simp only [Statement.Own] at ho <;> try rfl
  case insertTenant => simp only [Statement.reply, ho, h.tenants]
  case selectIdempotency => simp only [Statement.reply, ho, h.findIdempotency]
  case insertIdempotency => 
    obtain ⟨rfl, ho⟩ := ho
    simp only [Statement.reply, h.findIdempotency, h.tenants, h.findExecution ho]
  case selectLatestEvent => simp only [Statement.reply, h.latestEvent ho]
  case insertEvent => simp only [Statement.reply, h.findEvent ho, h.findExecution ho]
  case insertApproval =>
    simp only [Statement.reply, h.approval _ ho.right.right, h.findExecution ho.right.left]
  case insertAudit =>
    obtain ⟨rfl, ho, hu⟩ := ho
    simp only [Statement.reply, h.record _ hu, h.tenants, h.findExecution ho]
  case insertDispatch => simp only [Statement.reply, h.findDispatch ho, h.findExecution ho]

-- They change both databases in the same way.
theorem effect {o : Statement} {r : o.Reply} (h : Matched t fresh db₁ db₂) (ho : o.Own t fresh db₁) :
    Matched t fresh (o.effect r db₁) (o.effect r db₂) := by
  cases o <;> simp only [Statement.Own] at ho <;> try exact h
  case insertTenant =>
    cases r
    case false => exact h
    case true  => exact { h with tenants := by simp [Statement.effect, ho] }
  case insertIdempotency t' key e digest =>
    obtain ⟨rfl, ho⟩ := ho
    cases r
    case none => exact h
    case some now =>
      have hf : db₁.idempotency.find (IdempotencyRow.key ⟨t', key, e, digest, now⟩) = db₂.idempotency.find (t', key) :=
        h.findIdempotency key
      exact { h with
        idempotency := h.idempotency.insert_congr hf
        keyed       := Table.forall_insert h.keyed fun _ => ho
      }
  case insertEvent event => exact { h with events := h.events.insert_congr (h.findEvent ho event.sequence) }
  case insertApproval request =>
    cases r
    case none => exact h
    case some p =>
      have hf := h.approval _ ho.right.right
      exact { h with
        approvals := h.approvals.insert_congr hf
        approval  := fun u hu => Table.find_insert_congr (h.approval u hu)
      }
  case insertAudit record =>
    have hf := h.record _ ho.right.right
    exact { h with
      audit  := h.audit.insert_congr hf
      record := fun u hu => Table.find_insert_congr (h.record u hu)
    }
  case insertDispatch =>
    cases r
    case none => exact h
    case some => exact { h with dispatches := h.dispatches.insert_congr (h.findDispatch ho) }

-- A new execution does not turn rows of others into rows of its tenant.
theorem addExecution {request : ExecutionRequest} (h : Matched t fresh db₁ db₂)
    (hn₁ : Unmentioned db₁ request.identity.executionId) (hn₂ : Unmentioned db₂ request.identity.executionId)
    (status : ExecutionStatus) (createdAt : Time) :
    Matched t fresh { db₁ with executions := db₁.executions.insert (.of request status createdAt) }
      { db₂ with executions := db₂.executions.insert (.of request status createdAt) } := by
  have owns {e} (ho : ({ db₁ with executions := db₁.executions.insert (.of request status createdAt) } : Db).Owns t e) :
      db₁.Owns t e ∨ e = request.identity.executionId := by
    have ⟨row, hf, ht⟩ := ho
    simp only [Table.find_insert] at hf
    split at hf
    case isTrue he  => exact .inr he
    case isFalse hn => exact .inl ⟨row, hf, ht⟩
  exact {
    executions  := h.executions.insert_congr (hn₁.executions.trans hn₂.executions.symm)
    events      := fun row ho => (owns ho).elim (h.events row) fun he =>
      iff_of_false (fun hr => hn₁.events row hr he) fun hr => hn₂.events row hr he
    approvals   := h.approvals
    audit       := h.audit
    dispatches  := fun row ho => (owns ho).elim (h.dispatches row) fun he =>
      iff_of_false (fun hr => hn₁.dispatches row hr he) fun hr => hn₂.dispatches row hr he
    tenants     := h.tenants
    idempotency := h.idempotency
    keyed       := fun row hr ht => (h.keyed row hr ht).mono <| Db.grows_effect (.insertExecution request status) createdAt db₁
    approval    := h.approval
    record      := h.record
  }

end Matched

-- How a program ends in two databases that cannot be told apart, under the same circumstances.
def Ends (t : String) (fresh : String → Prop) (db₁ : Db) (R : α → Db → Db → Prop) (res : Except KernelError α)
    (s₁ s₂ : Db × List Ambient) : Prop :=
  s₁.snd = s₂.snd ∧ (∀ amb ∈ s₁.snd, fresh amb.uuid) ∧
  ∀ a, res = .ok a → Matched t fresh s₁.fst s₂.fst ∧ db₁.Grows s₁.fst ∧ R a s₁.fst s₂.fst

-- What a program does in one database, it does in the other one as well.
def Tx.Matches (now : Time) (t : String) (fresh : String → Prop) (p : Tx α) (db₁ db₂ : Db) (R : α → Db → Db → Prop) :
    Prop :=
  ∀ script : List Ambient, (∀ amb ∈ script, fresh amb.uuid) →
    p.Coupled (engine.scripted now) (db₁, script) (db₂, script) (Ends t fresh db₁ R)

variable {t : String} {fresh : String → Prop} {db₁ db₂ : Db} {now : Time} {α β : Type}

theorem Ends.since {R : α → Db → Db → Prop} {res : Except KernelError α} (h : Ends t fresh db₂ R res s₁ s₂)
    (hg : db₁.Grows db₂) : Ends t fresh db₁ R res s₁ s₂ :=
  ⟨h.left, h.right.left, fun a ha => (h.right.right a ha).imp_right (.imp_left hg.trans)⟩

namespace Tx.Matches

variable {R : α → Db → Db → Prop} {R' : β → Db → Db → Prop}

theorem pure {a : α} (h : Matched t fresh db₁ db₂) (hr : R a db₁ db₂) : Matches now t fresh (.pure a) db₁ db₂ R :=
  fun _ hs => .pure ⟨rfl, hs, fun _ he => Except.ok.inj he ▸ ⟨h, .refl db₁, hr⟩⟩

theorem throw {e : KernelError} : Matches now t fresh (.throw e : Tx α) db₁ db₂ R :=
  fun _ hs => .throw ⟨rfl, hs, nofun⟩

theorem bind {p : Tx α} {f : α → Tx β} (h : p.Matches now t fresh db₁ db₂ R)
    (hf : ∀ a d₁ d₂, Matched t fresh d₁ d₂ → db₁.Grows d₁ → R a d₁ d₂ → (f a).Matches now t fresh d₁ d₂ R') :
    Matches now t fresh (p.bind f) db₁ db₂ R' := by
  intro script hs
  refine .bind <| (h script hs).mono ?_
  rintro res ⟨d₁, rest⟩ ⟨d₂, _⟩ ⟨rfl, hrest, hm⟩
  cases res
  case error => exact ⟨rfl, hrest, nofun⟩
  case ok a =>
    have ⟨hm, hg, hr⟩ := hm a rfl
    exact (hf a d₁ d₂ hm hg hr rest hrest).mono fun _ _ _ => (·.since hg)

-- A statement that gives the same reply in both databases.
theorem query {o : Statement} {k : o.Reply → Tx α} (ho : ∀ amb, o.reply now amb db₁ = o.reply now amb db₂)
    (hk : ∀ r amb, fresh amb.uuid → o.reply now amb db₁ = .ok r →
      (k r).Matches now t fresh (o.effect r db₁) (o.effect r db₂) R) :
    Matches now t fresh ((Logon.query o).bind k) db₁ db₂ R := by
  intro script hs
  refine .op ?_ ?_
  · rintro r ⟨d₁, rest⟩ ⟨amb, hw, hr, hsk, hd⟩
    obtain rfl : d₁ = o.effect r db₁ := hd
    obtain rfl : script = amb :: rest := hw
    have ⟨ha, hrest⟩ := List.forall_mem_cons.mp hs
    refine ⟨(o.effect r db₂, rest), ⟨amb, rfl, (ho amb).symm.trans hr, hsk, rfl⟩, ?_⟩
    exact (hk r amb ha hr rest hrest).mono fun _ _ _ => (·.since <| Db.grows_effect o r db₁)
  · rintro e ⟨amb, rest, hw, he⟩
    exact ⟨⟨amb, rest, hw, (ho amb).symm.trans he⟩, rfl, hs, nofun⟩

-- A statement about what the tenant owns.
theorem own {o : Statement} {k : o.Reply → Tx α} (h : Matched t fresh db₁ db₂) (ho : o.Own t fresh db₁)
    (hk : ∀ r amb, fresh amb.uuid → o.reply now amb db₁ = .ok r → Matched t fresh (o.effect r db₁) (o.effect r db₂) →
      db₁.Grows (o.effect r db₁) → (k r).Matches now t fresh (o.effect r db₁) (o.effect r db₂) R) :
    Matches now t fresh ((Logon.query o).bind k) db₁ db₂ R :=
  .query (fun _ => h.reply ho) fun r amb ha hr => hk r amb ha hr (h.effect ho) (Db.grows_effect o r db₁)

theorem newDate (h : Matched t fresh db₁ db₂) : Matches now t fresh newDate db₁ db₂ fun _ _ _ => True :=
  .own h trivial fun _ _ _ _ h _ => .pure h trivial

end Tx.Matches

open Tx

namespace PgExecutionStore

theorem createApproval_matches (h : Matched t fresh db₁ db₂) (ht : request.tenantId = t)
    (ho : db₁.Owns t request.executionId) (hu : fresh request.approvalId) :
    (createApproval request).Matches now t fresh db₁ db₂ fun _ _ _ => True :=
  .own h ⟨ht, ho, hu⟩ fun _ _ _ _ h _ => .pure h trivial

theorem createDispatch_matches (h : Matched t fresh db₁ db₂) (ho : db₁.Owns t e) :
    (createDispatch e q).Matches now t fresh db₁ db₂ fun _ _ _ => True :=
  .own h ho fun _ _ _ _ h _ => .pure h trivial

theorem appendEvent_matches (h : Matched t fresh db₁ db₂) (ho : db₁.Owns t event.executionId) :
    (appendEvent event).Matches now t fresh db₁ db₂ fun _ _ _ => True :=
  .own h ho fun _ _ _ _ h _ => .pure h trivial

theorem appendAudit_matches (h : Matched t fresh db₁ db₂) (ht : record.tenantId = t)
    (ho : db₁.Owns t record.executionId) (hu : fresh record.auditId) :
    (appendAudit record).Matches now t fresh db₁ db₂ fun _ _ _ => True :=
  .own h ⟨ht, ho, hu⟩ fun _ _ _ _ h _ => .pure h trivial

theorem putIdempotency_matches (h : Matched t fresh db₁ db₂) (ho : db₁.Owns t e) :
    (putIdempotency t key e digest).Matches now t fresh db₁ db₂ fun _ _ _ => True :=
  .own h ⟨rfl, ho⟩ fun _ _ _ _ h _ => .pure h trivial

-- The execution that is recorded under a tenant's key is the tenant's.
theorem findIdempotency_matches (h : Matched t fresh db₁ db₂) :
    (findIdempotency t key).Matches now t fresh db₁ db₂ fun r d₁ d₂ =>
      d₁ = db₁ ∧ d₂ = db₂ ∧ ∀ row ∈ r, db₁.Owns t row.executionId := by
  refine .own h rfl fun r _ _ hr h _ => .pure h ⟨rfl, rfl, fun row hm => ?_⟩
  cases hr
  exact h.keyed row (Table.mem_of_find hm) (congrArg Prod.fst (Table.key_of_find hm))

theorem latestEvent_matches (h : Matched t fresh db₁ db₂) (ho : db₁.Owns t e) :
    (latestEvent e).Matches now t fresh db₁ db₂ fun _ d₁ d₂ => d₁ = db₁ ∧ d₂ = db₂ :=
  .own h ho fun _ _ _ _ h _ => .pure h ⟨rfl, rfl⟩

-- The execution is new to both databases, or to none of them.
theorem createExecution_matches (h : Matched t fresh db₁ db₂) (ht : request.identity.tenantId = t)
    (hk₁ : db₁.ForeignKeys) (hk₂ : db₂.ForeignKeys)
    (hx : db₁.HasExecution request.identity.executionId ↔ db₂.HasExecution request.identity.executionId) :
    (createExecution request status).Matches now t fresh db₁ db₂ fun _ d₁ _ =>
      d₁.Owns t request.identity.executionId := by
  have hn : (db₁.executions.find request.identity.executionId).isNone ↔
      (db₂.executions.find request.identity.executionId).isNone := by
    rw [Option.isNone_iff_eq_none, Option.isNone_iff_eq_none, ← Option.not_isSome_iff_eq_none,
      ← Option.not_isSome_iff_eq_none]
    exact not_congr hx
  refine .query (fun _ => by simp only [Statement.reply, hn, ht, h.tenants]) fun r _ _ hr => ?_
  have hf : db₁.executions.find request.identity.executionId = none := (Statement.told_of_reply hr).left
  have hn₁ := hk₁.unmentioned hf
  have hn₂ := hk₂.unmentioned <| by simpa [hf] using hn
  exact .pure (h.addExecution hn₁ hn₂ status r) ⟨_, Table.find_insert_new hf, ht⟩

end PgExecutionStore

namespace PostgresExecutionService

theorem awaitOrDispatch_matches (h : Matched t fresh db₁ db₂) (ht : request.identity.tenantId = t)
    (ho : db₁.Owns t request.identity.executionId) :
    (awaitOrDispatch request decision).Matches now t fresh db₁ db₂ fun _ _ _ => True := by
  unfold awaitOrDispatch
  split
  · refine .own h trivial fun _ _ _ _ h₁ hg₁ => .own h₁ trivial fun u _ hu hr h₂ hg₂ => ?_
    cases hr
    refine (Matches.newDate h₂).bind fun _ _ _ h₃ hg₃ _ => createApproval_matches h₃ ht ?_ hu
    exact (ho.mono <| hg₁.trans hg₂).mono hg₃
  split
  · exact createDispatch_matches h ho
  · exact .pure h trivial

theorem create_matches (h : Matched t fresh db₁ db₂) (ht : request.identity.tenantId = t) (hk₁ : db₁.ForeignKeys)
    (hk₂ : db₂.ForeignKeys)
    (hx : db₁.HasExecution request.identity.executionId ↔ db₂.HasExecution request.identity.executionId) :
    (create request).Matches now t fresh db₁ db₂ fun _ d₁ _ => d₁.Owns t request.identity.executionId := by
  refine (createExecution_matches h ht hk₁ hk₂ hx).bind fun _ _ _ h₁ _ ho => ?_
  refine (Matches.newDate h₁).bind fun _ _ _ h₂ hg₂ _ => ?_
  have ho := ho.mono hg₂
  refine (appendEvent_matches h₂ ho).bind fun _ _ _ h₃ hg₃ _ => ?_
  have ho := ho.mono hg₃
  refine (awaitOrDispatch_matches h₃ ht ho).bind fun _ _ _ h₄ hg₄ _ => ?_
  have ho := ho.mono hg₄
  refine .own h₄ trivial fun u _ hu hr h₅ hg₅ => ?_
  cases hr
  refine (Matches.newDate h₅).bind fun _ _ _ h₆ hg₆ _ => ?_
  have ho := (ho.mono hg₅).mono hg₆
  exact (appendAudit_matches h₆ ht ho hu).bind fun _ _ _ h₇ hg₇ _ => .pure h₇ <| ho.mono hg₇

theorem recordKey_matches {digest : String} (h : Matched t fresh db₁ db₂) (ht : request.identity.tenantId = t)
    (ho : db₁.Owns t request.identity.executionId) :
    (recordKey request key digest).Matches now t fresh db₁ db₂ fun _ _ _ => True := by
  subst ht
  refine (putIdempotency_matches h ho).bind fun _ _ _ h₁ hg₁ _ => ?_
  refine (findIdempotency_matches h₁).bind fun recorded _ _ h₂ hg₂ hr => ?_
  obtain ⟨rfl, rfl, hr⟩ := hr
  cases recorded
  · exact .throw
  dsimp only
  split
  · exact .throw
  split
  · refine (latestEvent_matches h₂ <| hr _ rfl).bind fun event _ _ h₃ _ _ => ?_
    cases event
    · exact .throw
    · exact .pure h₃ trivial
  · exact .pure h₂ trivial

theorem findReusable_matches {digest : String} (h : Matched t fresh db₁ db₂) :
    (findReusable t key digest).Matches now t fresh db₁ db₂ fun _ d₁ d₂ => d₁ = db₁ ∧ d₂ = db₂ := by
  refine .own h trivial fun _ _ _ _ h₁ _ => (findIdempotency_matches h₁).bind fun existing _ _ h₂ _ hr => ?_
  obtain ⟨rfl, rfl, hr⟩ := hr
  cases existing
  · exact .pure h₂ ⟨rfl, rfl⟩
  dsimp only
  split
  · exact .throw
  · refine (latestEvent_matches h₂ <| hr _ rfl).bind fun event _ _ h₃ _ hd => ?_
    cases event
    · exact .throw
    · exact .pure h₃ hd

theorem start_matches {digest : String} (h : Matched t fresh db₁ db₂) (ht : request.identity.tenantId = t)
    (hk₁ : db₁.ForeignKeys) (hk₂ : db₂.ForeignKeys)
    (hx : db₁.HasExecution request.identity.executionId ↔ db₂.HasExecution request.identity.executionId) :
    (start request digest options).Matches now t fresh db₁ db₂ fun _ _ _ => True := by
  subst ht
  refine .own h rfl fun added _ _ _ h₁ hg₁ => ?_
  have hk₁ : ((Statement.insertTenant request.identity.tenantId).effect added db₁).ForeignKeys := hk₁.effect trivial
  have hk₂ : ((Statement.insertTenant request.identity.tenantId).effect added db₂).ForeignKeys := hk₂.effect trivial
  have hx₁ : ((Statement.insertTenant request.identity.tenantId).effect added db₁).HasExecution request.identity.executionId ↔
      ((Statement.insertTenant request.identity.tenantId).effect added db₂).HasExecution request.identity.executionId := by
    cases added <;> exact hx
  split
  · exact (create_matches h₁ rfl hk₁ hk₂ hx₁).bind fun _ _ _ h₂ _ _ => .pure h₂ trivial
  refine (findReusable_matches h₁).bind fun result _ _ h₂ _ hd => ?_
  obtain ⟨rfl, rfl⟩ := hd
  cases result
  case some => exact .pure h₂ trivial
  case none =>
    refine (create_matches h₂ rfl hk₁ hk₂ hx₁).bind fun stored _ _ h₃ _ ho => ?_
    refine (recordKey_matches h₃ rfl ho).bind fun result _ _ h₄ _ _ => ?_
    cases result
    · exact .pure h₄ trivial
    · exact .pure h₄ trivial

end PostgresExecutionService

-- Processes that nobody interferes with, where a list tells the circumstances. Their transactions begin at
-- a given time.
def scripted (pid : Pid) (now : Time) : Semantics platform.outer (platform.Global × List Ambient) KernelError where
  step
    | .inl c, s, r, s' => ∃ db', (Call.body c).Runs (engine.scripted now) (s.fst.db, s.snd) r (db', s'.snd) ∧
                          s'.fst = Call.settle c pid now db' s.fst r
    | .inr a, s, r, s' => ∃ amb, s.snd = amb :: s'.snd ∧ r = (Action.act a amb s.fst.db s.fst.world).fst ∧
                          s'.fst = Action.actOn a amb s.fst
  fails _ _ _ := False

theorem scripted_deterministic (pid : Pid) (now : Time) : (scripted pid now).Deterministic where
  step := by
    rintro (c | a) ⟨g, script⟩ r ⟨g₁, rest⟩ r' ⟨g₂, rest'⟩ h h'
    case inl =>
      obtain ⟨db₁, h, rfl⟩ := h
      obtain ⟨db₂, h', rfl⟩ := h'
      have ⟨hr, hs⟩ := h.unique (engine.scripted_deterministic now) h'
      cases hr
      cases hs
      exact ⟨rfl, rfl⟩
    case inr =>
      obtain ⟨amb, hw, rfl, rfl⟩ := h
      obtain ⟨amb', hw', rfl, rfl⟩ := h'
      obtain ⟨rfl, rfl⟩ := List.cons.inj (hw.symm.trans hw')
      exact ⟨rfl, rfl⟩
  fails := fun h => h.elim
  not   := fun _ => id

theorem transaction_scripted {c : Call} {res : Except KernelError c.Result} {s s' : platform.Global × List Ambient} :
    (transaction c).Runs (scripted pid now) s res s' ↔
    ∃ db', c.body.Runs (engine.scripted now) (s.fst.db, s.snd) res (db', s'.snd) ∧ s'.fst = c.settle pid now db' s.fst res := by
  constructor
  case mp =>
    rintro (⟨r, _, ⟨db', hr, hs⟩, h⟩ | ⟨_, hf, _⟩)
    case inl =>
      obtain ⟨rfl, rfl⟩ := Program.runs_ofExcept.mp h
      exact ⟨db', hr, hs⟩
    case inr => exact hf.elim
  case mpr =>
    rintro ⟨db', hr, hs⟩
    exact .inl ⟨res, s', ⟨db', hr, hs⟩, Program.runs_ofExcept.mpr ⟨rfl, rfl⟩⟩

-- Two states in which a tenant has the same rows, and the id of a new execution is in use or not. Under the
-- same circumstances, `start` has the same outcome in both of them, and the tenant has the same rows again.
theorem starts_are_isolated {s₁ s₂ : platform.State} {g₁ : platform.Global} {request : ExecutionRequest}
    {options : StartExecutionOptions} {script rest : List Ambient} {res : Except KernelError StartExecutionResult}
    (h₁ : Reachable G₁ s₁) (h₂ : Reachable G₂ s₂) (he : s₁.db.EqualFor request.identity.tenantId s₂.db)
    (hx : s₁.db.HasExecution request.identity.executionId ↔ s₂.db.HasExecution request.identity.executionId)
    (hf : ∀ amb ∈ script, Fresh s₁.db amb ∧ Fresh s₂.db amb)
    (hr : (Process.start host request options).Runs (scripted pid now) (s₁.toGlobal, script) res (g₁, rest)) :
    ∃ g₂, g₁.db.EqualFor request.identity.tenantId g₂.db ∧
      ∀ res' s', (Process.start host request options).Runs (scripted pid now) (s₂.toGlobal, script) res' s' ↔
        res' = res ∧ s' = (g₂, rest) := by
  suffices h : ∃ g₂, g₁.db.EqualFor request.identity.tenantId g₂.db ∧
      (Process.start host request options).Runs (scripted pid now) (s₂.toGlobal, script) res (g₂, rest) by
    obtain ⟨g₂, hg, hr⟩ := h
    refine ⟨g₂, hg, fun res' s' => ⟨fun hr' => hr'.unique (scripted_deterministic pid now) hr, ?_⟩⟩
    rintro ⟨rfl, rfl⟩
    exact hr
  by_cases hv : request.Valid
  case neg =>
    rw [Process.start, if_neg hv] at hr ⊢
    obtain ⟨rfl, hs⟩ := hr
    cases hs
    exact ⟨s₂.toGlobal, he, rfl, rfl⟩
  case pos =>
    obtain ⟨digest, hh⟩ := requestHash_isSome host request
    rw [Process.start, if_pos hv] at hr ⊢
    simp only [hh] at hr ⊢
    obtain ⟨db₁, hr, hs⟩ := transaction_scripted.mp hr
    let fresh u := ∃ amb ∈ script, amb.uuid = u
    have hm : Matched request.identity.tenantId fresh s₁.db s₂.db := { he with
      keyed    := fun row hr ht => ht ▸ h₁.keyed row hr
      approval := by
        rintro _ ⟨amb, ha, rfl⟩
        exact (hf amb ha).left.approvals.trans (hf amb ha).right.approvals.symm
      record   := by
        rintro _ ⟨amb, ha, rfl⟩
        exact (hf amb ha).left.audit.trans (hf amb ha).right.audit.symm
    }
    have hc : (start request digest options).Matches now request.identity.tenantId fresh s₁.db s₂.db fun _ _ _ => True :=
      start_matches hm rfl h₁.foreignKeys h₂.foreignKeys hx
    obtain ⟨⟨db₂, _⟩, hr₂, hrest, _, hd⟩ := hc script (fun amb ha => ⟨amb, ha, rfl⟩) _ _ hr
    obtain rfl : rest = _ := hrest
    refine ⟨Call.settle (.start request digest options) pid now db₂ s₂.toGlobal res, ?_,
      transaction_scripted.mpr ⟨db₂, hr₂, rfl⟩⟩
    obtain rfl : g₁ = Call.settle (.start request digest options) pid now db₁ s₁.toGlobal res := hs
    cases res
    case ok    => exact (hd _ rfl).left.toEqualFor
    case error => exact he

namespace Sample

-- An execution of another tenant
def foreign (executionId : String) : platform.Code := do
  let request := { request false with identity := ⟨executionId, "b", "u", "g", "1"⟩ }
  return .started (← transaction (.start request "h" ⟨none⟩))

abbrev vacant : platform.State :=
  reach unchecked []

-- A platform on which another tenant has started an execution.
abbrev among (executionId : String) : platform.State :=
  reach unchecked (transact 0 (foreign executionId) 0 "x" 8)

def circumstances : List Ambient :=
  List.replicate 8 (ambient 0 "y")

theorem not_owns : ¬Db.empty.Owns t e
  | ⟨_, hf, _⟩ => Option.some_ne_none _ hf.symm

-- A tenant without rows has the same rows as in an empty database.
theorem empty_equalFor {db : Db} (he : ∀ row ∈ db.executions.rows, row.tenantId ≠ t)
    (ha : ∀ row ∈ db.approvals.rows, row.tenantId ≠ t) (hr : ∀ row ∈ db.audit.rows, row.tenantId ≠ t)
    (ht : t ∉ db.tenants) (hi : ∀ row ∈ db.idempotency.rows, row.tenantId ≠ t) : Db.empty.EqualFor t db where
  executions  := fun row h => iff_of_false List.not_mem_nil fun hm => he row hm h
  events      := fun _ h => (not_owns h).elim
  approvals   := fun row h => iff_of_false List.not_mem_nil fun hm => ha row hm h
  audit       := fun row h => iff_of_false List.not_mem_nil fun hm => hr row hm h
  dispatches  := fun _ h => (not_owns h).elim
  tenants     := iff_of_false List.not_mem_nil ht
  idempotency := fun row h => iff_of_false List.not_mem_nil fun hm => hi row hm h

theorem circumstances_fresh {db db' : Db} (h : Fresh db (ambient 0 "y")) (h' : Fresh db' (ambient 0 "y")) :
    ∀ amb ∈ circumstances, Fresh db amb ∧ Fresh db' amb :=
  fun _ ha => List.eq_of_mem_replicate ha ▸ ⟨h, h'⟩

theorem vacant_runs (host : Host) : ∃ event g, (Process.start host (request false) ⟨none⟩).Runs (scripted 1 0)
    (vacant.toGlobal, circumstances) (.ok ⟨event, false⟩) (g, []) := by
  have ⟨digest, hh⟩ := requestHash_isSome host (request false)
  have hr : ∃ event db, (Call.body (.start (request false) digest ⟨none⟩)).Runs (engine.scripted 0)
      (Db.empty, circumstances) (.ok ⟨event, false⟩) (db, []) := by
    apply Exists.intro
    apply Exists.intro
    iterate 8 refine .inl ⟨_, (_, _), ⟨_, rfl, rfl, rfl, rfl⟩, ?_⟩
    exact ⟨rfl, rfl⟩
  have ⟨event, db, hr⟩ := hr
  refine ⟨event, Call.settle (.start (request false) digest ⟨none⟩) 1 0 db vacant.toGlobal (.ok ⟨event, false⟩), ?_⟩
  rw [Process.start, if_pos (by decide)]
  simp only [hh]
  exact transaction_scripted.mpr ⟨db, hr, rfl⟩

-- On the platform on which the other tenant uses the execution id, the same call throws.
theorem among_runs (host : Host) : ∃ error g rest, (Process.start host (request false) ⟨none⟩).Runs (scripted 1 0)
    ((among "e").toGlobal, circumstances) (.error error) (g, rest) := by
  have ⟨digest, hh⟩ := requestHash_isSome host (request false)
  have hr : ∃ error db rest, (Call.body (.start (request false) digest ⟨none⟩)).Runs (engine.scripted 0)
      ((among "e").db, circumstances) (.error error) (db, rest) := by
    apply Exists.intro
    apply Exists.intro
    apply Exists.intro
    refine .inl ⟨_, (_, _), ⟨_, rfl, rfl, rfl, rfl⟩, ?_⟩
    exact .inr ⟨_, ⟨_, _, rfl, rfl⟩, rfl, rfl⟩
  have ⟨error, db, rest, hr⟩ := hr
  refine ⟨error, Call.settle (.start (request false) digest ⟨none⟩) 1 0 db (among "e").toGlobal (.error error), rest, ?_⟩
  rw [Process.start, if_pos (by decide)]
  simp only [hh]
  exact transaction_scripted.mpr ⟨db, hr, rfl⟩

end Sample

open Sample in
theorem starts_are_isolated_among : ∃ event, ∃ g₁ g₂ : platform.Global, g₁.db.EqualFor "t" g₂.db ∧
    ∀ res' s', (Process.start hashing (request false) ⟨none⟩).Runs (scripted 1 0) ((among "x").toGlobal, circumstances) res' s' ↔
      res' = .ok ⟨event, false⟩ ∧ s' = (g₂, []) := by
  have ⟨event, g₁, hr⟩ := vacant_runs hashing
  have h₁ : Reachable Guard.any vacant := reach_reachable fun _ _ _ _ => trivial
  have h₂ : Reachable Guard.any (among "x") := reach_reachable fun _ _ _ _ => trivial
  have hx : vacant.db.HasExecution "e" ↔ (among "x").db.HasExecution "e" := iff_of_false Bool.false_ne_true Bool.false_ne_true
  have h := starts_are_isolated h₁ h₂
    (empty_equalFor (by decide) (by decide) (by decide) (by decide) (by decide)) hx
    (circumstances_fresh ⟨rfl, rfl⟩ ⟨rfl, rfl⟩) hr
  exact ⟨event, g₁, h⟩

-- Ids of executions are primary keys across tenants: A call of `start` can fail because of another tenant.
open Sample in
theorem starts_can_collide : ¬∀ (G : Guard) s₁ s₂ g₁ request options script rest res host pid now,
    Reachable G s₁ → Reachable G s₂ → s₁.db.EqualFor request.identity.tenantId s₂.db →
    (∀ amb ∈ script, Fresh s₁.db amb ∧ Fresh s₂.db amb) →
    (Process.start host request options).Runs (scripted pid now) (s₁.toGlobal, script) res (g₁, rest) →
    ∃ g₂, g₁.db.EqualFor request.identity.tenantId g₂.db ∧
      (Process.start host request options).Runs (scripted pid now) (s₂.toGlobal, script) res (g₂, rest) := by
  intro h
  have ⟨_, _, hr⟩ := vacant_runs hashing
  have ⟨g₂, _, hr⟩ := h Guard.any vacant (among "e") _ _ _ _ _ _ _ _ _
    (reach_reachable fun _ _ _ _ => trivial) (reach_reachable fun _ _ _ _ => trivial)
    (empty_equalFor (by decide) (by decide) (by decide) (by decide) (by decide))
    (circumstances_fresh ⟨rfl, rfl⟩ ⟨rfl, rfl⟩) hr
  have ⟨_, _, _, hr'⟩ := among_runs hashing
  nomatch (hr.unique (scripted_deterministic 1 0) hr').left

end Logon
