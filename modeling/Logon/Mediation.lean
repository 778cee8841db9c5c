import Mathlib.Data.String.Basic
import Logon.ControlPlane.Server
import Logon.Decision

-- Requests only change what their principals may decide.

namespace Logon.ControlPlane

open Program System

-- What is known about replies if the clocks of processes show certain times.
def clocked (clock : Time → Prop) : Premise
  | _, .dateNow, _, t => clock t
  | _, _,        _, _ => True

-- The state that a request shares with the processes of the platform, and the databases before and
-- after the transactions that it has run.
structure Handling extends System.Global platform where
  changes : List (Db × Db)

inductive Performs (clock : Time → Prop) (s : Handling) : (o : WebOp) → o.Reply → Handling → Prop
  | dateNow {t} :
    clock t → Performs clock s .dateNow t s
  | rows {q order evidence permissions} :
    Performs clock s (.query q) (.ok (q.rows order ⟨s.db, evidence, permissions⟩)) s
  | outage {q text} :
    Performs clock s (.query q) (.error text) s
  | service {pid o r g} :
    Do (loose platform (clocked clock).answer fun _ _ => True) pid o s.toGlobal r g →
    Performs clock s (.service o) r ⟨g, s.changes ++ [(s.db, g.db)]⟩

-- What others may do between two operations of a request.
structure Handling.Later (s s' : Handling) : Prop where
  db      : s.db.Grows s'.db
  changes : s'.changes = s.changes

-- The meaning of the handling of a request, which others may interfere with.
def serving (clock : Time → Prop) : Semantics web Handling WebError where
  step o s r s' := ∃ s₁, s.Later s₁ ∧ Performs clock s₁ o r s'
  fails _ _ _   := False

variable {clock : Time → Prop} {C : Db → Db → Prop} {s s' : Handling} {db db' : Db}

-- All changes so far are of a kind.
def Handling.Only (C : Db → Db → Prop) (s : Handling) : Prop :=
  ∀ x ∈ s.changes, C x.fst x.snd

-- All changes that a program makes are of a kind.
def Safe (clock : Time → Prop) (C : Db → Db → Prop) (p : Web α) (s : Handling) : Prop :=
  ∀ res s', p.Runs (serving clock) s res s' → s.Only C → s'.Only C

theorem Handling.Later.only (h : s.Later s') (hs : s.Only C) : s'.Only C :=
  fun x hx => hs x (h.changes ▸ hx)

namespace Safe

theorem bind {p : Web α} {f : α → Web β} (hp : Safe clock C p s)
    (hf : ∀ a s₁, p.Runs (serving clock) s (.ok a) s₁ → Safe clock C (f a) s₁) : Safe clock C (p.bind f) s := by
  intro res s' h hs
  obtain ⟨a, s₁, ha, h⟩ | ⟨_, _, h⟩ := runs_bind h
  · exact hf a s₁ ha _ _ h <| hp _ _ ha hs
  · exact hp _ _ h hs

theorem tryCatch {p : Web α} {f : WebError → Web α} (hp : Safe clock C p s)
    (hf : ∀ e s₁, Safe clock C (f e) s₁) : Safe clock C (p.tryCatch f) s := by
  intro res s' h hs
  obtain ⟨_, _, h⟩ | ⟨e, s₁, he, h⟩ | ⟨_, _, h, _⟩ := h.tryCatch_cases
  · exact hp _ _ h hs
  · exact hf e s₁ _ _ h <| hp _ _ he hs
  · exact hp _ _ h hs

theorem ofExcept_bind {res : Except WebError α} {f : α → Web β} (hf : ∀ a, res = .ok a → Safe clock C (f a) s) :
    Safe clock C ((Program.ofExcept res).bind f) s := by
  cases res
  case ok a    => exact hf a rfl
  case error e => exact fun _ _ h hs => h.right ▸ hs

end Safe

-- Only the service changes the database.
def Quiet : WebOp → Prop
  | .service _ => False
  | _          => True

theorem Safe.quiet {p : Web α} (h : p.Uses Quiet) : Safe clock C p s := by
  intro res s' hr hs
  refine hr.keeps h (P := Handling.Only C) ?_ hs
  intro o s r s' ho ⟨s₁, hl, hd⟩ hs
  cases hd
  case service => exact ho.elim
  case dateNow => exact hl.only hs
  case rows    => exact hl.only hs
  case outage  => exact hl.only hs

theorem pool_quiet (q : Query) : (pool q).Uses Quiet :=
  ⟨trivial, fun _ => Uses.ofExcept _⟩

theorem listExecutions_quiet (t : String) : (listExecutions t).Uses Quiet :=
  (pool_quiet _).bind fun _ => trivial

theorem getExecution_quiet (t e : String) : (getExecution t e).Uses Quiet := by
  apply (pool_quiet _).bind
  intro rows
  cases rows
  case nil  => trivial
  case cons =>
    refine (pool_quiet _).bind fun _ => (pool_quiet _).bind fun _ => (pool_quiet _).bind fun _ => ?_
    exact (pool_quiet _).bind fun _ => (pool_quiet _).bind fun _ => (pool_quiet _).bind fun _ => trivial

-- An approval that a tenant has requested for an execution.
def Bound (t e a : String) (db : Db) : Prop :=
  ∃ row, db.approvals.find a = some row ∧ row.executionId = e ∧ row.tenantId = t

theorem Bound.mono (h : db.Grows db') (hb : Bound t e a db) : Bound t e a db' := by
  have ⟨row, hf, he, ht⟩ := hb
  have ⟨row', hf', hs⟩ := h.approvals a row hf
  exact ⟨row', hf', hs.executionId.trans he, hs.tenantId.trans ht⟩

-- An approval that is found is one of the tenant.
theorem bound_of_selectOwnership
    (h : (pool (.selectOwnership a e t)).Runs (serving clock) s (.ok rows) s') (hn : rows.length = 1) :
    Bound t e a s'.db := by
  obtain ⟨res, s₁, hp, hr⟩ := runs_bind_ok.mp h
  obtain ⟨s₂, hl, hd⟩ := runs_perform_ok.mp hp
  cases hd
  case outage => cases hr.left
  case rows   =>
    obtain ⟨hr, rfl⟩ := hr
    cases Except.ok.inj hr
    simp only [Query.rows, List.length_map] at hn
    obtain ⟨row, hrow⟩ := List.exists_mem_of_length_pos (hn ▸ Nat.one_pos)
    obtain ⟨hf, hc⟩ := Option.filter_eq_some_iff.mp <| Option.mem_toList.mp hrow
    exact ⟨row, hf, by simpa using hc⟩

-- What a decision about an approval changes in somebody's name.
structure Decision (t e a actor : String) (db db' : Db) : Prop where
  tenants     : db'.tenants = db.tenants
  executions  : db.executions.Changed (·.executionId = e) db'.executions
  events      : db.events.Changed (fun row => row.executionId = e ∧ row.actorId = actor) db'.events
  approvals   : db.approvals.Changed
    (fun row => row.approvalId = a ∧ row.executionId = e ∧ row.decidedBy = some actor) db'.approvals
  audit       : db.audit.Changed
    (fun row => row.executionId = e ∧ row.tenantId = t ∧ row.actorId = actor) db'.audit
  idempotency : db'.idempotency = db.idempotency
  dispatches  : db.dispatches.Changed (·.executionId = e) db'.dispatches

section
variable {P : Premise} {now : Time} {decision : ApprovalDecision}

theorem changed_setApproval {row : ApprovalRow} (status : ApprovalStatus) (actor : String) (t : Time)
    (hf : db.approvals.find a = some row) (he : row.executionId = e) :
    db.approvals.Changed (fun row => row.approvalId = a ∧ row.executionId = e ∧ row.decidedBy = some actor)
      (db.setApproval a status actor t).approvals := by
  apply Table.Changed.modify _ (by simp)
  intro r hr
  cases hf.symm.trans hr
  have ha : row.approvalId = a := Table.key_of_find hf
  exact ⟨ha, he, rfl⟩

theorem changed_advance {db₁ : Db} {event : ExecutionEvent} (h : Advance now db event db₁) :
    db.executions.Changed (·.executionId = event.executionId) db₁.executions ∧
    db.events.Changed (fun row => row.executionId = event.executionId ∧ row.actorId = event.actorId) db₁.events := by
  cases h
  refine ⟨.modify _ (by simp) fun r hr => ?_, .insert _ ⟨rfl, rfl⟩⟩
  have he : r.executionId = event.executionId := Table.key_of_find hr
  exact he

theorem changed_audit {db₁ : Db} (h : Audit P now db e t action actor allowed reason db₁) :
    db.audit.Changed (fun row => row.executionId = e ∧ row.tenantId = t ∧ row.actorId = actor) db₁.audit := by
  cases h
  exact .insert _ ⟨rfl, rfl, rfl⟩

-- What a decision changes if it does so step by step.
theorem Decision.of_steps {row : ApprovalRow} {event : ExecutionEvent} {db₂ db₃ : Db}
    (hv : Advance now (db.setApproval a status actor t) event db₂) (hf : db.approvals.find a = some row)
    (hb : row.executionId = e) (he : event.executionId = e) (ha : event.actorId = actor)
    (hs : db₃ = db₂ ∨ db₃ = db₂.addDispatch e now) (hu : Audit P now db₃ e tenantId action actor allowed reason db') :
    Decision tenantId e a actor db db' := by
  have ⟨hx, hev⟩ := he ▸ ha ▸ changed_advance hv
  have hau := changed_audit hu
  have hap := changed_setApproval status actor t hf hb
  cases hv
  cases hu
  obtain rfl | rfl := hs
  · exact ⟨rfl, hx, hev, hap, hau, rfl, .refl _ _⟩
  · exact ⟨rfl, hx, hev, hap, hau, rfl, .insert _ rfl⟩

theorem Decide.recorded {row : ApprovalRow} (h : Decide P now decision db outcome db')
    (hf : db.approvals.find decision.approvalId = some row) :
    ∃ actor, Decision row.tenantId decision.executionId decision.approvalId actor db db' ∧
      (actor = decision.decidedBy ∨
        actor = "logon.approval.expiry" ∧ ∃ x ∈ row.expiresAt, ∃ t, P now .dateNow db t ∧ x ≤ t) := by
  cases h
  case expired execution row' x t ho hx ht hle hr =>
    cases hf.symm.trans ho.findApproval
    cases hr
    case mk hf' hv hu =>
      cases hf'.symm.trans ho.findExecution
      have hd := Decision.of_steps hv hf ho.bound rfl rfl (.inl rfl) hu
      exact ⟨_, ho.tenant ▸ hd, .inr ⟨rfl, x, hx, t, ht, hle⟩⟩
  case decided db₁ db₂ db₃ ho hx hd hv hs hu =>
    cases hf.symm.trans ho.findApproval
    have hs : db₃ = db₂ ∨ db₃ = db₂.addDispatch decision.executionId now := by
      obtain hs | hs | hs := hs
      · exact .inl hs.right
      · exact .inr hs.right.right
      · exact .inl hs.right.right
    subst hd
    have hd := Decision.of_steps hv hf ho.bound rfl rfl hs hu
    exact ⟨_, ho.tenant ▸ hd, .inl rfl⟩

end

-- A request that may decide an approval of an execution.
structure Entitled (host : HttpHost) (env : ProcessEnv) (req : IncomingMessage) (principal : ControlPlanePrincipal)
    (e a : String) : Prop where
  method    : req.method = some "POST"
  pathname  : host.pathname (req.url.getD "/") =
    some ("/api/executions/" ++ host.encodeURIComponent e ++ "/approval")
  resolved  : resolvePrincipal host req.headers env = .ok principal
  role      : .approver ∈ principal.roles ∨ .admin ∈ principal.roles
  body      : ∃ body, readJson host req.body = .ok body ∧ stringMember body "approvalId" = some a

-- What a request may do to the database.
def Mediated (host : HttpHost) (env : ProcessEnv) (req : IncomingMessage) (clock : Time → Prop) (db db' : Db) : Prop :=
  ∃ principal e a actor row, Entitled host env req principal e a ∧
    db.approvals.find a = some row ∧ row.executionId = e ∧ row.tenantId = principal.tenantId ∧
    Decision principal.tenantId e a actor db db' ∧
    (actor = principal.subjectId ∨
      actor = "logon.approval.expiry" ∧ ∃ x ∈ row.expiresAt, ∃ t, clock t ∧ x ≤ t)

theorem serve_uses {A : platform.outer.Op → Prop} {p : Process α} (h : p.Uses A) :
    (serve p).Uses fun o => ∃ o', o = WebOp.service o' ∧ A o' := by
  induction p
  case pure  => trivial
  case throw => trivial
  case op ih => exact ⟨⟨_, rfl, h.left⟩, fun r => ih r (h.right r)⟩

theorem decideApproval_only (decision : ApprovalDecision) :
    (PostgresExecutionService.Process.decideApproval decision).Uses
      fun o : platform.outer.Op => o = .inl (.decideApproval decision) := by
  refine Uses.bind ⟨rfl, Uses.ofExcept⟩ fun outcome => ?_
  split <;> trivial

-- What a transaction of `decideApproval` does.
theorem Do.decides {decision : ApprovalDecision} {g g' : platform.Global}
    {r : platform.outer.Reply (.inl (.decideApproval decision))}
    (h : Do (loose platform (clocked clock).answer fun _ _ => True) pid (.inl (.decideApproval decision)) g r g') :
    g'.db = g.db ∨ g.db.Grows g'.db ∧ ∃ outcome now, Decide (clocked clock) now decision g.db outcome g'.db := by
  cases h
  case throw => exact .inl rfl
  case fault => exact .inl rfl
  case commit now db' outcome _ _ hr =>
    have hr : (Call.decideApproval decision).body.Runs ((clocked clock).sem now) g.db (.ok outcome) db' := hr
    exact .inr ⟨Call.grows _ hr, outcome, now, Call.commits _ hr⟩

theorem Safe.serve {decision : ApprovalDecision} (hb : Bound t decision.executionId decision.approvalId s.db)
    (hr : ∀ db, C db db)
    (hd : ∀ {db outcome now db'}, Bound t decision.executionId decision.approvalId db →
      Decide (clocked clock) now decision db outcome db' → C db db') :
    Safe clock C (serve (PostgresExecutionService.Process.decideApproval decision)) s := by
  intro res s' h hs
  refine (h.keeps (serve_uses <| decideApproval_only decision)
    (P := fun s => Bound t decision.executionId decision.approvalId s.db ∧ s.Only C) ?_ ⟨hb, hs⟩).right
  rintro _ s r s' ⟨o', rfl, rfl⟩ ⟨s₁, hl, hp⟩ ⟨hb, hs⟩
  have hb := hb.mono hl.db
  have hs := hl.only hs
  cases hp
  case service pid g hdo =>
    have ⟨hg, hc⟩ : s₁.db.Grows g.db ∧ C s₁.db g.db := by
      obtain he | ⟨hg, outcome, now, hdec⟩ := Do.decides hdo
      · exact he ▸ ⟨.refl _, hr _⟩
      · exact ⟨hg, hd hb hdec⟩
    constructor
    case left  => exact hb.mono hg
    case right =>
      intro x hx
      cases List.mem_append.mp hx
      case inl hx => exact hs x hx
      case inr hx => exact List.mem_singleton.mp hx ▸ hc

section
variable {host : HttpHost} {env : ProcessEnv} {req : IncomingMessage}

-- What a request may do to the database, if it does anything.
def Allowed (host : HttpHost) (env : ProcessEnv) (req : IncomingMessage) (clock : Time → Prop) (db db' : Db) : Prop :=
  db' ≠ db → Mediated host env req clock db db'

theorem Decide.mediated {decision : ApprovalDecision} {principal : ControlPlanePrincipal}
    (h : Decide (clocked clock) now decision db outcome db')
    (hb : Bound principal.tenantId decision.executionId decision.approvalId db)
    (he : Entitled host env req principal decision.executionId decision.approvalId)
    (hd : decision.decidedBy = principal.subjectId) : Mediated host env req clock db db' := by
  have ⟨row, hf, hx, ht⟩ := hb
  have ⟨actor, hdec, ha⟩ := Decide.recorded h hf
  exact ⟨principal, _, _, actor, row, he, hf, hx, ht, ht ▸ hdec, ha.imp_left (·.trans hd)⟩

theorem Entitled.of_body {principal : ControlPlanePrincipal} {body : List (String × Json)}
    (hm : req.method = some "POST")
    (hu : host.pathname (req.url.getD "/") = some ("/api/executions/" ++ host.encodeURIComponent e ++ "/approval"))
    (hp : resolvePrincipal host req.headers env = .ok principal) (hr : requireRole principal .approve = .ok u)
    (hb : readJson host req.body = .ok body) (hn : (stringMember body "approvalId").getD "" ≠ "") :
    Entitled host env req principal e ((stringMember body "approvalId").getD "") where
  method   := hm
  pathname := hu
  resolved := hp
  role     := requireRole_approve.mp hr
  body     := by
    cases hs : stringMember body "approvalId"
    case none   => simp [hs] at hn
    case some a => exact ⟨body, hb, by simp [hs]⟩

theorem decideApproval_safe {principal : ControlPlanePrincipal} {body : List (String × Json)}
    (hm : req.method = some "POST")
    (hu : host.pathname (req.url.getD "/") = some ("/api/executions/" ++ host.encodeURIComponent e ++ "/approval"))
    (hp : resolvePrincipal host req.headers env = .ok principal) (hb : readJson host req.body = .ok body) :
    Safe clock (Allowed host env req clock) (decideApproval principal e body) s := by
  unfold decideApproval
  apply Safe.ofExcept_bind
  intro _ hr
  split
  case h_1 => exact .quiet trivial
  case h_2 status _ =>
    dsimp only
    split
    case isTrue     => exact .quiet trivial
    case isFalse hn =>
      have he := Entitled.of_body hm hu hp hr hb hn
      refine Safe.bind (.quiet <| pool_quiet _) fun rows s₁ hrun => ?_
      split
      case isTrue     => exact .quiet trivial
      case isFalse hl =>
        have hbound := bound_of_selectOwnership hrun (by simpa using hl)
        refine Safe.bind (.quiet ⟨trivial, fun _ => trivial⟩) fun t s₂ ht => ?_
        have hg : s₁.db.Grows s₂.db := by
          have ⟨_, hl, hd⟩ := runs_perform_ok.mp ht
          cases hd
          exact hl.db
        refine Safe.tryCatch (.bind (.serve (hbound.mono hg) ?_ ?_) fun _ _ _ => .quiet trivial) fun error s₃ => ?_
        · exact fun _ hne => absurd rfl hne
        · exact fun hb hdec _ => Decide.mediated hdec hb he rfl
        · split <;> exact .quiet trivial

theorem respond_safe : Safe clock (Allowed host env req clock) (respond host env req) s := by
  unfold respond
  split
  case h_1 => exact .quiet trivial
  case h_2 pathname hu =>
    split
    case isTrue  => exact .quiet <| (pool_quiet _).bind fun _ => trivial
    case isFalse =>
      split
      case isTrue  => exact .quiet trivial
      case isFalse =>
        refine Safe.ofExcept_bind fun principal hp => ?_
        split
        case isTrue  => exact .quiet <| (Uses.ofExcept _).bind fun _ => trivial
        case isFalse =>
          split
          case isTrue  =>
            exact .quiet <| (Uses.ofExcept _).bind fun _ => (listExecutions_quiet _).bind fun _ => trivial
          case isFalse =>
            refine Safe.ofExcept_bind fun e _ => ?_
            split
            case h_1 => exact .quiet trivial
            case h_2 e _ =>
              dsimp only
              split
              case isTrue =>
                exact .quiet <| (Uses.ofExcept _).bind fun _ => (getExecution_quiet _ _).bind fun _ => trivial
              case isFalse =>
                split
                case isFalse   => exact .quiet trivial
                case isTrue hr =>
                  have ⟨hm, hpath⟩ := hr
                  refine Safe.ofExcept_bind fun body hb => ?_
                  exact .bind (decideApproval_safe hm (hpath ▸ hu) hp hb) fun _ _ _ => .quiet trivial

-- The handling of a request starts without changes, and all that it makes then are of this kind.
theorem writes_are_mediated {res : Except WebError Response} (h : (handler host env req).Runs (serving clock) s res s')
    (hs : s.changes = []) (hc : (db, db') ∈ s'.changes) (hn : db' ≠ db) : Mediated host env req clock db db' := by
  have hsafe : Safe clock (Allowed host env req clock) (handler host env req) s := by
    refine Safe.tryCatch respond_safe fun e _ => ?_
    split <;> exact .quiet trivial
  exact hsafe res s' h (by simp [Handling.Only, hs]) _ hc hn

end

theorem clocked_of_reply {o : Statement} {r : o.Reply} (h : o.reply now amb db = .ok r) (hc : clock amb.dateNow) :
    clocked clock now o db r := by
  cases o
  case dateNow =>
    cases h
    exact hc
  all_goals trivial

namespace Sample

def post : IncomingMessage where
  method  := "POST"
  url     := "/api/executions/e/approval"
  headers := headers
  body    := ⟨[approval.toList.map fun c => c.toNat.toUInt8], none⟩

def before : Handling where
  toGlobal := Logon.Sample.waiting
  changes  := []

def after (db' : Db) : Handling where
  toGlobal := (Call.decideApproval Logon.Sample.decision).commitTo 0 ⟨some Logon.Sample.decision, none⟩ 0 db' before.toGlobal
  changes  := [(before.db, db')]

-- The request to approve the gated execution is granted.
theorem post_runs : ∃ res s' db', (handler host env post).Runs (serving (· ≤ 5)) before res s' ∧
    (before.db, db') ∈ s'.changes ∧ db' ≠ before.db := by
  have ⟨res, db', hr⟩ := @Tx.exists_alone (fun _ => Generated 5) 0 _
    (PostgresExecutionService.decideApproval Logon.Sample.decision) (exists_generated 5) before.db
  have hw := Logon.Sample.waiting_awaits (.iso 1)
  have ⟨_, _, ho, _⟩ := hw
  obtain ⟨_, rfl, rfl, u, hu, hd⟩ := PostgresExecutionService.decideApproval_awaited hr ho
    Logon.Sample.waiting_constraints hw Logon.Sample.decision_storable rfl
  have hr : (Call.decideApproval Logon.Sample.decision).body.Runs ((clocked (· ≤ 5)).sem 0) before.db
      (.ok ⟨some Logon.Sample.decision, none⟩) db' := by
    refine Runs.mono ?_ ?_ hr
    · rintro o db r _ ⟨⟨amb, ha, hr⟩, _, rfl⟩
      exact ⟨⟨Statement.told_of_reply hr, clocked_of_reply hr (le_of_eq ha.dateNow)⟩, rfl⟩
    · exact fun o db e ⟨_, _, hr⟩ => Statement.reply_error hr
  refine ⟨.ok (sendJson 200 (decisionJson Logon.Sample.decision)), after db', db', ?_, List.mem_singleton_self _, ?_⟩
  · have hl : before.Later before := ⟨.refl _, rfl⟩
    have h₁ : (serving (· ≤ 5)).step (.query (.selectOwnership "a" "e" "t")) before (.ok ["e"]) before :=
      ⟨_, hl, @Performs.rows _ before _ ⟨fun _ => inferInstance, inferInstance⟩ .empty .empty⟩
    have h₂ : (serving (· ≤ 5)).step .dateNow before 1 before :=
      ⟨_, hl, .dateNow (by decide)⟩
    have h₃ : (serving (· ≤ 5)).step (.service (.inl (.decideApproval Logon.Sample.decision))) before
        (.ok ⟨some Logon.Sample.decision, none⟩) (after db') :=
      ⟨_, hl, .service (.commit trivial (by decide) hr)⟩
    unfold handler
    change Runs _ (@op web WebError _ (.query (.selectOwnership "a" "e" "t")) _) _ _ _
    refine Runs.op h₁ (Runs.op h₂ (Runs.op h₃ ?_))
    exact ⟨rfl, rfl⟩
  · intro he
    have hn : db'.audit.find u = none := he ▸ hu
    rw [hd] at hn
    exact absurd hn <| by simp [Db.decided, Db.applied, Table.find_insert]

end Sample

theorem writes_are_mediated_post :
    ∃ db', db' ≠ Sample.before.db ∧ Mediated Sample.host Sample.env Sample.post (· ≤ 5) Sample.before.db db' := by
  obtain ⟨res, s', db', h, hc, hn⟩ := Sample.post_runs
  have hm := writes_are_mediated h rfl hc hn
  exact ⟨db', hn, hm⟩

end Logon.ControlPlane
