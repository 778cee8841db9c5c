import Logon.Library.Replies
import Logon.Mediation
import Logon.Responses
import Logon.Sessions

-- The status of a response tells what the request has done.

namespace Logon

open Program PostgresExecutionService

-- Results that do not say that an approval has expired.
def InTime : Except KernelError α → Prop
  | .error (.approvalExpired _) => False
  | _                           => True

theorem inTime_error {e : KernelError} (h : ∀ a, e ≠ .approvalExpired a) : InTime (.error e : Except KernelError α) := by
  cases e
  case approvalExpired a => exact absurd rfl (h a)
  all_goals trivial

abbrev RunsInTime (p : Tx α) : Prop :=
  p.Yields (fun _ _ => True) InTime

section
variable {p : Tx α} {f : α → Tx β}

theorem RunsInTime.bind (h : RunsInTime p) (hf : ∀ a, RunsInTime (f a)) : RunsInTime (p.bind f) := by
  refine Yields.bind h (fun a _ => hf a) fun e he => ?_
  cases e <;> exact he

theorem query_inTime {o : Statement} {f : o.Reply → Tx α} (hf : ∀ r, RunsInTime (f r)) : RunsInTime ((query o).bind f) :=
  fun r _ => hf r

theorem newDate_inTime {f : Timestamp → Tx α} (hf : ∀ t, RunsInTime (f t)) : RunsInTime (newDate.bind f) :=
  fun _ _ => hf _

theorem lockExecution_inTime (e : String) : RunsInTime (PgExecutionStore.lockExecution e) := by
  refine query_inTime fun r => ?_
  cases r <;> trivial

theorem appendEvent_inTime (event : ExecutionEvent) : RunsInTime (PgExecutionStore.appendEvent event) := by
  refine query_inTime fun r => ?_
  trivial

theorem lookupTenant_inTime (e : String) : RunsInTime (lookupTenant e) := by
  refine query_inTime fun r => ?_
  cases r <;> trivial

end

theorem rejectExpiredExecution_inTime (e a actor : String) : RunsInTime (rejectExpiredExecution e a actor) := by
  refine RunsInTime.bind (query_inTime fun _ => trivial) fun _ => newDate_inTime fun _ => ?_
  refine RunsInTime.bind (query_inTime fun _ => trivial) fun _ => ?_
  refine RunsInTime.bind (appendEvent_inTime _) fun _ => (lookupTenant_inTime e).bind fun _ => ?_
  exact query_inTime fun _ => query_inTime fun _ => trivial

theorem applyDecision_inTime (decision : ApprovalDecision) (status : ApprovalDecisionStatus) (current : ExecutionStatus) :
    RunsInTime (applyDecision decision status current) := by
  have ht : RunsInTime (assertTransition current (nextStatus status)) := by
    rw [assertTransition]
    split <;> trivial
  have hd : RunsInTime (dispatchApproved decision.executionId status) := by
    rw [dispatchApproved]
    split
    · exact query_inTime fun _ => trivial
    · trivial
  refine ht.bind fun _ => RunsInTime.bind (query_inTime fun _ => trivial) fun _ => ?_
  refine RunsInTime.bind (query_inTime fun _ => trivial) fun _ => (appendEvent_inTime _).bind fun _ => ?_
  refine hd.bind fun _ => (lookupTenant_inTime _).bind fun _ => ?_
  exact query_inTime fun _ => query_inTime fun _ => trivial

-- An approval that has expired is no error of the transaction, which has to commit.
theorem decideApproval_inTime (decision : ApprovalDecision) : RunsInTime (decideApproval decision) := by
  refine (lockExecution_inTime _).bind fun current => ?_
  split
  case isTrue => trivial
  case isFalse =>
    refine RunsInTime.bind ?_ fun status => ?_
    · refine Yields.tryCatch (Q := fun _ => True) (.of_forall fun _ => trivial) (fun _ _ => trivial) fun e _ => ?_
      split
      case h_1 => exact (rejectExpiredExecution_inTime _ _ _).bind fun _ => trivial
      case h_2 hn => exact inTime_error hn
    · cases status
      case none   => trivial
      case some s => exact applyDecision_inTime _ _ _


theorem Audit.ne {P : Premise} {now : Time} {db db₁ db' : Db} (h : Audit P now db₁ e t action actor allowed reason db')
    (ha : db₁.audit = db.audit) : db' ≠ db := by
  rintro rfl
  cases h
  case mk u _ _ _ _ hn =>
    rw [ha] at hn
    simp [Db.addAudit, Table.find_insert] at hn

theorem Decide.outcomes {P : Premise} {now : Time} {decision : ApprovalDecision} {db db' : Db} {r : DecideApprovalOutcome}
    (h : Decide P now decision db r db') :
    r = ⟨some decision, none⟩ ∨ r = ⟨none, some (.approvalExpired decision.approvalId)⟩ := by
  cases h
  case expired => exact .inr rfl
  case decided => exact .inl rfl

-- Whatever comes out of a decision about an open approval, there is a record of it.
theorem Decide.ne {P : Premise} {now : Time} {decision : ApprovalDecision} {db db' : Db}
    (h : Decide P now decision db outcome db') : db' ≠ db := by
  cases h
  case expired hr =>
    cases hr
    case mk hv hu =>
      cases hv
      exact hu.ne rfl
  case decided hd hv hs hu =>
    subst hd
    cases hv
    obtain ⟨-, rfl⟩ | ⟨-, -, rfl⟩ | ⟨-, -, rfl⟩ := hs
    all_goals exact hu.ne rfl

namespace ControlPlane

open System

variable {host : HttpHost} {env : ProcessEnv} {req : IncomingMessage} {clock : Time → Prop} {s s' : Handling}

-- Responses that tell of a change.
def Response.Confirms (req : IncomingMessage) (response : Response) : Prop :=
  response.status = 409 ∨ response.status = 200 ∧ req.method = some "POST"

-- What a response tells about a decision of which it tells.
inductive Reports (clock : Time → Prop) (decision : ApprovalDecision) (db db' : Db) : Response → Prop
  | decided {now} :
    Decide (clocked clock) now decision db ⟨some decision, none⟩ db' →
    Reports clock decision db db' (sendJson 200 (decisionJson decision))
  | expired {now} :
    Decide (clocked clock) now decision db ⟨none, some (.approvalExpired decision.approvalId)⟩ db' →
    Reports clock decision db db' (sendJson 409 (errorJson (KernelError.approvalExpired decision.approvalId).message))

-- Results that confirm nothing. Those that are no errors are of a kind.
def Bare (P : α → Prop) : Except WebError α → Prop
  | .ok a                       => P a
  | .error (.http statusCode _) => statusCode ≠ 200 ∧ statusCode ≠ 409
  | .error _                    => True

theorem Bare.bind {R : β → Prop} {res : Except WebError α} {f : α → Except WebError β} (h : Bare (fun _ => True) res)
    (hf : ∀ a, Bare R (f a)) : Bare R (res >>= f) := by
  cases res
  case ok a    => exact hf a
  case error e => cases e <;> exact h

theorem requireValue_bare (value : Option String) (message : String) : Bare (fun _ => True) (requireValue value message) := by
  rw [requireValue]
  split <;> trivial

-- Programs that change nothing, and confirm nothing.
structure Discreet (P : α → Prop) (p : Web α) : Prop where
  quiet : p.Uses Quiet
  bare  : p.Yields (fun _ _ => True) (Bare P)

namespace Discreet

variable {P : α → Prop} {R : β → Prop} {p : Web α} {f : α → Web β} {res : Except WebError α}

theorem bind (h : Discreet (fun _ => True) p) (hf : ∀ a, Discreet R (f a)) : Discreet R (p.bind f) where
  quiet := h.quiet.bind fun a => (hf a).quiet
  bare  := by
    refine Yields.bind h.bare (fun a _ => (hf a).bare) fun e he => ?_
    cases e <;> exact he

theorem ofExcept (h : Bare P res) : Discreet P (.ofExcept res) :=
  ⟨.ofExcept _, .ofExcept h⟩

theorem pool (q : Query) : Discreet (fun _ => True) (pool q) :=
  ⟨pool_quiet q, fun r _ => Yields.ofExcept <| by cases r <;> trivial⟩

theorem requireRole (principal : ControlPlanePrincipal) (permission : ControlPlanePermission) :
    Discreet (fun _ => True) (.ofExcept (requireRole principal permission)) := by
  apply ofExcept
  cases permission
  case read    => cases h : canReadControlPlane principal <;> simp [ControlPlane.requireRole, h, Bare]
  case approve => cases h : canDecideApproval principal <;> simp [ControlPlane.requireRole, h, Bare]

theorem resolvePrincipal (host : HttpHost) (headers : IncomingHttpHeaders) (env : ProcessEnv) :
    Discreet (fun _ => True) (.ofExcept (resolvePrincipal host headers env)) := by
  apply ofExcept
  rw [ControlPlane.resolvePrincipal]
  split
  case isTrue  => exact (requireValue_bare ..).bind fun _ => trivial
  case isFalse =>
    split
    case isTrue  => trivial
    case isFalse => exact (requireValue_bare ..).bind fun _ => (requireValue_bare ..).bind fun _ => trivial

theorem executionIdFrom (host : HttpHost) (pathname : String) :
    Discreet (fun _ => True) (.ofExcept (executionIdFrom host pathname)) := by
  apply ofExcept
  rw [ControlPlane.executionIdFrom]
  split
  case h_1 => trivial
  case h_2 => split <;> trivial

theorem readJson (host : HttpHost) (body : Body) : Discreet (fun _ => True) (.ofExcept (readJson host body)) := by
  apply ofExcept
  rw [readJson_eq]
  split
  case isTrue  => exact ⟨by decide, by decide⟩
  case isFalse =>
    split
    case h_2 => trivial
    case h_1 =>
      obtain ⟨_, hp⟩ | ⟨_, _, _, hp⟩ | ⟨_, _, _, hp⟩ := parsed_cases host (host.utf8 body.chunks.flatten)
      · exact hp ▸ trivial
      · exact hp ▸ trivial
      · exact hp ▸ ⟨by decide, by decide⟩

theorem listExecutions (t : String) : Discreet (fun _ => True) (listExecutions t) :=
  (pool _).bind fun _ => ⟨trivial, trivial⟩

theorem getExecution (t e : String) : Discreet (fun _ => True) (getExecution t e) := by
  refine (pool _).bind fun rows => ?_
  cases rows
  case nil  => exact ⟨trivial, by decide, by decide⟩
  case cons =>
    refine (pool _).bind fun _ => (pool _).bind fun _ => (pool _).bind fun _ => ?_
    exact (pool _).bind fun _ => (pool _).bind fun _ => (pool _).bind fun _ => ⟨trivial, trivial⟩

theorem dateNow : Discreet (fun _ => True) (@Program.perform web WebError .dateNow) :=
  ⟨⟨trivial, fun _ => trivial⟩, fun _ _ => trivial⟩

end Discreet

-- The response to what the handling of a request comes to.
def answer : Except WebError Response → Response
  | .ok response                          => response
  | .error (.http statusCode message)     => sendJson statusCode (errorJson message)
  | .error (.principalResolution message) => sendJson 401 (errorJson message)
  | .error (.authorization message)       => sendJson 403 (errorJson message)
  | .error _                              => sendJson 500 (errorJson "Internal server error")

theorem handler_runs {res : Except WebError Response} (h : (handler host env req).Runs (serving clock) s res s') :
    ∃ r, (respond host env req).Runs (serving clock) s r s' ∧ res = .ok (answer r) := by
  obtain ⟨a, rfl, ha⟩ | ⟨e, s₁, he, h⟩ | ⟨_, _, _, _, _, hf⟩ := h.tryCatch_cases
  case inl     => exact ⟨_, ha, rfl⟩
  case inr.inr => exact hf.elim
  case inr.inl =>
    cases e
    all_goals
      obtain ⟨rfl, rfl⟩ := h
      exact ⟨_, he, rfl⟩

-- What the service does with a decision, and what it returns.
theorem serve_serving {decision : ApprovalDecision} {res : Except WebError ApprovalDecision}
    (h : (serve (Process.decideApproval decision)).Runs (serving clock) s res s') (hs : s.changes = []) :
    (∃ error db, res = .error (.kernel error) ∧ (∀ a, error ≠ .approvalExpired a) ∧ s'.changes = [(db, db)]) ∨
    ∃ db db' now, s'.changes = [(db, db')] ∧
      (Decide (clocked clock) now decision db ⟨some decision, none⟩ db' ∧ res = .ok decision ∨
        Decide (clocked clock) now decision db ⟨none, some (.approvalExpired decision.approvalId)⟩ db' ∧
          res = .error (.kernel (.approvalExpired decision.approvalId))) := by
  obtain ⟨r, s₁, ⟨s₂, hl, hp⟩, h⟩ | ⟨_, hf, _⟩ := h
  case inr => exact hf.elim
  case inl =>
    have hs₂ : s₂.changes = [] := hl.changes.trans hs
    cases hp
    case service pid g hd =>
      cases hd
      case commit now db' outcome _ _ hr =>
        have hr : (Call.decideApproval decision).body.Runs ((clocked clock).sem now) s₂.db (.ok outcome) db' := hr
        have hc : Decide (clocked clock) now decision s₂.db outcome db' := Call.commits _ hr
        have hx : s₂.changes ++ [(s₂.db, db')] = [(s₂.db, db')] := by rw [hs₂]; rfl
        obtain rfl | rfl := hc.outcomes
        · obtain ⟨rfl, rfl⟩ := h
          exact .inr ⟨s₂.db, db', now, hx, .inl ⟨hc, rfl⟩⟩
        · obtain ⟨rfl, rfl⟩ := h
          exact .inr ⟨s₂.db, db', now, hx, .inr ⟨hc, rfl⟩⟩
      case throw error now db' _ hr =>
        obtain ⟨rfl, rfl⟩ := h
        refine .inl ⟨error, s₂.db, rfl, ?_, by rw [hs₂]; rfl⟩
        rintro a rfl
        obtain h | ⟨_, _, hf⟩ := Yields.throws (decideApproval_inTime decision) hr
        · exact h
        · cases hf
      case fault error hf =>
        obtain ⟨rfl, rfl⟩ := h
        refine .inl ⟨error, s₂.db, rfl, ?_, by rw [hs₂]; rfl⟩
        rintro a rfl
        cases hf

-- What a program that is discreet has done.
theorem Discreet.runs {P : α → Prop} {p : Web α} {res : Except WebError α} (hp : Discreet P p)
    (h : p.Runs (serving clock) s res s') (hs : s.changes = []) : Bare P res ∧ s'.changes = [] := by
  constructor
  case left  => exact Yields.result hp.bare (fun _ _ _ _ _ => trivial) (fun _ _ _ => id) h
  case right =>
    refine h.keeps hp.quiet (P := fun s => s.changes = []) ?_ hs
    rintro o s r s' ho ⟨s₁, hl, hd⟩ hs
    cases hd
    case service => exact ho.elim
    all_goals exact hl.changes.trans hs

-- What a result, and the changes made meanwhile, are if nothing has been done.
def Undone (P : α → Prop) (res : Except WebError α) (changes : List (Db × Db)) : Prop :=
  Bare P res ∧ ∀ c ∈ changes, c.snd = c.fst

theorem Undone.map {P : β → Prop} {f : α → β} {res : Except WebError α} {changes : List (Db × Db)}
    (h : Undone (fun _ => False) res changes) : Undone P (res.map f) changes := by
  have ⟨hb, hn⟩ := h
  refine ⟨?_, hn⟩
  cases res
  case ok          => exact hb.elim
  case error error => cases error <;> exact hb

theorem Discreet.undone {P : α → Prop} {p : Web α} {res : Except WebError α} (hp : Discreet P p)
    (h : p.Runs (serving clock) s res s') (hs : s.changes = []) : Undone P res s'.changes := by
  have ⟨hb, hn⟩ := hp.runs h hs
  exact ⟨hb, hn ▸ List.forall_mem_nil _⟩

-- Either nothing has been done because a discreet program has thrown, or it is yet to come.
theorem Discreet.runs_bind {P : α → Prop} {R : β → Prop} {p : Web α} {f : α → Web β} {res : Except WebError β}
    (hp : Discreet P p) (h : (p.bind f).Runs (serving clock) s res s') (hs : s.changes = []) :
    Undone R res s'.changes ∨
    ∃ a s₁, p.Runs (serving clock) s (.ok a) s₁ ∧ s₁.changes = [] ∧ (f a).Runs (serving clock) s₁ res s' := by
  obtain ⟨a, s₁, ha, h⟩ | ⟨e, rfl, he⟩ := Program.runs_bind h
  case inl => exact .inr ⟨a, s₁, ha, (hp.runs ha hs).right, h⟩
  case inr =>
    have ⟨hb, hn⟩ := hp.undone he hs
    refine .inl ⟨?_, hn⟩
    cases e <;> exact hb

-- What the API makes of a decision
theorem decideApproval_serving {principal : ControlPlanePrincipal} {body : List (String × Json)} {res : Except WebError Json}
    (h : (decideApproval principal e body).Runs (serving clock) s res s') (hs : s.changes = []) :
    Undone (fun _ => False) res s'.changes ∨
    ∃ decision db db', Asks principal e body decision ∧ requireRole principal .approve = .ok () ∧
      s'.changes = [(db, db')] ∧ Reports clock decision db db' (answer (res.map (sendJson 200))) := by
  obtain hu | ⟨_, s₁, hr, h₁, hb⟩ := (Discreet.requireRole principal .approve).runs_bind h hs
  · exact .inl hu
  obtain ⟨hr, -⟩ := runs_ofExcept.mp hr
  have hn : ∀ c ∈ s₁.changes, c.snd = c.fst := h₁ ▸ List.forall_mem_nil _
  dsimp only at hb
  cases hst : decisionStatus body
  case none =>
    rw [hst] at hb
    obtain ⟨rfl, rfl⟩ := hb
    exact .inl ⟨⟨by decide, by decide⟩, hn⟩
  case some status =>
    rw [hst] at hb
    dsimp only at hb
    split at hb
    case isTrue =>
      obtain ⟨rfl, rfl⟩ := hb
      exact .inl ⟨⟨by decide, by decide⟩, hn⟩
    case isFalse ha =>
      obtain hu | ⟨rows, s₂, _, h₂, hb⟩ := (Discreet.pool _).runs_bind hb h₁
      · exact .inl hu
      split at hb
      case isTrue =>
        obtain ⟨rfl, rfl⟩ := hb
        exact .inl ⟨⟨by decide, by decide⟩, h₂ ▸ List.forall_mem_nil _⟩
      case isFalse =>
        obtain hu | ⟨now, s₃, _, h₃, hb⟩ := Discreet.dateNow.runs_bind hb h₂
        · exact .inl hu
        have hm : stringMember body "approvalId" = some ((stringMember body "approvalId").getD "") := by
          cases hm : stringMember body "approvalId"
          case none => simp [hm] at ha
          case some => rfl
        obtain ⟨_, rfl, hd⟩ | ⟨_, s₄, hd, hc⟩ | ⟨_, _, _, _, _, hf⟩ := hb.tryCatch_cases
        case inr.inr => exact hf.elim
        case inl =>
          obtain ⟨decided, _, hv, hj, rfl⟩ := runs_bind_ok.mp hd
          cases hj
          obtain ⟨_, _, he, _⟩ | ⟨db, db', now, hx, ⟨ho, he⟩ | ⟨_, he⟩⟩ := serve_serving hv h₃
          case inl     => cases he
          case inr.inr => cases he
          cases he
          exact .inr ⟨_, db, db', ⟨hm, rfl, hst, rfl⟩, hr.symm, hx, .decided ho⟩
        case inr.inl =>
          obtain hv | ⟨_, _, _, hj⟩ := runs_bind_error.mp hd
          case inr => cases hj.left
          obtain ⟨error, db, he, hn, hx⟩ | ⟨db, db', now, hx, ⟨_, he⟩ | ⟨ho, he⟩⟩ := serve_serving hv h₃
          case inr.inl => cases he
          case inl =>
            cases he
            split at hc
            case h_1 he =>
              cases he
              exact absurd rfl (hn _)
            case h_2 =>
              obtain ⟨rfl, rfl⟩ := hc
              exact .inl ⟨⟨by decide, by decide⟩, by simp [hx]⟩
          case inr.inr =>
            cases he
            obtain ⟨rfl, rfl⟩ := hc
            exact .inr ⟨_, db, db', ⟨hm, rfl, hst, rfl⟩, hr.symm, hx, .expired ho⟩

-- What the response to a request, and the changes made meanwhile, say about a decision that has come about.
structure Heard (host : HttpHost) (env : ProcessEnv) (req : IncomingMessage) (clock : Time → Prop)
    (principal : ControlPlanePrincipal) (e : String) (body : List (String × Json)) (decision : ApprovalDecision)
    (db db' : Db) (response : Response) : Prop where
  entitled : Entitled host env req principal e decision.approvalId
  received : readJson host req.body = .ok body
  asks     : Asks principal e body decision
  reports  : Reports clock decision db db' response

theorem runs_map {p : Web α} {f : α → β} {res : Except WebError β}
    (h : (p.bind fun a => Program.pure (f a)).Runs (serving clock) s res s') :
    ∃ r, p.Runs (serving clock) s r s' ∧ res = r.map f := by
  obtain ⟨a, _, ha, rfl, rfl⟩ | ⟨e, rfl, he⟩ := Program.runs_bind h
  · exact ⟨.ok a, ha, rfl⟩
  · exact ⟨.error e, he, rfl⟩

-- A response to a request that only reads
theorem Discreet.read (hm : req.method = some "GET") (body : Json) :
    Discreet (¬·.Confirms req) (Program.pure (sendJson 200 body)) := by
  have hn : ¬(sendJson 200 body).Confirms req := by simp [Response.Confirms, sendJson, hm]
  exact ⟨trivial, hn⟩

-- A response to a request that is refused
theorem Discreet.refuse {statusCode : Nat} (hc : statusCode ≠ 200 ∧ statusCode ≠ 409) (body : Json) :
    Discreet (¬·.Confirms req) (Program.pure (sendJson statusCode body)) := by
  have hn : ¬(sendJson statusCode body).Confirms req := by simp [Response.Confirms, sendJson, hc]
  exact ⟨trivial, hn⟩

theorem respond_serving {res : Except WebError Response} (h : (respond host env req).Runs (serving clock) s res s')
    (hs : s.changes = []) : Undone (¬·.Confirms req) res s'.changes ∨
    ∃ principal e body decision db db', s'.changes = [(db, db')] ∧
      Heard host env req clock principal e body decision db db' (answer res) := by
  unfold respond at h
  split at h
  case h_1 =>
    obtain ⟨rfl, rfl⟩ := h
    exact .inl ⟨trivial, hs ▸ List.forall_mem_nil _⟩
  case h_2 pathname hu =>
    split at h
    case isTrue hr  => exact .inl <| ((Discreet.pool _).bind fun _ => .read hr.left _).undone h hs
    case isFalse =>
      split at h
      case isTrue  => exact .inl <| (Discreet.refuse (by decide) _).undone h hs
      case isFalse =>
        obtain hd | ⟨principal, s₁, hp, h₁, hb⟩ := (Discreet.resolvePrincipal ..).runs_bind h hs
        · exact .inl hd
        obtain ⟨hp, -⟩ := runs_ofExcept.mp hp
        split at hb
        case isTrue hr => exact .inl <| ((Discreet.requireRole ..).bind fun _ => .read hr.left _).undone hb h₁
        case isFalse =>
          split at hb
          case isTrue hr =>
            refine .inl <| Discreet.undone ?_ hb h₁
            exact (Discreet.requireRole ..).bind fun _ => (Discreet.listExecutions _).bind fun _ => .read hr.left _
          case isFalse =>
            obtain hd | ⟨found, s₂, _, h₂, hb⟩ := (Discreet.executionIdFrom ..).runs_bind hb h₁
            · exact .inl hd
            split at hb
            case h_1 => exact .inl <| (Discreet.refuse (by decide) _).undone hb h₂
            case h_2 e _ =>
              dsimp only at hb
              split at hb
              case isTrue hr =>
                refine .inl <| Discreet.undone ?_ hb h₂
                exact (Discreet.requireRole ..).bind fun _ => (Discreet.getExecution ..).bind fun _ => .read hr.left _
              case isFalse =>
                split at hb
                case isFalse   => exact .inl <| (Discreet.refuse (by decide) _).undone hb h₂
                case isTrue hr =>
                  have ⟨hm, hpath⟩ := hr
                  obtain hd | ⟨body, s₃, hj, h₃, hc⟩ := (Discreet.readJson ..).runs_bind hb h₂
                  · exact .inl hd
                  obtain ⟨hj, -⟩ := runs_ofExcept.mp hj
                  obtain ⟨r, hd, rfl⟩ := runs_map hc
                  obtain hd | ⟨decision, db, db', ha, hr, hx, ho⟩ := decideApproval_serving hd h₃
                  case inl => exact .inl hd.map
                  case inr =>
                    have he : Entitled host env req principal e decision.approvalId :=
                      ⟨hm, hpath ▸ hu, hp.symm, requireRole_approve.mp hr, body, hj.symm, ha.approvalId⟩
                    exact .inr ⟨principal, e, body, decision, db, db', hx, he, hj.symm, ha, ho⟩

theorem Undone.not_confirms {res : Except WebError Response} {changes : List (Db × Db)}
    (h : Undone (¬·.Confirms req) res changes) : ¬(answer res).Confirms req := by
  have hb := h.left
  cases res
  case ok    => exact hb
  case error error =>
    cases error
    case http =>
      rintro (hc | hc)
      · exact hb.right hc
      · exact hb.left hc.left
    all_goals simp [answer, Response.Confirms, sendJson]

theorem Reports.ne {decision : ApprovalDecision} {response : Response} (h : Reports clock decision db db' response) :
    db' ≠ db := by
  cases h
  case decided hd => exact hd.ne
  case expired hd => exact hd.ne

theorem Heard.confirms {principal : ControlPlanePrincipal} {body : List (String × Json)} {decision : ApprovalDecision}
    {response : Response} (h : Heard host env req clock principal e body decision db db' response) :
    response.Confirms req := by
  have hr := h.reports
  cases hr
  case decided => exact .inr ⟨rfl, h.entitled.method⟩
  case expired => exact .inl rfl

-- Exactly the responses that confirm a decision, or say that it came too late, come from requests that have changed
-- something: that which they tell, once.
theorem statuses_tell {res : Except WebError Response} (h : (handler host env req).Runs (serving clock) s res s')
    (hs : s.changes = []) : ∃ response, res = .ok response ∧
      ((∃ c ∈ s'.changes, c.snd ≠ c.fst) ↔ response.Confirms req) ∧
      (response.Confirms req → ∃ principal e body decision db db', s'.changes = [(db, db')] ∧
        Heard host env req clock principal e body decision db db' response) := by
  obtain ⟨r, hr, rfl⟩ := handler_runs h
  refine ⟨_, rfl, ?_⟩
  obtain hu | ⟨principal, e, body, decision, db, db', hx, hh⟩ := respond_serving hr hs
  case inl =>
    have hn := hu.not_confirms
    exact ⟨iff_of_false (fun ⟨c, hc, hne⟩ => hne <| hu.right c hc) hn, fun hc => absurd hc hn⟩
  case inr =>
    refine ⟨iff_of_true ⟨(db, db'), hx ▸ List.mem_singleton_self _, hh.reports.ne⟩ hh.confirms, fun _ => ?_⟩
    exact ⟨principal, e, body, decision, db, db', hx, hh⟩

theorem statuses_tell_post :
    ∃ response db', db' ≠ Sample.before.db ∧ response.Confirms Sample.post ∧ ∃ principal e body decision db,
      Heard Sample.host Sample.env Sample.post (· ≤ 5) principal e body decision db db' response := by
  obtain ⟨res, s', db', h, hm, hn⟩ := Sample.post_runs
  obtain ⟨response, -, hc, hh⟩ := statuses_tell h rfl
  have hc : response.Confirms Sample.post := hc.mp ⟨_, hm, hn⟩
  obtain ⟨principal, e, body, decision, db, db₁, hx, hh⟩ := hh hc
  cases List.mem_singleton.mp <| hx ▸ hm
  exact ⟨response, db', hn, hc, principal, e, body, decision, _, hh⟩

end ControlPlane
end Logon
