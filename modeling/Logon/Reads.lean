import Logon.Routing

-- What the API answers to a tenant depends on the rows of this tenant only.

namespace Logon.ControlPlane

open Program

-- What decides the answers that a database leaves open, and those that it does not give.
structure Circumstances where
  order  : RowOrder
  outage : Query → Option String
  now    : Time
  served : (o : platform.outer.Op) → platform.outer.Reply o

def Circumstances.answer (c : Circumstances) (db : ControlDb) : (o : WebOp) → o.Reply
  | .dateNow   => c.now
  | .service o => c.served o
  | .query q   =>
    match c.outage q with
    | none      => .ok (q.rows c.order db)
    | some text => .error text

-- The response to a request.
def handle (host : HttpHost) (env : ProcessEnv) (c : Circumstances) (req : IncomingMessage) (db : ControlDb) :
    Except WebError Response :=
  (handler host env req).eval (c.answer db)

section
variable {host : HttpHost} {env : ProcessEnv} {c : Circumstances} {db db' : ControlDb}

theorem eval_pool (answer : (o : WebOp) → o.Reply) (q : Query) :
    (pool q).eval answer = (answer (.query q)).mapError WebError.other :=
  eval_ofExcept _

theorem eval_pool_congr {q : Query} (h : db.SameFor t db') (hq : q.Within t db) :
    (pool q).eval (c.answer db) = (pool q).eval (c.answer db') := by
  rw [eval_pool, eval_pool, Circumstances.answer, Circumstances.answer, Query.rows_congr h hq]

theorem listExecutions_congr (h : db.SameFor t db') :
    (listExecutions t).eval (c.answer db) = (listExecutions t).eval (c.answer db') :=
  eval_bind_congr (eval_pool_congr h rfl) fun _ _ => rfl

-- An execution that is found is one of the tenant.
theorem owns_of_selectExecution (h : (pool (.selectExecution e t)).eval (c.answer db) = .ok (row :: rows)) :
    db.Owns t e := by
  rw [eval_pool, Circumstances.answer] at h
  split at h
  case h_2 => cases h
  case h_1 =>
    have hr : row ∈ (Query.selectExecution e t).rows c.order db := by
      rw [Except.ok.inj h]
      exact List.mem_cons_self
    have ⟨hf, ht⟩ := Option.filter_eq_some_iff.mp <| Option.mem_toList.mp hr
    exact ⟨row, hf, by simpa using ht⟩

theorem getExecution_congr (h : db.SameFor t db') :
    (getExecution t e).eval (c.answer db) = (getExecution t e).eval (c.answer db') := by
  refine eval_bind_congr (eval_pool_congr h rfl) fun rows hr => ?_
  cases rows
  case nil            => rfl
  case cons execution =>
    have ho := owns_of_selectExecution hr
    refine eval_bind_congr (eval_pool_congr h ho) fun _ _ => ?_
    refine eval_bind_congr (eval_pool_congr h rfl) fun _ _ => ?_
    refine eval_bind_congr (eval_pool_congr h rfl) fun _ _ => ?_
    refine eval_bind_congr (eval_pool_congr h rfl) fun _ _ => ?_
    refine eval_bind_congr (eval_pool_congr h ho) fun _ _ => ?_
    exact eval_bind_congr (eval_pool_congr h rfl) fun _ _ => rfl

theorem respond_congr {req : IncomingMessage} (hm : req.method = some "GET")
    (h : ∀ principal, resolvePrincipal host req.headers env = .ok principal → db.SameFor principal.tenantId db') :
    (respond host env req).eval (c.answer db) = (respond host env req).eval (c.answer db') := by
  unfold respond
  split
  case h_1 => rfl
  case h_2 pathname _ =>
    split
    case isTrue =>
      refine eval_bind_congr ?_ fun _ _ => rfl
      rw [eval_pool, eval_pool]
      rfl
    case isFalse =>
      split
      case isTrue  => rfl
      case isFalse =>
        refine eval_ofExcept_congr fun principal hp => ?_
        have h := h principal hp
        split
        case isTrue  => exact eval_ofExcept_congr fun _ _ => rfl
        case isFalse =>
          split
          case isTrue  =>
            refine eval_ofExcept_congr fun _ _ => ?_
            exact eval_bind_congr (listExecutions_congr h) fun _ _ => rfl
          case isFalse =>
            refine eval_ofExcept_congr fun e _ => ?_
            split
            case h_1 => rfl
            case h_2 =>
              simp only [hm]
              split
              case isTrue  =>
                refine eval_ofExcept_congr fun _ _ => ?_
                exact eval_bind_congr (getExecution_congr h) fun _ _ => rfl
              case isFalse => rfl

-- A request about an execution.
structure Names (host : HttpHost) (req : IncomingMessage) (e : String) : Prop where
  pathname    : host.pathname (req.url.getD "/") = some ("/api/executions/" ++ host.encodeURIComponent e)
  executionId : executionIdFrom host ("/api/executions/" ++ host.encodeURIComponent e) = .ok (some e)
  nonempty    : e ≠ ""

theorem getExecution_unowned (ho : ¬db.Owns t e) (hc : c.outage (.selectExecution e t) = none) :
    (getExecution t e).eval (c.answer db) = .error (.http 404 "Execution not found") := by
  have hr : (pool (.selectExecution e t)).eval (c.answer db) = .ok ((Query.selectExecution e t).rows c.order db) := by
    rw [eval_pool, Circumstances.answer, hc]
    rfl
  cases hs : (Query.selectExecution e t).rows c.order db
  case cons => exact absurd (owns_of_selectExecution <| hs ▸ hr) ho
  case nil  =>
    rw [hs] at hr
    simp only [getExecution, bind_def, eval_bind, hr]
    rfl

theorem unowned_not_found {req : IncomingMessage} (hm : req.method = some "GET") (hn : Names host req e)
    (hp : resolvePrincipal host req.headers env = .ok principal) (ho : ¬db.Owns principal.tenantId e)
    (hc : c.outage (.selectExecution e principal.tenantId) = none) :
    handle host env c req db = .ok (sendJson 404 (errorJson "Execution not found")) := by
  have hr : (respond host env req).eval (c.answer db) = .error (.http 404 "Execution not found") := by
    have ⟨segment, hs, hd⟩ := executionIdFrom_eq_some.mp hn.executionId
    rw [respond_about hn.pathname hp hs, hd]
    dsimp only
    rw [respondAbout, if_neg hn.nonempty, if_pos ⟨hm, rfl⟩, resolvePrincipal_canRead hp]
    simp only [bind_def, ofExcept_ok, pure_bind, eval_bind, getExecution_unowned ho hc]
    rfl
  rw [handle, handler, eval_tryCatch, hr]
  rfl

theorem reads_are_isolated {req : IncomingMessage} (hm : req.method = some "GET")
    (h : ∀ principal, resolvePrincipal host req.headers env = .ok principal → db.SameFor principal.tenantId db') :
    handle host env c req db = handle host env c req db' ∧
    ∀ principal e, resolvePrincipal host req.headers env = .ok principal → Names host req e →
      ¬db.Owns principal.tenantId e → c.outage (.selectExecution e principal.tenantId) = none →
      handle host env c req db = .ok (sendJson 404 (errorJson "Execution not found")) := by
  constructor
  case right => exact fun _ _ hp hn ho hc => unowned_not_found hm hn hp ho hc
  case left  =>
    rw [handle, handle, handler, eval_tryCatch, eval_tryCatch, respond_congr hm h]
    cases (respond host env req).eval (c.answer db')
    case ok      => rfl
    case error e => cases e <;> rfl

end

namespace Sample

def calm : Circumstances where
  order  := ⟨fun _ => inferInstance, inferInstance⟩
  outage := fun _ => none
  now    := 0
  served
    | .inl _ => .error .invalidRequest
    | .inr _ => .error .invalidRequest

def get (url : String) : IncomingMessage where
  method  := "GET"
  url     := url
  headers := headers
  body    := ⟨[], none⟩

def execution (executionId tenantId : String) : ExecutionRow where
  executionId  := executionId
  tenantId     := tenantId
  actorId      := "u"
  agentId      := "g"
  agentVersion := "1"
  objective    := "pay"
  status       := .intake
  requestJson  := .null
  createdAt    := 0
  updatedAt    := 0

-- The database of the tenant `t`, without and with an execution of the tenant `v`.
def mine : ControlDb :=
  { Db.empty with
    tenants     := ["t", "v"]
    executions  := Table.empty.insert (execution "e" "t")
    evidence    := .empty
    permissions := .empty }

def shared : ControlDb :=
  { mine with
    executions := mine.executions.insert (execution "x" "v")
    dispatches := mine.dispatches.insert (.of "x" "logon.execution" 0) }

theorem sameFor_shared : mine.SameFor "t" shared := by
  have ho : ¬mine.Owns "t" "x" := by
    intro ⟨_, hf, _⟩
    simp [mine, execution, Table.find_insert] at hf
  exact { ControlDb.SameFor.refl "t" mine with
    executions := .insert _ (by simp [execution])
    dispatches := .insert _ ho }

end Sample

open Logon.ControlPlane.Sample in
theorem reads_are_isolated_shared :
    handle host env calm (get "/api/executions/e") mine = handle host env calm (get "/api/executions/e") shared ∧
    handle host env calm (get "/api/executions/x") shared = .ok (sendJson 404 (errorJson "Execution not found")) := by
  have hp : resolvePrincipal host headers env = .ok ⟨"boss", "t", [.approver], .trustedProxy⟩ := by rfl
  have hs {principal} (h : resolvePrincipal host headers env = .ok principal) : principal.tenantId = "t" := by
    cases hp.symm.trans h
    rfl
  have ho : ¬shared.Owns "t" "x" := by
    intro ⟨row, hf, ht⟩
    cases hf
    simp [execution] at ht
  constructor
  · exact (reads_are_isolated rfl fun _ h => hs h ▸ sameFor_shared).left
  · exact (reads_are_isolated rfl fun _ _ => .refl _ shared).right _ "x" hp ⟨rfl, rfl, by decide⟩ ho rfl

end Logon.ControlPlane
