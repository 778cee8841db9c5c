import Logon.ControlPlane.Auth
import Logon.ControlPlane.Queries
import Logon.Runtime.Processes

-- The HTTP API.

namespace Logon.ControlPlane

-- What the handling of a request does: it reads the clock, sends queries, and calls the service.
inductive WebOp
  | dateNow
  | query (q : Query)
  | service (o : platform.outer.Op)

-- The text of a query that fails is that of its error.
abbrev WebOp.Reply : WebOp → Type
  | dateNow   => Time
  | query q   => Except String (List q.Row)
  | service o => platform.outer.Reply o

abbrev web : Signature where
  Op    := WebOp
  Reply := WebOp.Reply

abbrev Web := Program web WebError

-- `pool.query`
def pool (q : Query) : Web (List q.Row) := do
  let res ← @Program.perform web WebError (.query q)
  .ofExcept (res.mapError .other)

-- A method of the service.
def serve : Process α → Web α
  | .pure a  => .pure a
  | .throw e => .throw (.kernel e)
  | .op o k  => @Program.op web WebError _ (.service o) fun r => serve (k r)

-- The chunks of a body that arrive before it ends, or fails.
structure Body where
  chunks  : List (List UInt8)
  failure : Option String

structure IncomingMessage where
  method  : Option String
  url     : Option String
  headers : IncomingHttpHeaders
  body    : Body

structure Response where
  status : Nat
  body   : String

def sendJson (status : Nat) (body : Json) : Response where
  status := status
  body   := body.text

def timeJson (t : Time) : Json :=
  .string (Timestamp.toISOString t)

-- A member that an object only has if its value is truthy.
def optional (name : String) (value : Option Json) : List (String × Json) :=
  (value.map fun v => (name, v)).toList

section
variable (host : HttpHost)

def receive (maxBytes : Nat) (failure : Option String) :
    List (List UInt8) → List UInt8 → Except WebError (List UInt8)
  | [], received =>
    match failure with
    | none      => .ok received
    | some text => .error (.other text)
  | chunk :: chunks, received =>
    if (received ++ chunk).length > maxBytes then
      .error (.http 413 "Request body too large")
    else
      receive maxBytes failure chunks (received ++ chunk)

-- The members of a body that is an object.
def readJson (body : Body) (maxBytes : Nat := 32000) : Except WebError (List (String × Json)) := do
  let text := host.utf8 (← receive maxBytes body.failure body.chunks [])
  if blank text then
    return []
  else
    match host.parseJson text with
    | none              => throw (.http 400 "Invalid JSON")
    | some (.object ms) => return ms
    | some _            => throw (.http 400 "Request body must be a JSON object")

-- What matches `/^\/api\/executions\/([^/]+)(?:\/approval)?$/`
def executionSegment (pathname : String) : Option String :=
  match (pathname.toList.splitOn '/').map String.ofList with
  | ["", "api", "executions", segment]             => some segment |>.filter (· ≠ "")
  | ["", "api", "executions", segment, "approval"] => some segment |>.filter (· ≠ "")
  | _                                              => none

def executionIdFrom (pathname : String) : Except WebError (Option String) :=
  match executionSegment pathname with
  | none         => .ok none
  | some segment =>
    match host.decodeURIComponent segment with
    | some executionId => .ok executionId
    | none             => .error (.other "URI malformed")

end

def listExecutions (tenant : String) : Web Json := do
  let rows ← pool (.listExecutions tenant)
  return .array <| rows.map fun (row, pending) => .object [
    ("executionId", .string row.executionId),
    ("actorId", .string row.actorId),
    ("agentId", .string row.agentId),
    ("agentVersion", .string row.agentVersion),
    ("objective", .string row.objective),
    ("status", .string row.status.text),
    ("createdAt", timeJson row.createdAt),
    ("updatedAt", timeJson row.updatedAt),
    ("pendingApprovals", .number (.ofNat pending))
  ]

def executionJson (row : ExecutionRow) : Json :=
  .object [
    ("executionId", .string row.executionId),
    ("tenantId", .string row.tenantId),
    ("actorId", .string row.actorId),
    ("agentId", .string row.agentId),
    ("agentVersion", .string row.agentVersion),
    ("objective", .string row.objective),
    ("status", .string row.status.text),
    ("request", row.requestJson),
    ("createdAt", timeJson row.createdAt),
    ("updatedAt", timeJson row.updatedAt)
  ]

def eventJson (row : EventRow) : Json :=
  .object [
    ("sequence", .number (.ofNat row.sequence)),
    ("status", .string row.status.text),
    ("type", .string row.eventType),
    ("actorId", .string row.actorId),
    ("payload", match row.payloadJson with
      | .null => .object []
      | json  => json),
    ("timestamp", timeJson row.createdAt)
  ]

def approvalJson (row : ApprovalRow) : Json :=
  .object <| [
    ("approvalId", .string row.approvalId),
    ("status", .string row.status.text),
    ("requestedBy", .string row.requestedBy),
    ("reason", .string row.reason)
  ] ++ optional "decidedBy" (row.decidedBy.filter (· ≠ "") |>.map .string) ++
    optional "decidedAt" (row.decidedAt.map timeJson) ++
    optional "expiresAt" (row.expiresAt.map timeJson) ++ [
    ("createdAt", timeJson row.createdAt)
  ]

def evidenceJson (row : EvidenceRow) : Json :=
  .object [
    ("evidenceId", .string row.evidenceId),
    ("kind", .string row.kind),
    ("source", .string row.source),
    ("payloadHash", .string row.payloadHash),
    ("createdAt", timeJson row.createdAt)
  ]

def auditJson (row : AuditRow) : Json :=
  .object [
    ("auditId", .string row.auditId),
    ("action", .string row.action),
    ("actorId", .string row.actorId),
    ("allowed", .bool row.allowed),
    ("reason", .string row.reason),
    ("createdAt", timeJson row.createdAt)
  ]

def permissionJson (row : ToolPermissionRow) : Json :=
  .object <| [
    ("agentId", .string row.agentId),
    ("toolId", .string row.toolId),
    ("permission", .string row.permission),
    ("allowed", .bool row.allowed)
  ] ++ optional "expiresAt" (row.expiresAt.map timeJson)

def DispatchStatus.text : DispatchStatus → String
  | .pending    => "PENDING"
  | .processing => "PROCESSING"
  | .dispatched => "DISPATCHED"

def dispatchJson (row : DispatchRow) : Json :=
  .object <| [
    ("queueName", .string row.queueName),
    ("status", .string (DispatchStatus.text row.status)),
    ("attempts", .number (.ofNat row.attempts))
  ] ++ optional "lockedUntil" (row.lockedUntil.map timeJson) ++
    optional "lastError" (row.lastError.filter (· ≠ "") |>.map .string) ++ [
    ("createdAt", timeJson row.createdAt)
  ] ++ optional "dispatchedAt" (row.dispatchedAt.map timeJson)

-- The source sends the queries for the rest at once, and waits for all of them. They only depend on the execution that
-- has been read, and what is stated of details relates each of them to the state before them all or to the state after
-- them all, so that it does not matter in which order they are answered.
def getExecution (tenant executionId : String) : Web Json := do
  match ← pool (.selectExecution executionId tenant) with
  | [] => throw (.http 404 "Execution not found")
  | execution :: _ =>
    let events      ← pool (.selectEvents executionId)
    let approvals   ← pool (.selectApprovals executionId tenant)
    let evidence    ← pool (.selectEvidence executionId tenant)
    let audit       ← pool (.selectAudit executionId tenant)
    let dispatch    ← pool (.selectDispatch executionId)
    let permissions ← pool (.selectPermissions tenant execution.agentId)
    return .object [
      ("execution", executionJson execution),
      ("events", .array (events.map eventJson)),
      ("approvals", .array (approvals.map approvalJson)),
      ("evidence", .array (evidence.map evidenceJson)),
      ("audit", .array (audit.map auditJson)),
      ("permissions", .array (permissions.map permissionJson)),
      ("dispatch", match dispatch with
        | []       => .null
        | row :: _ => dispatchJson row)
    ]

def decisionJson (decision : ApprovalDecision) : Json :=
  .object <| [
    ("approvalId", .string decision.approvalId),
    ("executionId", .string decision.executionId),
    ("status", .string decision.status.toStatus.text),
    ("decidedBy", .string decision.decidedBy),
    ("decidedAt", .string decision.decidedAt.text)
  ] ++ optional "reason" (decision.reason.map .string)

-- The string that a member of a body is, if it is one.
def stringMember (body : List (String × Json)) (name : String) : Option String :=
  match body.lookup name with
  | some (.string s) => some s
  | _                => none

def decisionStatus (body : List (String × Json)) : Option ApprovalDecisionStatus :=
  match stringMember body "status" with
  | some "APPROVED" => some .approved
  | some "REJECTED" => some .rejected
  | _               => none

def WebError.message : WebError → String
  | http _ message              => message
  | principalResolution message => message
  | authorization message       => message
  | kernel e                    => e.message
  | other text                  => text

def decideApproval (principal : ControlPlanePrincipal) (executionId : String) (body : List (String × Json)) :
    Web Json := do
  .ofExcept (requireRole principal .approve)
  let approvalId := (stringMember body "approvalId").getD ""
  match decisionStatus body with
  | none        => throw (.http 400 "approvalId and status (APPROVED|REJECTED) are required")
  | some status =>
    if approvalId = "" then
      throw (.http 400 "approvalId and status (APPROVED|REJECTED) are required")
    else
      let ownership ← pool (.selectOwnership approvalId executionId principal.tenantId)
      if ownership.length ≠ 1 then
        throw (.http 404 "Approval not found for tenant and execution")
      else
        let decision : ApprovalDecision := {
          approvalId  := approvalId
          executionId := executionId
          status      := status
          decidedBy   := principal.subjectId
          decidedAt   := .iso (← @Program.perform web WebError .dateNow)
          reason      := (stringMember body "reason").filter (!blank ·)
        }
        Program.tryCatch (do
          return decisionJson (← serve (PostgresExecutionService.Process.decideApproval decision)))
          fun error =>
            match error with
            | .kernel (.approvalExpired _) => throw (.http 409 error.message)
            | _                            => throw (.http 422 error.message)

def errorJson (message : String) : Json :=
  .object [("error", .string message)]

section
variable (host : HttpHost) (env : ProcessEnv)

def respond (req : IncomingMessage) : Web Response := do
  match host.pathname (req.url.getD "/") with
  | none => throw (.other "Invalid URL")
  | some pathname =>
    if req.method = some "GET" ∧ pathname = "/health" then
      let _ ← pool .selectOne
      return sendJson 200 (.object [("ok", .bool true), ("service", .string "logon-control-plane-api")])
    else if ¬"/api/".toList <+: pathname.toList then
      return sendJson 404 (errorJson "Not found")
    else
      let principal ← .ofExcept (resolvePrincipal host req.headers env)
      if req.method = some "GET" ∧ pathname = "/api/me" then
        .ofExcept (requireRole principal .read)
        return sendJson 200 <| .object [
          ("subjectId", .string principal.subjectId),
          ("tenantId", .string principal.tenantId),
          ("roles", .array (principal.roles.map (.string ·.text))),
          ("authentication", .string principal.authentication.text)
        ]
      else if req.method = some "GET" ∧ pathname = "/api/executions" then
        .ofExcept (requireRole principal .read)
        return sendJson 200 (.object [("executions", ← listExecutions principal.tenantId)])
      else
        match (← .ofExcept (executionIdFrom host pathname)).filter (· ≠ "") with
        | none => return sendJson 404 (errorJson "Not found")
        | some executionId =>
          let path := "/api/executions/" ++ host.encodeURIComponent executionId
          if req.method = some "GET" ∧ pathname = path then
            .ofExcept (requireRole principal .read)
            return sendJson 200 (← getExecution principal.tenantId executionId)
          else if req.method = some "POST" ∧ pathname = path ++ "/approval" then
            let body ← .ofExcept (readJson host req.body)
            return sendJson 200 (← decideApproval principal executionId body)
          else
            return sendJson 405 (errorJson "Method not allowed")

def handler (req : IncomingMessage) : Web Response :=
  (respond host env req).tryCatch fun
    | .http statusCode message      => return sendJson statusCode (errorJson message)
    | .principalResolution message  => return sendJson 401 (errorJson message)
    | .authorization message        => return sendJson 403 (errorJson message)
    | _                             => return sendJson 500 (errorJson "Internal server error")

end

-- A server and a caller for examples.
namespace Sample

def approval : String :=
  "\x7b\"approvalId\":\"a\",\"status\":\"APPROVED\"\x7d"

-- Texts that need no escapes, and which consist of ASCII characters.
def host : HttpHost where
  pathname           := some
  toUpperCase        := id
  encodeURIComponent := id
  decodeURIComponent := some
  utf8 bytes         := String.ofList (bytes.map fun b => Char.ofNat b.toNat)
  parseJson text     :=
    if text = approval then some (.object [("approvalId", .string "a"), ("status", .string "APPROVED")]) else none

def env : ProcessEnv :=
  [("LOGON_CONTROL_PLANE_TRUSTED_PROXY", "true")]

def headers : IncomingHttpHeaders := [
  ("x-logon-auth-tenant", .single "t"),
  ("x-logon-auth-subject", .single "boss"),
  ("x-logon-auth-roles", .single "APPROVER")
]

end Sample
end Logon.ControlPlane
