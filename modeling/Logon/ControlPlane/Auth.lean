import Logon.Kernel.Types

namespace Logon.ControlPlane

-- Functions of the JavaScript runtime that the API uses.
structure HttpHost where
  -- The path of `new URL(url, "http://localhost")`, which throws for some texts.
  pathname           : String → Option String
  toUpperCase        : String → String
  encodeURIComponent : String → String
  decodeURIComponent : String → Option String
  utf8               : List UInt8 → String
  parseJson          : String → Option Json

-- What the handling of a request may throw. `other` stands for everything that the server answers
-- with its generic error.
inductive WebError
  | http (statusCode : Nat) (message : String)
  | principalResolution (message : String)
  | authorization (message : String)
  | kernel (e : KernelError)
  | other (text : String)

inductive ControlPlaneRole
  | viewer
  | operator
  | approver
  | admin
  deriving DecidableEq, Repr

def ControlPlaneRole.text : ControlPlaneRole → String
  | viewer   => "VIEWER"
  | operator => "OPERATOR"
  | approver => "APPROVER"
  | admin    => "ADMIN"

def VALID_ROLES : List ControlPlaneRole :=
  [.viewer, .operator, .approver, .admin]

inductive Authentication
  | trustedProxy
  | dev
  deriving DecidableEq, Repr

def Authentication.text : Authentication → String
  | trustedProxy => "TRUSTED_PROXY"
  | dev          => "DEV"

structure ControlPlanePrincipal where
  subjectId      : String
  tenantId       : String
  roles          : List ControlPlaneRole
  authentication : Authentication
  deriving DecidableEq, Repr

inductive HeaderValue
  | single (value : String)
  | multiple (values : List String)

abbrev IncomingHttpHeaders := List (String × HeaderValue)

-- `process.env`
abbrev ProcessEnv := List (String × String)

def trim (s : String) : String :=
  String.ofList (s.toList.dropWhile isBlank |>.reverse.dropWhile isBlank |>.reverse)

def firstHeader (headers : IncomingHttpHeaders) (name : String) : Option String :=
  let first :=
    match headers.lookup name with
    | none                    => none
    | some (.single value)    => some value
    | some (.multiple values) => values.head?
  (first.map trim).filter (· ≠ "")

section
variable (host : HttpHost)

def parseRoles (raw : Option String) (fallback : List ControlPlaneRole) : List ControlPlaneRole :=
  let items  := (raw.getD "").toList.splitOn ','
  let values := items.map fun item => host.toUpperCase (trim (String.ofList item))
  let roles  := values.filterMap fun value => VALID_ROLES.find? (·.text = value)
  if roles = [] then fallback else roles.eraseDups

def requireValue (value : Option String) (message : String) : Except WebError String :=
  match value.filter (· ≠ "") with
  | some value => .ok value
  | none       => .error (.principalResolution message)

-- Values of the environment may be empty, those of headers are not.
def resolvePrincipal (headers : IncomingHttpHeaders) (env : ProcessEnv) : Except WebError ControlPlanePrincipal := do
  if env.lookup "LOGON_CONTROL_PLANE_DEV_MODE" = some "true" then
    let tenantId ← requireValue
      ((firstHeader headers "x-logon-tenant-id").or (env.lookup "LOGON_CONTROL_PLANE_TENANT_ID"))
      "Development tenant identity is required"
    let subjectId :=
      (firstHeader headers "x-logon-actor-id").or (env.lookup "LOGON_CONTROL_PLANE_ACTOR_ID")
        |>.getD "control-plane-dev"
    return {
      subjectId      := subjectId
      tenantId       := tenantId
      roles          := parseRoles host
        ((firstHeader headers "x-logon-roles").or (env.lookup "LOGON_CONTROL_PLANE_ROLES")) [.admin]
      authentication := .dev
    }
  else if env.lookup "LOGON_CONTROL_PLANE_TRUSTED_PROXY" ≠ some "true" then
    throw (.principalResolution "No authenticated Control Plane principal is configured")
  else
    let tenantId ← requireValue (firstHeader headers "x-logon-auth-tenant")
      "Authenticated tenant claim is required"
    let subjectId ← requireValue (firstHeader headers "x-logon-auth-subject")
      "Authenticated subject claim is required"
    return {
      subjectId      := subjectId
      tenantId       := tenantId
      roles          := parseRoles host (firstHeader headers "x-logon-auth-roles") [.viewer]
      authentication := .trustedProxy
    }

end

inductive ControlPlanePermission
  | read
  | approve
  deriving DecidableEq, Repr

def canReadControlPlane (principal : ControlPlanePrincipal) : Bool :=
  principal.roles.any (· ∈ [.viewer, .operator, .approver, .admin])

def canDecideApproval (principal : ControlPlanePrincipal) : Bool :=
  principal.roles.any (· ∈ [.approver, .admin])

def requireRole (principal : ControlPlanePrincipal) (permission : ControlPlanePermission) : Except WebError Unit :=
  let allowed :=
    match permission with
    | .read    => canReadControlPlane principal
    | .approve => canDecideApproval principal
  if allowed then
    .ok ()
  else
    .error <| .authorization <|
      match permission with
      | .approve => "Approval decisions require APPROVER or ADMIN role"
      | .read    => "Control Plane read access is not granted"

theorem canDecideApproval_iff {principal : ControlPlanePrincipal} :
    canDecideApproval principal ↔ .approver ∈ principal.roles ∨ .admin ∈ principal.roles := by
  simp only [canDecideApproval, List.any_eq_true, decide_eq_true_eq]
  constructor
  case mp =>
    intro ⟨role, hr, hm⟩
    cases List.mem_pair.mp hm
    case inl he => exact .inl (he ▸ hr)
    case inr he => exact .inr (he ▸ hr)
  case mpr =>
    intro h
    cases h
    case inl h => exact ⟨_, h, by decide⟩
    case inr h => exact ⟨_, h, by decide⟩

theorem requireRole_approve {principal : ControlPlanePrincipal} :
    requireRole principal .approve = .ok () ↔ .approver ∈ principal.roles ∨ .admin ∈ principal.roles := by
  rw [← canDecideApproval_iff]
  cases h : canDecideApproval principal <;> simp [requireRole, h]

theorem parseRoles_ne_nil (host : HttpHost) (raw : Option String) {fallback : List ControlPlaneRole}
    (h : fallback ≠ []) : parseRoles host raw fallback ≠ [] := by
  simp only [parseRoles]
  split
  case isTrue     => exact h
  case isFalse hr =>
    have ⟨role, hm⟩ := List.exists_mem_of_ne_nil _ hr
    exact List.ne_nil_of_mem <| List.mem_eraseDups.mpr hm

theorem canReadControlPlane_iff {principal : ControlPlanePrincipal} :
    canReadControlPlane principal ↔ principal.roles ≠ [] := by
  constructor
  case mp =>
    intro h hn
    simp [canReadControlPlane, hn] at h
  case mpr =>
    intro h
    have ⟨role, hm⟩ := List.exists_mem_of_ne_nil _ h
    exact List.any_eq_true.mpr ⟨role, hm, by cases role <;> decide⟩

end Logon.ControlPlane
