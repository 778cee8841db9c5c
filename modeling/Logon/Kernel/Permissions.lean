import Logon.Kernel.Types

-- Which tools an agent may use.

namespace Logon

inductive SideEffectClass
  | read
  | write
  | externalMessage
  | transaction
  | destructive
  deriving DecidableEq, Repr

structure ToolDefinition where
  toolId             : String
  sideEffect         : SideEffectClass
  requiredPermission : String
  allowedAgents      : List String

structure ToolPermission where
  tenantId   : String
  agentId    : String
  toolId     : String
  permission : String
  allowed    : Bool
  expiresAt  : Option String

structure PermissionDecision where
  allowed : Bool
  reason  : String
  deriving DecidableEq, Repr

def highImpact : List SideEffectClass :=
  [.transaction, .destructive]

def evaluateToolPolicy (request : ExecutionRequest) (tool : ToolDefinition) : PolicyDecision :=
  if request.identity.agentId ∉ tool.allowedAgents then
    ⟨false, false, "Agent is not allowlisted for this tool."⟩
  else
    let approval := request.requiresApproval || tool.sideEffect ∈ highImpact
    ⟨true, approval,
      if approval then "Tool is allowed but requires an approval gate."
      else "Tool is allowed under the registered policy."⟩

section
-- `Date.parse`, where `none` is `NaN`.
variable (parse : String → Option Time) (now : Time)

-- The condition `expiresAt && Date.parse(expiresAt) <= Date.now()`. An empty text counts as none, and `NaN` is not
-- less than anything.
def ToolPermission.expired (permission : ToolPermission) : Bool :=
  match permission.expiresAt.filter (· ≠ "") |>.bind parse with
  | some t => t ≤ now
  | none   => false

def checkToolPermission (request : ExecutionRequest) (tool : ToolDefinition) :
    Option ToolPermission → PermissionDecision
  | none => ⟨false, "No explicit tenant/agent/tool permission exists."⟩
  | some permission =>
    if permission.tenantId ≠ request.identity.tenantId then
      ⟨false, "Permission belongs to a different tenant."⟩
    else if permission.agentId ≠ request.identity.agentId ∨ permission.toolId ≠ tool.toolId then
      ⟨false, "Permission does not match the requesting agent and tool."⟩
    else if !permission.allowed ∨ permission.permission ≠ tool.requiredPermission then
      ⟨false, "Required permission was not granted."⟩
    else if permission.expired parse now then
      ⟨false, "Permission has expired."⟩
    else
      ⟨true, "Explicit permission granted."⟩

end

end Logon
