import Logon.Kernel.Permissions
import Logon.Runtime.Reachable

-- Tools are used with a permission, which has not expired as far as its expiry can be read.

namespace Logon

-- A permission of the request's tenant and agent to use a tool.
structure Grants (permission : ToolPermission) (request : ExecutionRequest) (tool : ToolDefinition) : Prop where
  tenantId   : permission.tenantId = request.identity.tenantId
  agentId    : permission.agentId = request.identity.agentId
  toolId     : permission.toolId = tool.toolId
  allowed    : permission.allowed
  permission : permission.permission = tool.requiredPermission

-- A permission is in force if it does not expire, or expires later.
def InForce (parse : String → Option Time) (now : Time) (permission : ToolPermission) : Prop :=
  permission.expiresAt = none ∨
  ∃ text t, permission.expiresAt = some text ∧ text ≠ "" ∧ parse text = some t ∧ now < t

-- The expiry of a permission can be read.
def Dated (parse : String → Option Time) (permission : ToolPermission) : Prop :=
  ∀ text, permission.expiresAt = some text → text ≠ "" ∧ (parse text).isSome

section
variable {parse : String → Option Time} {now now' : Time} {request : ExecutionRequest} {tool : ToolDefinition}
variable {permission : ToolPermission}

theorem evaluateToolPolicy_allowed :
    (evaluateToolPolicy request tool).allowed ↔ request.identity.agentId ∈ tool.allowedAgents := by
  rw [evaluateToolPolicy]
  split
  case isTrue h  => simp [h]
  case isFalse h => simpa using h

-- What is checked before the expiry.
theorem checkToolPermission_granted (h : Grants permission request tool) :
    checkToolPermission parse now request tool (some permission) =
    if permission.expired parse now then ⟨false, "Permission has expired."⟩ else ⟨true, "Explicit permission granted."⟩ := by
  simp [checkToolPermission, h.tenantId, h.agentId, h.toolId, h.allowed, h.permission]

theorem grants_of_unrefused (h : checkToolPermission parse now request tool (some permission) = ⟨allowed, reason⟩)
    (ha : allowed ∨ reason = "Permission has expired.") : Grants permission request tool := by
  simp only [checkToolPermission] at h
  split at h
  case isTrue => cases h; simp at ha
  case isFalse ht =>
    split at h
    case isTrue => cases h; simp at ha
    case isFalse hm =>
      split at h
      case isTrue => cases h; simp at ha
      case isFalse hg =>
        simp only [not_or, not_not, Bool.not_eq_true', Bool.not_eq_false] at ht hm hg
        exact ⟨ht, hm.left, hm.right, hg.left, hg.right⟩

theorem checkToolPermission_allowed : (checkToolPermission parse now request tool (some permission)).allowed ↔
    Grants permission request tool ∧ ¬permission.expired parse now := by
  constructor
  case mp =>
    intro h
    have hg : Grants permission request tool := grants_of_unrefused rfl (.inl h)
    rw [checkToolPermission_granted hg] at h
    split at h
    case isTrue     => cases h
    case isFalse he => exact ⟨hg, he⟩
  case mpr =>
    intro ⟨hg, he⟩
    rw [checkToolPermission_granted hg, if_neg he]

theorem expired_iff : permission.expired parse now ↔
    ∃ text t, permission.expiresAt = some text ∧ text ≠ "" ∧ parse text = some t ∧ t ≤ now := by
  rw [ToolPermission.expired]
  split
  case h_1 t ht =>
    have ⟨text, hf, ht⟩ := Option.bind_eq_some_iff.mp ht
    have ⟨he, hn⟩ := Option.filter_eq_some_iff.mp hf
    constructor
    case mp  => exact fun h => ⟨text, t, he, by simpa using hn, ht, by simpa using h⟩
    case mpr =>
      intro ⟨_, _, he', _, ht', h⟩
      cases he.symm.trans he'
      cases ht.symm.trans ht'
      simpa using h
  case h_2 hn =>
    refine iff_of_false Bool.false_ne_true fun ⟨text, t, he, hne, ht, _⟩ => ?_
    simp [he, hne, ht, Option.filter] at hn

theorem expired_mono (hn : now ≤ now') (h : permission.expired parse now) : permission.expired parse now' := by
  have ⟨text, t, he, hne, ht, hle⟩ := expired_iff.mp h
  exact expired_iff.mpr ⟨text, t, he, hne, ht, hle.trans hn⟩

theorem dated_of (he : permission.expiresAt = some text) (hn : text ≠ "") (ht : parse text = some t) :
    Dated parse permission := by
  intro _ he'
  cases he.symm.trans he'
  exact ⟨hn, Option.isSome_iff_exists.mpr ⟨t, ht⟩⟩

-- The expiry of a permission can be read if, and only if it is known whether the permission has expired.
theorem dated_iff : Dated parse permission ↔ permission.expired parse now ∨ InForce parse now permission := by
  constructor
  case mpr =>
    rintro (h | h | ⟨_, _, he, hn, ht, _⟩)
    · have ⟨_, _, he, hn, ht, _⟩ := expired_iff.mp h
      exact dated_of he hn ht
    · exact fun _ he => by cases h.symm.trans he
    · exact dated_of he hn ht
  case mp =>
    intro h
    cases he : permission.expiresAt
    case none      => exact .inr <| .inl he
    case some text =>
      have ⟨hn, ht⟩ := h text he
      have ⟨t, ht⟩ := Option.isSome_iff_exists.mp ht
      by_cases hle : t ≤ now
      case pos => exact .inl <| expired_iff.mpr ⟨text, t, he, hn, ht, hle⟩
      case neg => exact .inr <| .inr ⟨text, t, he, hn, ht, not_le.mp hle⟩

-- What is authorized has been permitted, and is so at this time if the expiry of the permission can be read. A
-- permission does not come back to life.
theorem tools_are_authorized (parse : String → Option Time) (now : Time) (request : ExecutionRequest)
    (tool : ToolDefinition) (permission : Option ToolPermission) :
    (((evaluateToolPolicy request tool).allowed → (checkToolPermission parse now request tool permission).allowed →
        request.identity.agentId ∈ tool.allowedAgents ∧
        ∃ p, permission = some p ∧ Grants p request tool ∧ InForce parse now p) ↔
      ∀ p, permission = some p → request.identity.agentId ∈ tool.allowedAgents → Grants p request tool → Dated parse p) ∧
    ∀ now', now ≤ now' →
      checkToolPermission parse now request tool permission = ⟨false, "Permission has expired."⟩ →
      checkToolPermission parse now' request tool permission = ⟨false, "Permission has expired."⟩ := by
  cases permission
  case none =>
    constructor
    · exact iff_of_true (fun _ h => by cases h) nofun
    · exact fun _ _ h => by simp [checkToolPermission] at h
  case some p =>
    rw [evaluateToolPolicy_allowed, checkToolPermission_allowed]
    constructor
    case left =>
      constructor
      case mp =>
        rintro h _ ⟨⟩ ha hg
        by_cases he : p.expired parse now
        case pos => exact dated_iff.mpr (.inl he)
        case neg =>
          have ⟨_, _, hp, _, hi⟩ := h ha ⟨hg, he⟩
          cases hp
          exact dated_iff.mpr (.inr hi)
      case mpr =>
        intro h ha ⟨hg, he⟩
        exact ⟨ha, p, rfl, hg, (dated_iff.mp (h p rfl ha hg)).resolve_left he⟩
    case right =>
      intro now' hn h
      have hg := grants_of_unrefused h (.inr rfl)
      rw [checkToolPermission_granted hg] at h ⊢
      split at h
      case isTrue he => rw [if_pos (expired_mono hn he)]
      case isFalse   => simp at h

end

namespace Sample

def parse (text : String) : Option Time :=
  if text = "1970-01-01T00:00:00.005Z" then some 5 else none

def crm : ToolDefinition where
  toolId             := "crm.send"
  sideEffect         := .externalMessage
  requiredPermission := "crm:message"
  allowedAgents      := ["g"]

def permission (expiresAt : Option String) : ToolPermission where
  tenantId   := "t"
  agentId    := "g"
  toolId     := "crm.send"
  permission := "crm:message"
  allowed    := true
  expiresAt  := expiresAt

end Sample

open Sample in
theorem tools_are_authorized_dated :
    (request false).identity.agentId ∈ crm.allowedAgents ∧
    ∃ p, some (permission "1970-01-01T00:00:00.005Z") = some p ∧ Grants p (request false) crm ∧ InForce parse 0 p := by
  refine (tools_are_authorized parse 0 (request false) crm (permission "1970-01-01T00:00:00.005Z")).left.mpr ?_ ?_ ?_
  · rintro _ ⟨⟩ _ _
    exact dated_of rfl (by decide) (if_pos rfl)
  · decide
  · decide

-- A permission with an expiry that cannot be read never expires.
open Sample in
theorem tools_outlive_permissions : (evaluateToolPolicy (request false) crm).allowed ∧
    (checkToolPermission parse 0 (request false) crm (permission "")).allowed ∧ ¬InForce parse 0 (permission "") ∧
    (checkToolPermission parse 0 (request false) crm (permission "tomorrow")).allowed ∧
    ¬InForce parse 0 (permission "tomorrow") := by
  have hn {text : String} (h : parse text = none) : ¬InForce parse 0 (permission text) := by
    rintro (he | ⟨_, _, he, _, ht, _⟩)
    · cases he
    · cases he
      cases h.symm.trans ht
  exact ⟨by decide, by decide, hn rfl, by decide, hn rfl⟩

end Logon
