import Logon.ControlPlane.Server

-- Callers of the API have the roles that are named for them.

namespace Logon.ControlPlane

def Development (env : ProcessEnv) : Prop :=
  env.lookup "LOGON_CONTROL_PLANE_DEV_MODE" = some "true"

instance (env : ProcessEnv) : Decidable (Development env) :=
  inferInstanceAs (Decidable (_ = _))

-- The string of roles that `resolvePrincipal` parses.
def rolesOf (headers : IncomingHttpHeaders) (env : ProcessEnv) : Option String :=
  if Development env then
    (firstHeader headers "x-logon-roles").or (env.lookup "LOGON_CONTROL_PLANE_ROLES")
  else
    firstHeader headers "x-logon-auth-roles"

-- One of the items of a string is the name of a role.
def Lists (host : HttpHost) (raw : String) (role : ControlPlaneRole) : Prop :=
  ∃ item ∈ raw.toList.splitOn ',', host.toUpperCase (trim (String.ofList item)) = role.text

instance (host : HttpHost) (raw : String) (role : ControlPlaneRole) : Decidable (Lists host raw role) :=
  inferInstanceAs (Decidable (∃ item ∈ _, _))

-- The headers that a trusted proxy sets.
def authHeaders : List String :=
  ["x-logon-auth-tenant", "x-logon-auth-subject", "x-logon-auth-roles"]

section
variable {host : HttpHost} {env : ProcessEnv} {headers headers' : IncomingHttpHeaders}
variable {principal : ControlPlanePrincipal} {raw : String} {fallback : List ControlPlaneRole}

theorem find?_text {role : ControlPlaneRole} : VALID_ROLES.find? (·.text = value) = some role ↔ value = role.text := by
  constructor
  case mp  => exact fun h => (by simpa using List.find?_some h : role.text = value).symm
  case mpr =>
    rintro rfl
    cases role <;> decide

theorem mem_parsed {role : ControlPlaneRole} :
    role ∈ ((raw.toList.splitOn ',').map fun item => host.toUpperCase (trim (String.ofList item))).filterMap
      (fun value => VALID_ROLES.find? (·.text = value)) ↔ Lists host raw role := by
  simp only [List.mem_filterMap, List.mem_map, find?_text, Lists]
  constructor
  case mp  => exact fun ⟨_, ⟨item, hi, he⟩, hv⟩ => ⟨item, hi, he.trans hv⟩
  case mpr => exact fun ⟨item, hi, he⟩ => ⟨_, ⟨item, hi, rfl⟩, he⟩

theorem mem_parseRoles {role : ControlPlaneRole} (h : Lists host raw named) :
    role ∈ parseRoles host (some raw) fallback ↔ Lists host raw role := by
  simp only [parseRoles, Option.getD_some]
  split
  case isTrue hn  => exact absurd (mem_parsed.mpr h) (hn ▸ List.not_mem_nil)
  case isFalse    => rw [List.mem_eraseDups, mem_parsed]

theorem parseRoles_unknown (h : ∀ role, ¬Lists host raw role) : parseRoles host (some raw) fallback = fallback :=
  if_pos <| List.eq_nil_iff_forall_not_mem.mpr fun role hr => h role <| mem_parsed.mp hr

theorem resolvePrincipal_roles (h : resolvePrincipal host headers env = .ok principal) :
    principal.roles = parseRoles host (rolesOf headers env) (if Development env then [.admin] else [.viewer]) := by
  simp only [resolvePrincipal] at h
  split at h
  case isTrue hd =>
    have ⟨_, _, h⟩ := Statement.bind_ok.mp h
    cases h
    rw [rolesOf, if_pos (show Development env from hd), if_pos (show Development env from hd)]
  case isFalse hd =>
    split at h
    case isTrue  => cases h
    case isFalse =>
      have ⟨_, _, h⟩ := Statement.bind_ok.mp h
      have ⟨_, _, h⟩ := Statement.bind_ok.mp h
      cases h
      rw [rolesOf, if_neg (show ¬Development env from hd), if_neg (show ¬Development env from hd)]

-- Whoever is known can read, as nobody is left without a role.
theorem resolvePrincipal_canRead (h : resolvePrincipal host headers env = .ok principal) :
    requireRole principal .read = .ok () := by
  have hr : principal.roles ≠ [] := by
    rw [resolvePrincipal_roles h]
    exact parseRoles_ne_nil host _ (by split <;> simp)
  simp [requireRole, canReadControlPlane_iff.mpr hr]

theorem firstHeader_congr (h : headers.lookup name = headers'.lookup name) :
    firstHeader headers name = firstHeader headers' name := by
  rw [firstHeader, firstHeader, h]

theorem resolvePrincipal_congr (hd : ¬Development env) (h : ∀ name ∈ authHeaders, headers.lookup name = headers'.lookup name) :
    resolvePrincipal host headers env = resolvePrincipal host headers' env := by
  rw [resolvePrincipal, resolvePrincipal, if_neg (show ¬_ = _ from hd), if_neg (show ¬_ = _ from hd),
    firstHeader_congr (h "x-logon-auth-tenant" (by simp [authHeaders])),
    firstHeader_congr (h "x-logon-auth-subject" (by simp [authHeaders])),
    firstHeader_congr (h "x-logon-auth-roles" (by simp [authHeaders]))]

-- Whoever has more than the role of a viewer has been given it by name.
theorem named_iff (hp : resolvePrincipal host headers env = .ok principal) (hr : rolesOf headers env = some raw) :
    (∀ role ∈ principal.roles, role ≠ .viewer → Lists host raw role) ↔ (Development env → ∃ role, Lists host raw role) := by
  have hroles := resolvePrincipal_roles hp
  rw [hr] at hroles
  by_cases hn : ∃ role, Lists host raw role
  case pos =>
    have ⟨_, hn⟩ := hn
    rw [hroles]
    exact iff_of_true (fun role hm _ => (mem_parseRoles hn).mp hm) fun _ => ⟨_, hn⟩
  case neg =>
    rw [parseRoles_unknown (not_exists.mp hn)] at hroles
    by_cases hd : Development env
    case pos =>
      rw [if_pos hd] at hroles
      rw [hroles]
      exact iff_of_false (fun h => hn ⟨_, h .admin (by simp) (by decide)⟩) fun h => hn (h hd)
    case neg =>
      rw [if_neg hd] at hroles
      rw [hroles]
      exact iff_of_true (fun role hm hv => absurd (List.mem_singleton.mp hm) hv) fun h => absurd h hd

-- Roles are only granted by name, except that everybody is an administrator in development mode if no role is
-- named. Besides, only the headers of the trusted proxy matter in production.
theorem roles_are_named (host : HttpHost) (env : ProcessEnv) (headers : IncomingHttpHeaders) :
    (∀ principal raw, resolvePrincipal host headers env = .ok principal → rolesOf headers env = some raw →
      ((∀ role ∈ principal.roles, role ≠ .viewer → Lists host raw role) ∧
        (canDecideApproval principal → Lists host raw .approver ∨ Lists host raw .admin) ↔
        (Development env → ∃ role, Lists host raw role))) ∧
    (¬Development env → ∀ headers', (∀ name ∈ authHeaders, headers.lookup name = headers'.lookup name) →
      resolvePrincipal host headers env = resolvePrincipal host headers' env) := by
  constructor
  case right => exact fun hd _ h => resolvePrincipal_congr hd h
  case left  =>
    intro principal raw hp hr
    rw [← named_iff hp hr, canDecideApproval_iff]
    refine and_iff_left_of_imp fun h hc => ?_
    exact hc.imp (fun hm => h _ hm (by decide)) (fun hm => h _ hm (by decide))

end

namespace Sample

def development : ProcessEnv :=
  [("LOGON_CONTROL_PLANE_DEV_MODE", "true")]

def claiming (roles : String) : IncomingHttpHeaders :=
  [("x-logon-tenant-id", .single "t"), ("x-logon-roles", .single roles)]

end Sample

open Logon.ControlPlane.Sample in
theorem roles_are_named_approver : ∃ principal, resolvePrincipal host (claiming "ROOT, APPROVER") development = .ok principal ∧
    (∀ role ∈ principal.roles, role ≠ .viewer → Lists host "ROOT, APPROVER" role) ∧
    (canDecideApproval principal → Lists host "ROOT, APPROVER" .approver ∨ Lists host "ROOT, APPROVER" .admin) := by
  have hp : resolvePrincipal host (claiming "ROOT, APPROVER") development = .ok ⟨"control-plane-dev", "t", [.approver], .dev⟩ := by
    rfl
  exact ⟨_, hp, ((roles_are_named _ _ _).left _ _ hp rfl).mpr fun _ => ⟨.approver, by decide⟩⟩

open Logon.ControlPlane.Sample in
theorem roles_are_granted_unnamed : ∃ principal, resolvePrincipal host (claiming "ROOT") development = .ok principal ∧
    rolesOf (claiming "ROOT") development = some "ROOT" ∧ ¬blank "ROOT" ∧
    .admin ∈ principal.roles ∧ canDecideApproval principal ∧ ∀ role, ¬Lists host "ROOT" role := by
  refine ⟨⟨"control-plane-dev", "t", [.admin], .dev⟩, rfl, rfl, by decide, by decide, by decide, fun role => ?_⟩
  cases role <;> decide

end Logon.ControlPlane
