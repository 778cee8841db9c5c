import Mathlib.Data.String.Basic
import Logon.Library.Uri
import Logon.Principals
import Logon.Runtime.Reachable

-- Which executions the requests to the API are about.

namespace Logon.ControlPlane

section
variable {segment pathname : String}

theorem filter_nonempty {s : String} : (some s).filter (· ≠ "") = some segment ↔ segment ≠ "" ∧ s = segment := by
  rw [Option.filter_eq_some_iff, Option.some.injEq, decide_eq_true_eq]
  constructor
  case mp  => exact fun ⟨he, hn⟩ => ⟨he ▸ hn, he⟩
  case mpr => exact fun ⟨hn, he⟩ => ⟨he, he ▸ hn⟩

theorem executionSegment_eq_some : executionSegment pathname = some segment ↔ segment ≠ "" ∧
    (Uri.split pathname = ["", "api", "executions", segment] ∨
      Uri.split pathname = ["", "api", "executions", segment, "approval"]) := by
  rw [executionSegment, ← Uri.split]
  split
  case h_1 h =>
    rw [filter_nonempty]
    simp [h]
  case h_2 h =>
    rw [filter_nonempty]
    simp [h]
  case h_3 h₁ h₂ => exact iff_of_false (by simp) fun h => h.right.elim (h₁ _) (h₂ _)

theorem executionSegment_path (h : executionSegment pathname = some segment) :
    pathname = "/api/executions/" ++ segment ∨ pathname = "/api/executions/" ++ segment ++ "/approval" := by
  obtain ⟨_, h | h⟩ := executionSegment_eq_some.mp h
  · exact .inl <| (Uri.eq_join h).trans <| String.toList_injective (by simp [Uri.join])
  · exact .inr <| (Uri.eq_join h).trans <| String.toList_injective (by simp [Uri.join])

theorem executionIdFrom_eq_some {host : HttpHost} : executionIdFrom host pathname = .ok (some e) ↔
    ∃ segment, executionSegment pathname = some segment ∧ host.decodeURIComponent segment = some e := by
  rw [executionIdFrom]
  cases executionSegment pathname
  case none         => simp
  case some segment => cases hd : host.decodeURIComponent segment <;> simp [hd]

end

def executionPath (host : HttpHost) (executionId : String) : String :=
  "/api/executions/" ++ host.encodeURIComponent executionId

def approvalPath (host : HttpHost) (executionId : String) : String :=
  executionPath host executionId ++ "/approval"

section
variable {host : HttpHost} {env : ProcessEnv} {req : IncomingMessage} {principal : ControlPlanePrincipal}
variable {segment pathname : String}

-- What becomes of a request that is about an execution.
def respondAbout (host : HttpHost) (req : IncomingMessage) (principal : ControlPlanePrincipal) (pathname : String)
    (executionId : String) : Web Response :=
  if executionId = "" then
    return sendJson 404 (errorJson "Not found")
  else if req.method = some "GET" ∧ pathname = executionPath host executionId then do
    .ofExcept (requireRole principal .read)
    return sendJson 200 (← getExecution principal.tenantId executionId)
  else if req.method = some "POST" ∧ pathname = approvalPath host executionId then do
    let body ← .ofExcept (readJson host req.body)
    return sendJson 200 (← decideApproval principal executionId body)
  else
    return sendJson 405 (errorJson "Method not allowed")

-- The other paths of the API are those of executions.
theorem respond_routed (hp : host.pathname (req.url.getD "/") = some pathname)
    (hr : resolvePrincipal host req.headers env = .ok principal) (ha : "/api/".toList <+: pathname.toList)
    (hn : pathname ∉ ["/health", "/api/me", "/api/executions"]) :
    respond host env req = (Program.ofExcept (executionIdFrom host pathname)).bind fun executionId =>
      respondAbout host req principal pathname (executionId.getD "") := by
  simp only [List.mem_cons, List.not_mem_nil, or_false, not_or] at hn
  rw [respond]
  simp only [hp]
  rw [if_neg (fun h => hn.left h.right), if_neg (not_not.mpr ha)]
  simp only [hr, Program.ofExcept_ok, Program.bind_def, Program.pure_bind]
  rw [if_neg (fun h => hn.right.left h.right), if_neg (fun h => hn.right.right h.right)]
  congr
  funext executionId
  cases executionId
  case none             => rfl
  case some executionId =>
    by_cases he : executionId = ""
    case pos =>
      subst he
      rfl
    case neg =>
      rw [filter_nonempty.mpr ⟨he, rfl⟩, Option.getD_some, respondAbout, if_neg he]
      rfl

theorem respond_about (hp : host.pathname (req.url.getD "/") = some pathname)
    (hr : resolvePrincipal host req.headers env = .ok principal) (hs : executionSegment pathname = some segment) :
    respond host env req =
    match host.decodeURIComponent segment with
    | some executionId => respondAbout host req principal pathname executionId
    | none             => Program.throw (.other "URI malformed") := by
  have ha : "/api/".toList <+: pathname.toList := by
    obtain rfl | rfl := executionSegment_path hs
    · exact ⟨"executions/".toList ++ segment.toList, by simp⟩
    · exact ⟨"executions/".toList ++ segment.toList ++ "/approval".toList, by simp⟩
  have hn : pathname ∉ ["/health", "/api/me", "/api/executions"] := by
    intro hm
    have hnone : ∀ s ∈ ["/health", "/api/me", "/api/executions"], executionSegment s = none := by decide
    cases hs.symm.trans (hnone _ hm)
  rw [respond_routed hp hr ha hn, executionIdFrom]
  simp only [hs]
  cases host.decodeURIComponent segment <;> rfl

theorem respond_unknown (hp : host.pathname (req.url.getD "/") = some pathname)
    (hr : resolvePrincipal host req.headers env = .ok principal) (hs : executionSegment pathname = none)
    (ha : "/api/".toList <+: pathname.toList) (hn : pathname ∉ ["/health", "/api/me", "/api/executions"]) :
    respond host env req = .pure (sendJson 404 (errorJson "Not found")) := by
  rw [respond_routed hp hr ha hn, executionIdFrom, hs]
  rfl

end

-- The URL parser, as far as it is used here, and the functions that encode components.
structure HttpHost.Standard (host : HttpHost) : Prop where
  encodeURIComponent : host.encodeURIComponent = Uri.encodeURIComponent
  decodeURIComponent : host.decodeURIComponent = Uri.decodeURIComponent
  pathname           : ∀ url, Uri.PathAbsolute url → host.pathname url = some (Uri.pathname url)

-- The paths at which an execution is found.
def paths (host : HttpHost) (executionId : String) : List String :=
  [executionPath host executionId, approvalPath host executionId]

-- The queue, the workers and the API take an id for the one that it is.
structure Usable (host : HttpHost) (executionId : String) : Prop where
  enqueue : enqueue executionId ≠ .throw .executionIdRequired
  handle  : ∀ actorId, controlledExecutionHandler actorId executionId ≠ .throw .executionIdRequired
  read    : ∀ env req principal, req.method = some "GET" → req.url = some (executionPath host executionId) →
    resolvePrincipal host req.headers env = .ok principal →
    respond host env req = do
      .ofExcept (requireRole principal .read)
      return sendJson 200 (← getExecution principal.tenantId executionId)
  decide  : ∀ env req principal, req.method = some "POST" → req.url = some (approvalPath host executionId) →
    resolvePrincipal host req.headers env = .ok principal →
    respond host env req = do
      let body ← .ofExcept (readJson host req.body)
      return sendJson 200 (← decideApproval principal executionId body)

-- Neither blank nor a segment that URLs do not keep
structure Plain (executionId : String) : Prop where
  not_blank : ¬blank executionId
  not_dot   : executionId ≠ "."
  not_dots  : executionId ≠ ".."

section
variable {host : HttpHost} {e e' : String}

theorem Plain.ne_empty (h : Plain e) : e ≠ "" := by
  rintro rfl
  exact h.not_blank rfl

theorem executionPath_join (hh : host.Standard) :
    executionPath host e = Uri.join ["api", "executions", Uri.encodeURIComponent e] :=
  String.toList_injective <| by simp [executionPath, Uri.join, hh.encodeURIComponent]

theorem approvalPath_join (hh : host.Standard) :
    approvalPath host e = Uri.join ["api", "executions", Uri.encodeURIComponent e, "approval"] :=
  String.toList_injective <| by simp [approvalPath, executionPath, Uri.join, hh.encodeURIComponent]

theorem segment_of_literal {s : String} (h : s.toList.all fun c => Uri.unreserved c) : Uri.Segment s :=
  fun c hc => .inl <| List.all_eq_true.mp h c hc

theorem segment_of_mem (hl : rest = [] ∨ rest = ["approval"]) :
    ∀ s ∈ "api" :: "executions" :: Uri.encodeURIComponent e :: rest, Uri.Segment s := by
  intro s hs
  simp only [List.mem_cons] at hs
  obtain rfl | rfl | rfl | hs := hs
  · exact segment_of_literal (by decide)
  · exact segment_of_literal (by decide)
  · exact Uri.segment_encodeURIComponent e
  · obtain rfl | rfl := hl
    · cases hs
    · exact List.mem_singleton.mp hs ▸ segment_of_literal (by decide)

-- A path of the API is parsed into itself, except that dots are removed.
theorem pathname_join (hh : host.Standard) (hl : rest = [] ∨ rest = ["approval"]) :
    host.pathname (Uri.join ("api" :: "executions" :: Uri.encodeURIComponent e :: rest)) =
    some (Uri.join (Uri.removeDots [] ("api" :: "executions" :: Uri.encodeURIComponent e :: rest))) := by
  rw [hh.pathname _ <| Uri.pathAbsolute_join (by decide) (segment_of_mem hl), Uri.pathname_join (segment_of_mem hl)]

theorem removeDots_plain (h : Plain e) (hl : rest = [] ∨ rest = ["approval"]) :
    Uri.removeDots [] ("api" :: "executions" :: Uri.encodeURIComponent e :: rest) =
    "api" :: "executions" :: Uri.encodeURIComponent e :: rest := by
  apply Uri.removeDots_of_not_mem
  intro s hs
  simp only [List.mem_cons] at hs
  obtain rfl | rfl | rfl | hs := hs
  · decide
  · decide
  · exact ⟨fun hm => h.not_dots <| Uri.encodeURIComponent_mem_doubleDots.mp hm,
      fun hm => h.not_dot <| Uri.encodeURIComponent_mem_singleDots.mp hm⟩
  · obtain rfl | rfl := hl
    · cases hs
    · exact List.mem_singleton.mp hs ▸ by decide

theorem mem_paths (hh : host.Standard) (hp : path ∈ paths host e) : ∃ rest, (rest = [] ∨ rest = ["approval"]) ∧
    path = Uri.join ("api" :: "executions" :: Uri.encodeURIComponent e :: rest) := by
  simp only [paths, List.mem_cons, List.not_mem_nil, or_false] at hp
  obtain rfl | rfl := hp
  · exact ⟨_, .inl rfl, executionPath_join hh⟩
  · exact ⟨_, .inr rfl, approvalPath_join hh⟩

theorem pathname_path (hh : host.Standard) (h : Plain e) (hp : path ∈ paths host e) : host.pathname path = some path := by
  obtain ⟨rest, hl, rfl⟩ := mem_paths hh hp
  rw [pathname_join hh hl, removeDots_plain h hl]

theorem executionSegment_of_path (hh : host.Standard) (hn : e ≠ "") (hp : path ∈ paths host e) :
    executionSegment path = some (Uri.encodeURIComponent e) := by
  obtain ⟨rest, hl, rfl⟩ := mem_paths hh hp
  rw [executionSegment_eq_some, Uri.split_join fun s hs => (segment_of_mem hl s hs).no_slash]
  refine ⟨fun he => hn <| Uri.encodeURIComponent_eq_empty.mp he, ?_⟩
  obtain rfl | rfl := hl
  · exact .inl rfl
  · exact .inr rfl

-- A request at one of its paths is about the execution.
theorem respond_at {req : IncomingMessage} (hh : host.Standard) (h : Plain e) (hu : req.url = some path) (hp : path ∈ paths host e)
    (hr : resolvePrincipal host req.headers env = .ok principal) :
    respond host env req = respondAbout host req principal path e := by
  have hpath : host.pathname (req.url.getD "/") = some path := by
    rw [hu]
    exact pathname_path hh h hp
  have hd : host.decodeURIComponent (Uri.encodeURIComponent e) = some e := by
    rw [hh.decodeURIComponent, Uri.decodeURIComponent_encodeURIComponent]
  rw [respond_about hpath hr (executionSegment_of_path hh h.ne_empty hp), hd]

theorem Plain.usable (hh : host.Standard) (h : Plain e) : Usable host e where
  enqueue := by
    rw [Logon.enqueue, if_neg h.not_blank]
    exact nofun
  handle  := by
    intro actorId
    rw [controlledExecutionHandler, if_neg h.not_blank]
    exact nofun
  read    := by
    intro env req principal hm hu hr
    rw [respond_at hh h hu List.mem_cons_self hr, respondAbout, if_neg h.ne_empty, if_pos ⟨hm, rfl⟩]
  decide  := by
    intro env req principal hm hu hr
    rw [respond_at hh h hu (by simp [paths]) hr, respondAbout, if_neg h.ne_empty, if_neg (by simp [hm]), if_pos ⟨hm, rfl⟩]

theorem paths_disjoint (hh : host.Standard) (h : Plain e) (h' : Plain e') (hn : e ≠ e') (hp : path ∈ paths host e)
    (hp' : path' ∈ paths host e') : host.pathname path ≠ host.pathname path' := by
  rw [pathname_path hh h hp, pathname_path hh h' hp']
  intro he
  cases Option.some.inj he
  have hs := executionSegment_of_path hh h.ne_empty hp
  rw [executionSegment_of_path hh h'.ne_empty hp'] at hs
  exact hn (Uri.encodeURIComponent_inj (Option.some.inj hs)).symm

-- Somebody who asks for an execution by its path
def asking (host : HttpHost) (executionId : String) : IncomingMessage where
  method  := "GET"
  url     := executionPath host executionId
  headers := [("x-logon-auth-tenant", .single "t"), ("x-logon-auth-subject", .single "u")]
  body    := ⟨[], none⟩

theorem Usable.not_unknown (h : Usable host e) (hp : host.pathname (executionPath host e) = some pathname)
    (hs : executionSegment pathname = none) (ha : "/api/".toList <+: pathname.toList)
    (hn : pathname ∉ ["/health", "/api/me", "/api/executions"]) : False := by
  have ⟨principal, hr⟩ : ∃ principal, resolvePrincipal host (asking host e).headers Sample.env = .ok principal :=
    ⟨_, rfl⟩
  have := h.read _ (asking host e) principal rfl rfl hr
  rw [respond_unknown hp hr hs ha hn, resolvePrincipal_canRead hr] at this
  cases this

theorem Usable.plain (hh : host.Standard) (h : Usable host e) : Plain e where
  not_blank := fun hb => h.enqueue (if_pos hb)
  not_dot   := by
    rintro rfl
    have hp : host.pathname (executionPath host ".") = some "/api/executions/" := by
      rw [executionPath_join hh, pathname_join hh (.inl rfl)]
      rfl
    exact h.not_unknown hp (by decide) (by decide) (by decide)
  not_dots  := by
    rintro rfl
    have hp : host.pathname (executionPath host "..") = some "/api/" := by
      rw [executionPath_join hh, pathname_join hh (.inl rfl)]
      rfl
    exact h.not_unknown hp (by decide) (by decide) (by decide)

-- Ids are usable, and have paths of their own, unless they are blank or dots. `start` accepts all that are not empty.
theorem ids_are_usable (hh : host.Standard) (e e' : String) :
    Usable host e ∧ Usable host e' ∧
      (e ≠ e' → ∀ path ∈ paths host e, ∀ path' ∈ paths host e', host.pathname path ≠ host.pathname path') ↔
    Plain e ∧ Plain e' where
  mp  := fun ⟨h, h', _⟩ => ⟨h.plain hh, h'.plain hh⟩
  mpr := fun ⟨h, h'⟩ => ⟨h.usable hh, h'.usable hh, fun hn _ hp _ hp' => paths_disjoint hh h h' hn hp hp'⟩

end

namespace Sample

open Logon.Sample (request)

def parser : HttpHost :=
  { host with
    pathname           := fun url => some (Uri.pathname url)
    encodeURIComponent := Uri.encodeURIComponent
    decodeURIComponent := Uri.decodeURIComponent }

theorem parser_standard : parser.Standard :=
  ⟨rfl, rfl, fun _ _ => rfl⟩

def named (executionId : String) : ExecutionRequest :=
  { request false with identity := ⟨executionId, "t", "u", "g", "1"⟩ }

end Sample

open Logon.ControlPlane.Sample in
theorem ids_are_usable_slashed : Usable parser "a/b" ∧ Usable parser "a" ∧
    ∀ path ∈ paths parser "a/b", ∀ path' ∈ paths parser "a", parser.pathname path ≠ parser.pathname path' := by
  have h := (ids_are_usable parser_standard "a/b" "a").mpr ⟨⟨by decide, by decide, by decide⟩, by decide, by decide, by decide⟩
  exact ⟨h.left, h.right.left, h.right.right (by decide)⟩

open Logon.ControlPlane.Sample in
theorem ids_can_be_unusable :
    (∀ e ∈ [" ", ".", ".."], (named e).Valid ∧ ¬Usable parser (named e).identity.executionId) ∧
    parser.pathname (approvalPath parser ".") = parser.pathname (executionPath parser "approval") := by
  constructor
  case right => decide
  case left  =>
    intro e he
    refine ⟨by revert e; decide, fun h => ?_⟩
    have hp := h.plain parser_standard
    simp only [List.mem_cons, List.not_mem_nil, or_false] at he
    obtain rfl | rfl | rfl := he
    · exact hp.not_blank (by decide)
    · exact hp.not_dot rfl
    · exact hp.not_dots rfl

end Logon.ControlPlane
