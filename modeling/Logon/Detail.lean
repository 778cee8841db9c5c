import Mathlib.Data.String.Basic
import Logon.ControlPlane.Server
import Logon.Gate

-- What the API shows of an execution while the platform goes on.

namespace Logon

theorem ExecutionStatus.text_inj {status status' : ExecutionStatus} : status.text = status'.text ↔ status = status' where
  mp h  := by cases status <;> cases status' <;> first | rfl | simp [text] at h
  mpr h := congrArg text h

-- The event log of an execution is only appended to.
theorem Reachable.eventsOf_append {G : Guard} {s s' : platform.State} (h : Reachable G s) (hs : System.Steps G s s') (e : String) :
    ∃ later, s'.db.eventsOf e = s.db.eventsOf e ++ later := by
  obtain ⟨later, ha⟩ := (h.atomicSteps hs G.meets_none).grows.events e
  exact ⟨later, ha.symm⟩

theorem Db.Accounts.insertionSort_eventsOf (h : Db.Accounts db e status) :
    ((db.eventsOf e).insertionSort (·.sequence ≤ ·.sequence)).take 1000 = db.eventsOf e := by
  have hs : (db.eventsOf e).Pairwise (·.sequence ≤ ·.sequence) := by
    rw [← List.pairwise_map (R := (· ≤ ·)), h.numbered]
    exact (List.pairwise_lt_range' ..).imp Nat.le_of_lt
  rw [hs.insertionSort_eq]
  refine List.take_of_length_le ?_
  have hl : (db.statuses e).length = (db.eventsOf e).length := List.length_map _
  have := h.lifecycle.length_le
  omega

namespace ControlPlane

open Program System

def member (name : String) : Json → Option Json
  | .object ms => ms.lookup name
  | _          => none

def items : Json → List Json
  | .array vs => vs
  | _         => []

-- The status of the execution that a response shows, and those of its events.
def shownStatus (json : Json) : Option Json :=
  (member "execution" json).bind (member "status")

def shownStatuses (json : Json) : List (Option Json) :=
  (((member "events" json).map items).getD []).map (member "status")

-- The platform, and the tables that it does not use.
structure Site where
  state       : platform.State
  evidence    : Table EvidenceRow.evidenceId
  permissions : Table ToolPermissionRow.key

def Site.db (s : Site) : ControlDb :=
  { s.state.db with evidence := s.evidence, permissions := s.permissions }

-- A query sees what is committed when it runs.
inductive Answers (s : Site) : (o : WebOp) → o.Reply → Prop
  | rows {q : Query} (order : RowOrder) : Answers s (.query q) (.ok (q.rows order s.db))
  | outage {q : Query} (text : String)  : Answers s (.query q) (.error text)

-- The meaning of the handling of a request while the platform goes on.
def amid (G : Guard) : Semantics web Site WebError where
  step o s r s' := Steps G s.state s'.state ∧ Answers s' o r
  fails _ _ _   := False

section
variable {G : Guard} {s s' : Site} {q : Query}

theorem pool_amid (h : (pool q).Runs (amid G) s (.ok rows) s') :
    Steps G s.state s'.state ∧ ∃ order, rows = q.rows order s'.db := by
  obtain ⟨res, s₁, hp, hr⟩ := runs_bind_ok.mp h
  have ⟨hs, ha⟩ := runs_perform_ok.mp hp
  cases ha
  case outage => cases hr.left
  case rows order =>
    obtain ⟨hr, rfl⟩ := hr
    cases hr
    exact ⟨hs, order, rfl⟩

theorem pool_amid_exists (order : RowOrder) (hs : Steps G s.state s'.state) :
    (pool q).Runs (amid G) s (.ok (q.rows order s'.db)) s' :=
  runs_bind_ok.mpr ⟨_, s', runs_perform_ok.mpr ⟨hs, .rows order⟩, rfl, rfl⟩

-- The response for an execution that is found.
structure Shows (e : String) (s₁ s₂ : Site) (json : Json) : Prop where
  execution : ∃ row, s₁.state.db.executions.find e = some row ∧ member "execution" json = some (executionJson row)
  events    : ∃ order, member "events" json = some (.array (((Query.selectEvents e).rows order s₂.db).map eventJson))

theorem getExecution_amid (h : (getExecution t e).Runs (amid G) s (.ok json) s') :
    ∃ s₁ s₂ : Site, Steps G s.state s₁.state ∧ Steps G s₁.state s₂.state ∧ Steps G s₂.state s'.state ∧
      Shows e s₁ s₂ json := by
  obtain ⟨rows, s₁, hp, h⟩ := runs_bind_ok.mp h
  obtain ⟨hs, order, rfl⟩ := pool_amid hp
  split at h
  case h_1 => cases h.left
  case h_2 execution rest hx =>
    obtain ⟨_, s₂, hp, h⟩ := runs_bind_ok.mp h
    obtain ⟨hs₁, order', rfl⟩ := pool_amid hp
    obtain ⟨_, s₃, hp, h⟩ := runs_bind_ok.mp h
    have ⟨hs₂, _⟩ := pool_amid hp
    obtain ⟨_, s₄, hp, h⟩ := runs_bind_ok.mp h
    have ⟨hs₃, _⟩ := pool_amid hp
    obtain ⟨_, s₅, hp, h⟩ := runs_bind_ok.mp h
    have ⟨hs₄, _⟩ := pool_amid hp
    obtain ⟨_, s₆, hp, h⟩ := runs_bind_ok.mp h
    have ⟨hs₅, _⟩ := pool_amid hp
    obtain ⟨_, s₇, hp, h⟩ := runs_bind_ok.mp h
    have ⟨hs₆, _⟩ := pool_amid hp
    obtain ⟨hj, rfl⟩ := h
    cases hj
    refine ⟨s₁, s₂, hs, hs₁, hs₂.trans <| hs₃.trans <| hs₄.trans <| hs₅.trans hs₆, ?_, order', ?_⟩
    case refine_1 =>
      have hm : execution ∈ (Query.selectExecution e t).rows order s₁.db := hx ▸ List.mem_cons_self
      have ⟨hf, _⟩ := Option.filter_eq_some_iff.mp <| Option.mem_toList.mp hm
      exact ⟨execution, hf, rfl⟩
    case refine_2 => rfl

-- The other queries may all run right after that for the events.
theorem getExecution_exists (order : RowOrder) (hs : Steps G s.state s₁.state) (hs₁ : Steps G s₁.state s₂.state)
    (hf : s₁.state.db.executions.find e = some row) (ht : row.tenantId = t) :
    ∃ json, (getExecution t e).Runs (amid G) s (.ok json) s₂ ∧ Shows e s₁ s₂ json := by
  have hr : (Query.selectExecution e t).rows order s₁.db = [row] := by
    have hf : s₁.db.executions.find e = some row := hf
    simp [Query.rows, hf, ht]
  have hp := hr ▸ pool_amid_exists (q := .selectExecution e t) order hs
  apply Exists.intro
  constructor
  case left =>
    exact runs_bind_ok.mpr ⟨_, s₁, hp, runs_bind_ok.mpr ⟨_, s₂, pool_amid_exists order hs₁,
      runs_bind_ok.mpr ⟨_, s₂, pool_amid_exists order .refl, runs_bind_ok.mpr ⟨_, s₂, pool_amid_exists order .refl,
      runs_bind_ok.mpr ⟨_, s₂, pool_amid_exists order .refl, runs_bind_ok.mpr ⟨_, s₂, pool_amid_exists order .refl,
      runs_bind_ok.mpr ⟨_, s₂, pool_amid_exists order .refl, rfl, rfl⟩⟩⟩⟩⟩⟩⟩
  case right => exact ⟨⟨row, hf, rfl⟩, order, rfl⟩

theorem shownStatuses_of {rows : List EventRow} (h : member "events" json = some (.array (rows.map eventJson))) :
    shownStatuses json = (rows.map (·.status)).map fun status => some (.string status.text) := by
  simp only [shownStatuses, h, Option.map_some, items, Option.getD_some, List.map_map]
  rfl

theorem shownStatus_of (h : member "execution" json = some (executionJson row)) :
    shownStatus json = some (.string row.status.text) := by
  rw [shownStatus, h]
  rfl

theorem Shows.of_ledger (h : Shows e s₁ s₂ json) (hl : s₁.state.db.Ledger) (hl' : s₂.state.db.Ledger)
    (ha : s₂.state.db.eventsOf e = s₁.state.db.eventsOf e ++ later) :
    (∃ row event, s₁.state.db.executions.find e = some row ∧ (s₁.state.db.eventsOf e).getLast? = some event ∧
      row.status = event.status ∧ member "execution" json = some (executionJson row)) ∧
    member "events" json = some (.array ((s₂.state.db.eventsOf e).map eventJson)) := by
  obtain ⟨row, hf, hx⟩ := h.execution
  have hc := (hl.accounts hf).current
  rw [Db.statuses, List.getLast?_map, Option.map_eq_some_iff] at hc
  obtain ⟨event, he, hs⟩ := hc
  obtain ⟨order, hv⟩ := h.events
  have hn : s₂.state.db.statuses e ≠ [] := by
    have hn : s₂.state.db.eventsOf e ≠ [] := by
      rw [ha]
      exact List.append_ne_nil_of_left_ne_nil (List.ne_nil_of_mem <| List.mem_of_getLast? he) _
    exact fun hs => hn <| List.map_eq_nil_iff.mp hs
  obtain ⟨row', hf'⟩ := hl'.exists_row hn
  have hr : (Query.selectEvents e).rows order s₂.db = s₂.state.db.eventsOf e :=
    (hl'.accounts hf').insertionSort_eventsOf
  exact ⟨⟨row, event, hf, he, hs.symm, hx⟩, hr ▸ hv⟩

end

-- A response shows the event log of the execution as it is when it is queried, and the execution with the status of the
-- last event of the log as it was when the execution was queried. The status is the last one that is shown if and only
-- if no event has been appended in between.
theorem details_show_their_past {G : Guard} {s s' : Site} (h : Reachable G s.state)
    (hr : (getExecution t e).Runs (amid G) s (.ok json) s') :
    ∃ (s₁ s₂ : platform.State) (later : List EventRow), Steps G s.state s₁ ∧ Steps G s₁ s₂ ∧ Steps G s₂ s'.state ∧
      s₂.db.eventsOf e = s₁.db.eventsOf e ++ later ∧
      member "events" json = some (.array ((s₂.db.eventsOf e).map eventJson)) ∧
      (∃ row event, s₁.db.executions.find e = some row ∧ (s₁.db.eventsOf e).getLast? = some event ∧
        row.status = event.status ∧ member "execution" json = some (executionJson row)) ∧
      (shownStatus json = (shownStatuses json).getLast?.join ↔ later = []) := by
  obtain ⟨s₁, s₂, hs₁, hs₂, hs', hsh⟩ := getExecution_amid hr
  have hr₁ := h.trans hs₁
  have hr₂ := hr₁.trans hs₂
  obtain ⟨later, ha⟩ := hr₁.eventsOf_append hs₂ e
  obtain ⟨⟨row, event, hf, hl, hst, hx⟩, hv⟩ := hsh.of_ledger hr₁.ledger hr₂.ledger ha
  refine ⟨s₁.state, s₂.state, later, hs₁, hs₂, hs', ha, hv, ⟨row, event, hf, hl, hst, hx⟩, ?_⟩
  rw [shownStatus_of hx, hst, shownStatuses_of hv, List.getLast?_map, List.getLast?_map, ha]
  constructor
  case mpr =>
    rintro rfl
    rw [List.append_nil, hl]
    rfl
  case mp =>
    intro he
    -- No status occurs twice in a log.
    by_contra hn
    have ⟨last, hm⟩ : ∃ last, later.getLast? = some last := ⟨_, List.getLast?_eq_some_getLast hn⟩
    rw [List.getLast?_append, hm] at he
    simp only [Option.some_or, Option.map_some, Option.join_some, Option.some.injEq, Json.string.injEq] at he
    have he := ExecutionStatus.text_inj.mp he
    have hs : s₂.state.db.statuses e = s₁.state.db.statuses e ++ later.map (·.status) := by
      rw [Db.statuses, ha, List.map_append]
      rfl
    have hx : s₂.state.db.statuses e ≠ [] := by
      rw [hs]
      exact List.append_ne_nil_of_right_ne_nil _ <| mt List.map_eq_nil_iff.mp hn
    obtain ⟨row, hf⟩ := hr₂.ledger.exists_row hx
    have hd := (hr₂.ledger.accounts hf).lifecycle.nodup
    rw [hs] at hd
    exact List.disjoint_of_nodup_append hd (List.mem_map_of_mem <| List.mem_of_getLast? hl)
      (he ▸ List.mem_map_of_mem (List.mem_of_getLast? hm))

namespace Sample

def started : List platform.Label :=
  Logon.Sample.transact 0 (Logon.Sample.started false none) 0 "a" 8

def moved : List platform.Label :=
  Logon.Sample.transact 1 (Logon.Sample.moved .context) 5 "" 5

-- An execution before and after it is moved on.
def intake : Site :=
  ⟨reach Logon.Sample.unchecked started, .empty, .empty⟩

def context : Site :=
  ⟨follow Logon.Sample.unchecked moved intake.state, .empty, .empty⟩

theorem intake_reachable : Reachable Guard.any intake.state :=
  have h : Reachable Guard.any (reach Logon.Sample.unchecked started) := reach_reachable fun _ _ _ _ => trivial
  h

theorem intake_steps : Steps Guard.any intake.state context.state :=
  have h : Steps Guard.any intake.state (follow Logon.Sample.unchecked moved intake.state) :=
    follow_steps fun _ _ _ _ => trivial
  h

-- The execution is moved on while its details are read.
theorem getExecution_moved : ∃ json,
    (getExecution "t" "e").Runs (amid Guard.any) intake (.ok json) context ∧ Shows "e" intake context json :=
  getExecution_exists ⟨fun _ => inferInstance, inferInstance⟩ .refl intake_steps rfl rfl

end Sample

open Logon.ControlPlane.Sample in
theorem details_show_their_past_moved : ∃ json, ∃ s₁ s₂ : platform.State, ∃ later,
    (getExecution "t" "e").Runs (amid Guard.any) intake (.ok json) context ∧
    s₂.db.eventsOf "e" = s₁.db.eventsOf "e" ++ later ∧
    member "events" json = some (.array ((s₂.db.eventsOf "e").map eventJson)) ∧
    (shownStatus json = (shownStatuses json).getLast?.join ↔ later = []) := by
  have ⟨json, hr, _⟩ := getExecution_moved
  have ⟨s₁, s₂, later, _, _, _, ha, hv, _, hi⟩ := details_show_their_past intake_reachable hr
  exact ⟨json, s₁, s₂, later, hr, ha, hv, hi⟩

open Logon.ControlPlane.Sample in
theorem details_can_be_torn : ∃ (s s' : Site) (json : Json), Reachable Guard.any s.state ∧
    (getExecution "t" "e").Runs (amid Guard.any) s (.ok json) s' ∧
    shownStatus json = some (.string "INTAKE") ∧
    shownStatuses json = [some (.string "INTAKE"), some (.string "CONTEXT")] := by
  have ⟨json, hr, hs⟩ := getExecution_moved
  have hr' := intake_reachable.trans intake_steps
  have ⟨later, ha⟩ := intake_reachable.eventsOf_append intake_steps "e"
  have ⟨⟨row, event, _, hl, hst, hx⟩, hv⟩ := hs.of_ledger intake_reachable.ledger hr'.ledger ha
  have hi : (intake.state.db.eventsOf "e").getLast?.map (·.status) = some .intake := by decide +kernel
  have hc : (context.state.db.eventsOf "e").map (·.status) = [.intake, .context] := by decide +kernel
  refine ⟨intake, context, json, intake_reachable, hr, ?_, ?_⟩
  · rw [hl, Option.map_some, Option.some.injEq] at hi
    rw [shownStatus_of hx, hst, hi]
    rfl
  · rw [shownStatuses_of hv, hc]
    rfl

end ControlPlane
end Logon
