import Logon.Library.Interference
import Logon.Lifecycle
import Logon.Twins

-- A worker that handles a job while others move its execution on.

namespace Logon

open System Program PostgresExecutionService

-- Transactions and queries that nothing goes wrong with, while clocks show times that PostgreSQL reads.
abbrev legibly : Time → Db → Ambient → Prop :=
  fun _ _ amb => Timestamp.Legible amb.dateNow

def quiet : Regime platform :=
  alone legibly fun _ amb => amb.failure = none

theorem exists_quiet (p : Process α) (pid : Pid) (g : platform.Global) : ∃ res g', p.Runs (quiet.semantics pid) g res g' :=
  exists_alone p pid (Int.le_refl g.clock) (fun _ => ⟨Sample.ambient 0 "", (by decide : Timestamp.Legible 0), rfl⟩)
    fun _ => ⟨Sample.ambient 0 "", rfl⟩

def Call.Moves : Call → Prop
  | .transition _ _ _ _ => True
  | .fail _ _ _         => True
  | _                   => False

-- What others do to executions. Handlers do no more than that either.
inductive Other (pid : Pid) : platform.Global → platform.Global → Prop
  | tick {g t} : g.clock ≤ t → Other pid g { g with clock := t }
  | call {pid' c r g g'} : pid' ≠ pid → Call.Moves c → Do quiet pid' (.inl c) g r g' → Other pid g g'

abbrev Others (pid : Pid) : platform.Global → platform.Global → Prop :=
  Relation.ReflTransGen (Other pid)

-- The status of an execution, as its log tells.
def Db.current (db : Db) (e : String) : Option ExecutionStatus :=
  (db.statuses e).getLast?

section
variable {pid : Pid} {g g' : platform.Global} {db : Db}

theorem Db.statuses_ne_nil (h : db.current e = some status) : db.statuses e ≠ [] :=
  fun hn => by simp [current, hn] at h

theorem Db.Ledger.latestEvent (h : db.Ledger) (e : String) :
    (db.latestEvent e).map (fun row => (ExecutionEvent.of row).status) = db.current e := by
  cases hf : db.executions.find e
  case none     =>
    have hn : db.statuses e = [] := h.statuses_eq_nil hf
    simp [Db.current, hn, Db.latestEvent, h.orphans hf]
  case some row =>
    rw [(h.accounts hf).numbered.latestEvent, Db.current, Db.statuses, List.getLast?_map]
    rfl

theorem Db.Ledger.current_eq (h : db.Ledger) (hf : db.executions.find e = some row) : db.current e = some row.status :=
  (h.accounts hf).current

theorem Other.advance (h : Other pid g g') : g'.db = g.db ∨ ∃ now event, Advance now g.db event g'.db := by
  cases h
  case tick => exact .inl rfl
  case call hm hd =>
    cases hd
    case throw => exact .inl rfl
    case fault => exact .inl rfl
    case commit c pid' now db' r hn _ hr =>
      have hr : c.body.Runs ((Premise.exact legibly).sem now) g.db (.ok r) db' := runs_exact hr
      have hc := c.commits hr
      cases c
      case transition => exact .inr ⟨now, _, hc.right⟩
      case fail       => exact .inr ⟨now, _, hc.right⟩
      all_goals exact hm.elim

theorem Other.ledger (h : Other pid g g') (hl : g.db.Ledger) : g'.db.Ledger := by
  obtain he | ⟨_, _, hv⟩ := h.advance
  · exact he ▸ hl
  · exact hl.advance hv

theorem Others.ledger (h : Others pid g g') (hl : g.db.Ledger) : g'.db.Ledger := by
  induction h
  case refl        => exact hl
  case tail ho ih  => exact ho.ledger ih

-- The log of an execution only grows by moves, and does not begin with them.
theorem Advance.statuses_or (h : Advance now db event db') (e : String) :
    db'.statuses e = db.statuses e ∨ db'.statuses e = db.statuses e ++ [event.status] := by
  by_cases he : e = event.executionId
  case pos => exact .inr <| he ▸ h.statuses
  case neg =>
    have ha := h.appends (e := e)
    exact .inl <| ha.same fun _ hs => he hs.left

theorem Other.statuses (h : Other pid g g') (e : String) :
    g'.db.statuses e = g.db.statuses e ∨ ∃ status, g'.db.statuses e = g.db.statuses e ++ [status] := by
  obtain he | ⟨_, event, hv⟩ := h.advance
  · exact .inl (by rw [he])
  · exact (hv.statuses_or e).imp_right fun hs => ⟨_, hs⟩

theorem Other.nil_iff (h : Other pid g g') (hl : g.db.Ledger) (e : String) :
    g'.db.statuses e = [] ↔ g.db.statuses e = [] := by
  obtain he | ⟨now, event, hv⟩ := h.advance
  · rw [he]
  · by_cases he : e = event.executionId
    case neg => rw [(hv.appends (e := e)).same fun _ hs => he hs.left]
    case pos =>
      subst he
      have hn : g.db.statuses event.executionId ≠ [] := by
        have ⟨status, ha, _⟩ := hl.accounts_advance hv
        exact ha.lifecycle.ne_nil
      simp [hv.statuses, hn]

theorem Others.nil_iff (h : Others pid g g') (hl : g.db.Ledger) (e : String) :
    g'.db.statuses e = [] ↔ g.db.statuses e = [] := by
  induction h
  case refl          => exact .rfl
  case tail hs ho ih => exact (ho.nil_iff (Others.ledger hs hl) e).trans ih

theorem Others.subset (h : Others pid g g') (e : String) : g.db.statuses e ⊆ g'.db.statuses e := by
  induction h
  case refl         => exact List.Subset.refl _
  case tail ho ih =>
    obtain he | ⟨_, he⟩ := ho.statuses e
    · exact he ▸ ih
    · exact he ▸ List.subset_append_of_subset_left _ ih

-- Each status that an execution gets is its current one at some time.
theorem Others.passes (h : Others pid g g') (hm : status ∈ g'.db.statuses e) (hn : status ∉ g.db.statuses e) :
    ∃ g₁, Others pid g g₁ ∧ Others pid g₁ g' ∧ g₁.db.current e = some status := by
  induction h
  case refl => exact absurd hm hn
  case tail g₂ g₃ hs ho ih =>
    by_cases hm₂ : status ∈ g₂.db.statuses e
    case pos =>
      have ⟨g₁, h₁, h₂, hc⟩ := ih hm₂
      exact ⟨g₁, h₁, h₂.tail ho, hc⟩
    case neg =>
      obtain he | ⟨status', he⟩ := ho.statuses e
      · exact absurd (he ▸ hm) hm₂
      · have hs' : status = status' := by
          rw [he, List.mem_append, List.mem_singleton] at hm
          exact hm.resolve_left hm₂
        exact ⟨g₃, hs.tail ho, .refl, by rw [Db.current, he, hs']; simp⟩

end

section
variable {pid : Pid} {g g' : platform.Global}

theorem latestEvent_quiet {res : Except KernelError (Option ExecutionEvent)}
    (h : (perform (.latestEvent e)).Runs (quiet.semantics pid) g res g') :
    res = .ok ((g.db.latestEvent e).map .of) ∧ g' = g := by
  obtain ⟨amb, ha, hr, hg⟩ := perform_runs h
  simp only [Action.act, ha] at hr
  refine ⟨hr, hg.trans ?_⟩
  simp only [Action.actOn, Action.act, ha]

theorem latestEvent_quiet_exists (e : String) (pid : Pid) (g : platform.Global) :
    (perform (.latestEvent e)).Runs (quiet.semantics pid) g (.ok ((g.db.latestEvent e).map .of)) g := by
  have ⟨res, g', h⟩ := exists_quiet (perform (.latestEvent e)) pid g
  obtain ⟨rfl, rfl⟩ := latestEvent_quiet h
  exact h

-- An execution is moved to `CONTEXT` from `INTAKE` only, by somebody whose id can be stored.
theorem transition_quiet {res : Except KernelError ExecutionEvent}
    (h : (Process.transition e .context actorId payload).Runs (quiet.semantics pid) g res g')
    (hl : g.db.Ledger) (hp : payload.toJson.Storable) (hc : g.db.current e = some status) :
    (∃ event, res = .ok event) ∧ status = .intake ∧ Storable actorId ∨
    res = .error (.invalidExecutionTransition status .context) ∧ status ≠ .intake ∧ g' = g ∨
    (∃ error, res = .error error ∧ error.isDatabase) ∧ status = .intake ∧ ¬Storable actorId ∧ g' = g := by
  obtain ⟨now, db', _, hr, rfl⟩ := transaction_alone h
  have ⟨row, hf⟩ := hl.exists_row (Db.statuses_ne_nil hc)
  cases (hl.current_eq hf).symm.trans hc
  by_cases hs : row.status = .intake
  case pos =>
    have ht := ExecutionStatus.canTransition_context_iff.mpr hs
    have hok := transition_ok_iff hr fun _ _ => id
    by_cases ha : Storable actorId
    case pos => exact .inl ⟨hok.mpr ⟨⟨row, hf, ht⟩, ha, hp⟩, hs, ha⟩
    case neg =>
      obtain ⟨_, _, ⟨rfl, rfl⟩, hr⟩ := Runs.after hr fun hr => PgExecutionStore.lockExecution_alone hr hf
      obtain ⟨_, _, rfl, hr⟩ := Runs.after hr fun hr => assertTransition_alone hr ht
      obtain ⟨error, rfl, hd⟩ := move_fails hr fun hs => ha hs.left
      exact .inr <| .inr ⟨⟨error, rfl, hd⟩, hs, ha, rfl⟩
  case neg =>
    have ht : ¬row.status.canTransition .context := fun ht => hs <| ExecutionStatus.canTransition_context_iff.mp ht
    obtain ⟨_, _, ⟨rfl, rfl⟩, hr⟩ := Runs.after hr fun hr => PgExecutionStore.lockExecution_alone hr hf
    obtain ⟨_, rfl, rfl⟩ := Runs.fails (Q := fun e _ => e = .invalidExecutionTransition row.status .context) hr fun hr =>
      assertTransition_fails hr ht
    exact .inr <| .inl ⟨rfl, hs, rfl⟩

end

-- The meaning of the handling of a job while others go on.
abbrev delivering (pid : Pid) : Semantics platform.outer (platform.Global × List platform.Global) KernelError :=
  (quiet.semantics pid).amid (Others pid)

section
variable {pid : Pid} {s s' : platform.Global × List platform.Global}

theorem latestEvent_delivering {res : Except KernelError (Option ExecutionEvent)}
    (h : (perform (.latestEvent e)).Runs (delivering pid) s res s') :
    Others pid s.fst s'.fst ∧ res = .ok ((s'.fst.db.latestEvent e).map .of) ∧ s'.snd = s.snd ++ [s'.fst] := by
  have ⟨g, ho, hr, hs⟩ := Runs.of_amid (fun _ _ _ => id) h
  obtain ⟨hr, rfl⟩ := latestEvent_quiet hr
  exact ⟨ho, hr, hs⟩

theorem transition_delivering {res : Except KernelError ExecutionEvent}
    (h : (Process.transition e status actorId payload).Runs (delivering pid) s res s') :
    ∃ g, Others pid s.fst g ∧ (Process.transition e status actorId payload).Runs (quiet.semantics pid) g res s'.fst ∧
      s'.snd = s.snd ++ [g] :=
  Runs.of_amid (fun _ _ _ => id) h

end

-- What a handler does when another one seems to have moved the execution.
def recover (executionId : String) : KernelError → Process Unit
  | .invalidExecutionTransition src dst => do
    let afterRace ← perform (.latestEvent executionId)
    if afterRace.map (·.status) ≠ some .context then
      Program.throw (.invalidExecutionTransition src dst)
  | error => Program.throw error

-- What handlers write about their transitions can be stored.
theorem storable_proceed : (Payload.toJson [
    ("source", .string "controlled-execution-handler"),
    ("reason", .string "Worker accepted execution and advanced controlled lifecycle")
  ]).Storable := by
  decide

def proceed (actorId executionId : String) : Process Unit := do
  let _ ← Process.transition executionId .context actorId [
    ("source", .string "controlled-execution-handler"),
    ("reason", .string "Worker accepted execution and advanced controlled lifecycle")
  ]

-- What a handler does after it has read the status of an execution.
def accept (actorId executionId : String) : Option ExecutionStatus → Process Unit
  | none           => Program.throw (.unknownExecution executionId)
  | some .approval => Program.throw (.stillRequiresApproval executionId)
  | some .intake   => (proceed actorId executionId).tryCatch (recover executionId)
  | some _         => return

theorem handler_eq (actorId executionId : String) : controlledExecutionHandler actorId executionId =
    if blank executionId then Program.throw .executionIdRequired
    else (perform (.latestEvent executionId)).bind fun latest => accept actorId executionId (latest.map (·.status)) := by
  unfold controlledExecutionHandler
  congr 1
  refine congrArg (Program.bind _) <| funext fun latest => ?_
  cases latest
  case none        => rfl
  case some latest =>
    obtain ⟨_, _, _, status, _, _, _⟩ := latest
    cases status <;> rfl

section
variable {pid : Pid} {g g' : platform.Global} {res : Except KernelError Unit}

theorem status_latestEvent (hl : g.db.Ledger) (e : String) :
    ((g.db.latestEvent e).map ExecutionEvent.of).map (·.status) = g.db.current e := by
  rw [Option.map_map]
  exact hl.latestEvent e

-- A handler that nobody interferes with.
theorem handler_quiet (hb : blank e = false) (hl : g.db.Ledger)
    (h : (accept actorId e (g.db.current e)).Runs (quiet.semantics pid) g res g') :
    (controlledExecutionHandler actorId e).Runs (quiet.semantics pid) g res g' := by
  rw [handler_eq, hb]
  exact .bind (latestEvent_quiet_exists e pid g) (status_latestEvent hl e ▸ h)

-- The first step of a handler at an execution that is in `INTAKE`.
theorem proceed_intake (hl : g.db.Ledger) (hc : g.db.current e = some .intake)
    (h : (proceed actorId e).Runs (quiet.semantics pid) g res g') :
    (∃ u, res = .ok u) ∧ Storable actorId ∨
    (∃ error, res = .error error ∧ error.isDatabase) ∧ ¬Storable actorId ∧ g' = g := by
  obtain ⟨event, _, ht, h⟩ | ⟨error, rfl, ht⟩ := runs_bind h
  case inl =>
    obtain ⟨_, _, ha⟩ | ⟨he, _⟩ | ⟨⟨_, he, _⟩, _⟩ := transition_quiet ht hl storable_proceed hc
    · exact .inl ⟨⟨_, h.left⟩, ha⟩
    all_goals cases he
  case inr =>
    obtain ⟨⟨_, he⟩, _⟩ | ⟨_, hn, _⟩ | ⟨⟨_, he, hd⟩, _, ha, hg⟩ := transition_quiet ht hl storable_proceed hc
    · cases he
    · exact absurd rfl hn
    · cases he
      exact .inr ⟨⟨error, rfl, hd⟩, ha, hg⟩

theorem recover_database {error : KernelError} (hd : error.isDatabase) (e : String) : recover e error = Program.throw error := by
  cases error
  case database => rfl
  all_goals cases hd

theorem accept_intake (hl : g.db.Ledger) (hc : g.db.current e = some .intake)
    (h : (accept actorId e (some .intake)).Runs (quiet.semantics pid) g res g') :
    (∃ u, res = .ok u) ∧ Storable actorId ∨ (∃ error, res = .error error) ∧ ¬Storable actorId ∧ g' = g := by
  obtain ⟨u, rfl, hp⟩ | ⟨error, g₁, hp, hr⟩ | ⟨_, _, _, _, _, hf⟩ := Runs.tryCatch_cases h
  case inr.inr => exact hf.elim
  case inl     =>
    obtain ⟨_, ha⟩ | ⟨⟨_, he, _⟩, _⟩ := proceed_intake hl hc hp
    · exact .inl ⟨⟨u, rfl⟩, ha⟩
    · cases he
  case inr.inl =>
    obtain ⟨⟨_, he⟩, _⟩ | ⟨⟨_, he, hd⟩, ha, rfl⟩ := proceed_intake hl hc hp
    case inl => cases he
    case inr =>
      cases he
      rw [recover_database hd] at hr
      exact .inr ⟨⟨error, hr.left⟩, ha, hr.right⟩

theorem accept_quiet_throws (hl : g.db.Ledger)
    (h : (accept actorId e (g.db.current e)).Runs (quiet.semantics pid) g (.error error) g') :
    (g.db.current e = none ∨ g.db.current e = some .approval ∨ ¬Storable actorId) ∧ g' = g := by
  cases hc : g.db.current e <;> rw [hc] at h
  case none => exact ⟨.inl rfl, h.right⟩
  case some status =>
    cases status
    case approval => exact ⟨.inr <| .inl rfl, h.right⟩
    case intake   =>
      obtain ⟨⟨_, he⟩, _⟩ | ⟨_, ha, hg⟩ := accept_intake hl hc h
      · cases he
      · exact ⟨.inr <| .inr ha, hg⟩
    all_goals cases h.left

-- A handler that nobody interferes with only throws if there is nothing to handle, or it cannot say who it is.
theorem handler_quiet_throws (hb : blank e = false) (hl : g.db.Ledger)
    (h : (controlledExecutionHandler actorId e).Runs (quiet.semantics pid) g (.error error) g') :
    (g.db.statuses e = [] ∨ g.db.current e = some .approval ∨ ¬Storable actorId) ∧ g' = g := by
  rw [handler_eq, hb] at h
  obtain h | ⟨latest, g₁, hr, h⟩ := runs_bind_error.mp h
  case inl => cases (latestEvent_quiet h).left
  case inr =>
    obtain ⟨hr, rfl⟩ := latestEvent_quiet hr
    cases hr
    rw [status_latestEvent hl] at h
    obtain ⟨hc, rfl⟩ := accept_quiet_throws hl h
    refine ⟨hc.imp_left fun hn => ?_, rfl⟩
    exact List.getLast?_eq_none_iff.mp hn

-- A handler that cannot say who it is does not move the execution on.
theorem handler_unstorable (hb : blank e = false) (hl : g.db.Ledger) (hc : g.db.current e = some .intake)
    (ha : ¬Storable actorId) (pid : Pid) :
    ∃ error, (controlledExecutionHandler actorId e).Runs (quiet.semantics pid) g (.error error) g := by
  have ⟨res, g', h⟩ := exists_quiet (accept actorId e (some .intake)) pid g
  obtain ⟨_, hs⟩ | ⟨⟨error, rfl⟩, _, rfl⟩ := accept_intake hl hc h
  · exact absurd hs ha
  · exact ⟨error, handler_quiet hb hl (hc ▸ h)⟩

theorem Others.current_isSome (h : Others pid g g') (hl : g.db.Ledger) (hc : g.db.current e = some status) :
    ∃ status', g'.db.current e = some status' := by
  have hn : g'.db.statuses e ≠ [] := fun hn => Db.statuses_ne_nil hc <| (h.nil_iff hl e).mp hn
  exact ⟨_, List.getLast?_eq_some_getLast hn⟩

-- The three ways in which a job is handled: all is settled once its execution has been read; or the handler moves the
-- execution on; or others have done so, and it reads the execution again.
inductive Delivery (pid : Pid) (actorId e : String) (g : platform.Global) :
    Except KernelError Unit → platform.Global → List platform.Global → Prop
  | read {res g₁} :
    Others pid g g₁ → (accept actorId e (g₁.db.current e)).Runs (quiet.semantics pid) g₁ res g₁ →
    Delivery pid actorId e g res g₁ [g₁]
  | moved {res g₁ g₂ g'} :
    Others pid g g₁ → Others pid g₁ g₂ → (accept actorId e (g₂.db.current e)).Runs (quiet.semantics pid) g₂ res g' →
    Delivery pid actorId e g res g' [g₁, g₂]
  | lost {res g₁ g₂ g₃} :
    Others pid g g₁ → g₁.db.current e = some .intake → Others pid g₁ g₂ → Others pid g₂ g₃ →
    (g₃.db.current e = some .context ∧ res.isOk ∨ g₃.db.current e ≠ some .context ∧ ¬res.isOk) →
    Delivery pid actorId e g res g₃ [g₁, g₂, g₃]

theorem handler_delivering {s' : platform.Global × List platform.Global} (hb : blank e = false) (hl : g.db.Ledger)
    (h : (controlledExecutionHandler actorId e).Runs (delivering pid) (g, []) res s') :
    Delivery pid actorId e g res s'.fst s'.snd := by
  rw [handler_eq, hb] at h
  obtain ⟨latest, s₁, hr, h⟩ | ⟨_, _, hr⟩ := runs_bind h
  case inr => cases (latestEvent_delivering hr).right.left
  case inl =>
    obtain ⟨ho, hr, hs⟩ := latestEvent_delivering hr
    cases hr
    have hl₁ := Others.ledger ho hl
    rw [status_latestEvent hl₁] at h
    obtain ⟨g₁, points⟩ := s₁
    obtain rfl : points = [g₁] := hs
    by_cases hi : g₁.db.current e = some .intake
    case neg =>
      have hr : (accept actorId e (g₁.db.current e)).Runs (quiet.semantics pid) g₁ res g₁ ∧ s' = (g₁, [g₁]) := by
        dsimp only at h
        cases hc : g₁.db.current e <;> rw [hc] at h
        case none => exact ⟨⟨h.left, rfl⟩, h.right⟩
        case some status =>
          cases status
          case intake => exact absurd hc hi
          all_goals exact ⟨⟨h.left, rfl⟩, h.right⟩
      obtain ⟨hr, rfl⟩ := hr
      exact .read ho hr
    case pos =>
      dsimp only at h
      rw [hi] at h
      obtain ⟨u, rfl, hok⟩ | ⟨error, s₂, h, hc⟩ | ⟨_, _, _, _, _, hf⟩ := Runs.tryCatch_cases h
      case inr.inr => exact hf.elim
      case inl =>
        obtain ⟨event, s₂, ht, _, rfl⟩ := runs_bind_ok.mp hok
        have ⟨g₂, ho₂, ht, hs⟩ := transition_delivering ht
        have ⟨status, hc⟩ := Others.current_isSome ho₂ hl₁ hi
        obtain ⟨_, rfl, _⟩ | ⟨he, _⟩ | ⟨⟨_, he, _⟩, _⟩ :=
          transition_quiet ht (Others.ledger ho₂ hl₁) storable_proceed hc
        case inr.inl => cases he
        case inr.inr => cases he
        case inl =>
          rw [hs]
          refine .moved ho ho₂ ?_
          rw [hc]
          exact .tryCatch_ok <| runs_bind_ok.mpr ⟨event, _, ht, rfl, rfl⟩
      case inr.inl =>
        obtain ht | ⟨_, _, _, h⟩ := runs_bind_error.mp h
        case inr => cases h.left
        case inl =>
          have ⟨g₂, ho₂, ht, hs⟩ := transition_delivering ht
          have ⟨status, hst⟩ := Others.current_isSome ho₂ hl₁ hi
          obtain ⟨⟨_, he⟩, _⟩ | ⟨he, hn, hg⟩ | ⟨⟨_, he, hd⟩, rfl, _⟩ :=
            transition_quiet ht (Others.ledger ho₂ hl₁) storable_proceed hst
          case inl => cases he
          case inr.inr =>
            cases he
            rw [recover_database hd] at hc
            obtain ⟨rfl, rfl⟩ := hc
            rw [hs]
            refine .moved ho ho₂ ?_
            rw [hst]
            refine .tryCatch_error (fun _ _ _ => id) (runs_bind_error.mpr <| .inl ht) ?_
            rw [recover_database hd]
            exact ⟨rfl, rfl⟩
          case inr.inl =>
            cases he
            obtain ⟨afterRace, s₃, hr, h⟩ | ⟨_, _, hr⟩ := runs_bind hc
            case inr => cases (latestEvent_delivering hr).right.left
            case inl =>
              obtain ⟨ho₃, hr, hs₃⟩ := latestEvent_delivering hr
              cases hr
              rw [hg] at ho₃
              have hl₃ := Others.ledger ho₃ <| Others.ledger ho₂ hl₁
              rw [status_latestEvent hl₃] at h
              have hp : s₃.snd = [g₁, g₂, s₃.fst] := by rw [hs₃, hs]; rfl
              split at h
              case isTrue hn =>
                obtain ⟨rfl, rfl⟩ := h
                rw [hp]
                exact .lost ho hi ho₂ ho₃ <| .inr ⟨hn, Bool.false_ne_true⟩
              case isFalse hn =>
                obtain ⟨rfl, rfl⟩ := h
                rw [hp]
                exact .lost ho hi ho₂ ho₃ <| .inl ⟨not_not.mp hn, rfl⟩

theorem Others.mem (h : Others pid g g') (hc : g.db.current e = some status) : status ∈ g'.db.statuses e :=
  h.subset e <| List.mem_of_getLast? hc

-- An execution that is in `INTAKE` has not been anywhere else.
theorem Db.Ledger.not_mem_of_intake (hl : g.db.Ledger) (hc : g.db.current e = some .intake) :
    .approval ∉ g.db.statuses e := by
  intro hm
  have ⟨row, hf⟩ := hl.exists_row (Db.statuses_ne_nil hc)
  exact absurd ((hl.accounts hf).lifecycle.rank_le_last hc hm) (by decide)

-- A handler that has moved past its race is as if it had not been in it, if there is a time at which it would throw.
theorem Delivery.linearizable_iff (h : Delivery pid actorId e g res g' points) (hb : blank e = false) (hl : g.db.Ledger) :
    Linearizable (quiet.semantics pid) (Others pid) (controlledExecutionHandler actorId e) g res g' ↔
    (Storable actorId →
      ∀ g₃, points[2]? = some g₃ → g₃.db.current e = some .context ∨ .approval ∈ g₃.db.statuses e) := by
  cases h
  case read ho hr  =>
    exact ⟨fun _ _ => nofun, fun _ => ⟨_, _, _, ho, handler_quiet hb (Others.ledger ho hl) hr, .refl, rfl⟩⟩
  case moved g₁ g₂ ho ho₂ hr =>
    have ho₂ := ho.trans ho₂
    exact ⟨fun _ _ => nofun, fun _ => ⟨_, _, _, ho₂, handler_quiet hb (Others.ledger ho₂ hl) hr, .refl, rfl⟩⟩
  case lost g₁ g₂ ho hi ho₂ ho₃ hres =>
    have ho₂₃ := ho₂.trans ho₃
    have ho' := ho.trans ho₂₃
    have hl' := Others.ledger ho' hl
    have at_end {status : ExecutionStatus} {res' : Except KernelError Unit} (hc : g'.db.current e = some status)
        (hr : (accept actorId e (some status)).Runs (quiet.semantics pid) g' res' g') (he : res'.isOk = res.isOk) :
        Linearizable (quiet.semantics pid) (Others pid) (controlledExecutionHandler actorId e) g res g' :=
      ⟨g', res', g', ho', handler_quiet hb hl' (hc ▸ hr), .refl, he⟩
    constructor
    case mpr =>
      intro hp
      obtain ⟨hc, hok⟩ | ⟨hn, hok⟩ := hres
      case inl =>
        have hr : (accept actorId e (some .context)).Runs (quiet.semantics pid) g' (.ok ()) g' := ⟨rfl, rfl⟩
        exact at_end hc hr hok.symm
      case inr =>
        have hl₁ := Others.ledger ho hl
        have throws {g₀ error} (h₁ : Others pid g g₀) (h₂ : Others pid g₀ g')
            (hr : (controlledExecutionHandler actorId e).Runs (quiet.semantics pid) g₀ (.error error) g₀) :
            Linearizable (quiet.semantics pid) (Others pid) (controlledExecutionHandler actorId e) g res g' := by
          refine ⟨g₀, _, g₀, h₁, hr, h₂, ?_⟩
          cases res
          case ok    => exact absurd rfl hok
          case error => rfl
        by_cases ha : Storable actorId
        case neg =>
          have ⟨error, hr⟩ := handler_unstorable hb hl₁ hi ha pid
          exact throws ho ho₂₃ hr
        case pos =>
          have hm := (hp ha g' rfl).resolve_left hn
          have ⟨g₀, h₁, h₂, hc⟩ := Others.passes ho₂₃ hm (hl₁.not_mem_of_intake hi)
          have hr : (accept actorId e (some .approval)).Runs (quiet.semantics pid) g₀ (.error (.stillRequiresApproval e)) g₀ :=
            ⟨rfl, rfl⟩
          have ho₀ := ho.trans h₁
          exact throws ho₀ h₂ <| handler_quiet hb (Others.ledger ho₀ hl) (hc ▸ hr)
    case mp =>
      intro ⟨g₀, res', g₀', h₁, hr, h₂, he⟩ ha g₃ hg
      cases Option.some.inj hg
      obtain ⟨hc, _⟩ | ⟨_, hok⟩ := hres
      case inl => exact .inl hc
      case inr =>
        cases res'
        case ok         => exact absurd he.symm hok
        case error error =>
          obtain ⟨hn | hc | hn, rfl⟩ := handler_quiet_throws hb (Others.ledger h₁ hl) hr
          · have hn := (Others.nil_iff h₁ hl e).mp hn
            exact absurd ((Others.nil_iff ho hl e).mpr hn) (Db.statuses_ne_nil hi)
          · exact .inr <| Others.mem h₂ hc
          · exact absurd ha hn

end

section
variable {pid : Pid} {g g' : platform.Global}

-- Others can let an execution fail.
theorem Other.exists_failed (pid : Pid) (hf : g.db.executions.find e = some row)
    (ht : ¬row.status.Terminal) : ∃ g', Other pid g g' ∧ g'.db.statuses e = g.db.statuses e ++ [.failed] := by
  have ⟨res, g', h⟩ := exists_quiet (Process.fail e "operator" "stop") (pid + 1) g
  obtain ⟨r, g₁, hd, h⟩ | ⟨_, _, h⟩ := runs_bind h
  case inr =>
    obtain ⟨_, _, _, h⟩ | ⟨_, hf, _⟩ := h
    · cases h.left
    · exact hf.elim
  case inl =>
    have hd := runs_perform_ok.mp hd
    have hm : Call.Moves (.fail e "operator" "stop") := trivial
    have ho : Other pid g g₁ := .call (Nat.succ_ne_self pid) hm hd
    refine ⟨g₁, ho, ?_⟩
    cases hd
    case fault hf   => exact hf.elim
    case throw hr   =>
      have ⟨_, he⟩ := (fail_ok_iff hr fun _ _ => id).mpr ⟨⟨row, hf, ht⟩, by decide, by decide⟩
      cases he
    case commit now db' r hn _ hr =>
      have hr : (Call.fail e "operator" "stop").body.Runs ((Premise.exact legibly).sem now) g.db (.ok r) db' :=
        runs_exact hr
      obtain ⟨⟨_, _, rfl⟩, hv⟩ := Call.commits _ hr
      exact hv.statuses

-- The execution fails between the two queries of its handler.
theorem handler_slips (actorId : String) (pid : Pid) (hb : blank e = false) (hl : g.db.Ledger) (hf : g.db.executions.find e = some row)
    (hs : row.status = .intake) : ∃ error g', g'.db.statuses e = g.db.statuses e ++ [.failed] ∧
    (controlledExecutionHandler actorId e).Runs (delivering pid) (g, []) (.error error) (g', [g, g', g']) := by
  have hc : g.db.current e = some .intake := hs ▸ hl.current_eq hf
  have ⟨g', ho, hst⟩ := Other.exists_failed pid hf (by rw [hs]; decide)
  have hc' : g'.db.current e = some .failed := by simp [Db.current, hst]
  have hl' := ho.ledger hl
  have ⟨res, g₂, ht⟩ := exists_quiet (Process.transition e .context actorId [
    ("source", .string "controlled-execution-handler"),
    ("reason", .string "Worker accepted execution and advanced controlled lifecycle")
  ]) pid g'
  obtain ⟨_, he, _⟩ | ⟨rfl, _, rfl⟩ | ⟨_, he, _⟩ := transition_quiet ht hl' storable_proceed hc'
  case inl     => cases he
  case inr.inr => cases he
  case inr.inl =>
    refine ⟨.invalidExecutionTransition .failed .context, g₂, hst, ?_⟩
    rw [handler_eq, hb]
    refine .bind (.to_amid (fun _ _ _ => id) .refl (latestEvent_quiet_exists e pid g)) ?_
    rw [status_latestEvent hl, hc]
    have ho : Others pid (g, [g]).fst g₂ := Relation.ReflTransGen.single ho
    refine .tryCatch_error (fun _ _ _ => id) (runs_bind_error.mpr <| .inl <| .to_amid (fun _ _ _ => id) ho ht) ?_
    refine .bind (.to_amid (fun _ _ _ => id) .refl (latestEvent_quiet_exists e pid g₂)) ?_
    rw [status_latestEvent hl', hc']
    exact ⟨rfl, rfl⟩

end

namespace Sample

-- An execution that does not wait for an approval.
def begun : platform.State :=
  reach unchecked <| transact 0 (started false none) 0 "a" 8

theorem begun_reachable : Reachable Guard.any begun :=
  have h : Reachable Guard.any (reach unchecked <| transact 0 (started false none) 0 "a" 8) :=
    reach_reachable fun _ _ _ _ => trivial
  h

-- It fails while it is handled.
theorem begun_slips : ∃ row, begun.db.executions.find "e" = some row ∧ row.status = .intake :=
  ⟨_, rfl, rfl⟩

theorem blank_e : blank "e" = false := by
  decide

end Sample

-- The handling of a job is linearizable if and only if it does not read its execution again, or finds it in `CONTEXT` then,
-- or the execution has been in `APPROVAL` by then, or the handler cannot say who it is.
theorem deliveries_are_linearizable {s : platform.State} {s' : platform.Global × List platform.Global} (h : Reachable G s)
    (hr : (controlledExecutionHandler actorId e).Runs (delivering pid) (s.toGlobal, []) res s') :
    Linearizable (quiet.semantics pid) (Others pid) (controlledExecutionHandler actorId e) s.toGlobal res s'.fst ↔
    (Storable actorId → ∀ g, s'.snd[2]? = some g → g.db.current e = some .context ∨ .approval ∈ g.db.statuses e) := by
  cases hb : blank e
  case false => exact (handler_delivering hb h.ledger hr).linearizable_iff hb h.ledger
  case true  =>
    rw [handler_eq, hb] at hr ⊢
    obtain ⟨rfl, rfl⟩ := hr
    exact ⟨fun _ _ => nofun, fun _ => ⟨_, _, _, .refl, ⟨rfl, rfl⟩, .refl, rfl⟩⟩

theorem deliveries_are_linearizable_slipped : ∃ error g', (controlledExecutionHandler "w" "e").Runs (delivering 1)
      (Sample.begun.toGlobal, []) (.error error) (g', [Sample.begun.toGlobal, g', g']) ∧
    (Linearizable (quiet.semantics 1) (Others 1) (controlledExecutionHandler "w" "e") Sample.begun.toGlobal
        (.error error) g' ↔
      (Storable "w" → ∀ g, [Sample.begun.toGlobal, g', g'][2]? = some g →
        g.db.current "e" = some .context ∨ .approval ∈ g.db.statuses "e")) := by
  have ⟨_, hf, hs⟩ := Sample.begun_slips
  have hl := Sample.begun_reachable.ledger
  have ⟨error, g', _, hr⟩ := handler_slips "w" 1 Sample.blank_e hl hf hs
  have h := deliveries_are_linearizable Sample.begun_reachable hr
  exact ⟨error, g', hr, h⟩

-- An execution that does not wait for an approval fails after its handler has read it. If the job had been handled before
-- that or after it, the handler would not have thrown.
theorem deliveries_can_lose_to_fail : ∃ (s : platform.State) (error : KernelError) (g' : platform.Global),
    Reachable Guard.any s ∧ s.db.current "e" = some .intake ∧
    (controlledExecutionHandler "w" "e").Runs (delivering 1) (s.toGlobal, []) (.error error) (g', [s.toGlobal, g', g']) ∧
    ¬Linearizable (quiet.semantics 1) (Others 1) (controlledExecutionHandler "w" "e") s.toGlobal (.error error) g' := by
  have hl := Sample.begun_reachable.ledger
  have ⟨_, hf, hs⟩ := Sample.begun_slips
  have ⟨error, g', hst, hr⟩ := handler_slips "w" 1 Sample.blank_e hl hf hs
  have hc : Sample.begun.db.current "e" = some .intake := hs ▸ hl.current_eq hf
  refine ⟨Sample.begun, error, g', Sample.begun_reachable, hc, hr, fun h => ?_⟩
  have hd := handler_delivering Sample.blank_e hl hr
  obtain hc' | hm := (hd.linearizable_iff Sample.blank_e hl).mp h (by decide) g' rfl
  · simp [Db.current, hst] at hc'
  · rw [hst, List.mem_append] at hm
    exact hm.elim (hl.not_mem_of_intake hc) (by decide)

end Logon
