import Logon.Kernel.Pool

-- Clients are released once, and without an open transaction.

namespace Logon
namespace Pool

open Program

variable {S R ε T : Type}

def Ended : Code S R ε T → Prop
  | .pure _  => True
  | .throw _ => True
  | .op _ _  => False

-- What is left of a transaction that is over, of one that has to be rolled back, and of one whose work
-- is not done yet.

def finish (client : Client) (res : Except ε T) : Code S R ε T :=
  .op (.release client) fun _ => .ofExcept res

def cleanup (client : Client) (e : ε) : Code S R ε T :=
  .op (.query client .rollback) fun _ => finish client (.error e)

def working (client : Client) : Work S R ε T → Code S R ε T
  | .pure a => .op (.query client .commit) fun
    | .ok _    => finish client (.ok a)
    | .error e => cleanup client e
  | .throw e => cleanup client e
  | .op s k  => .op (.query client (.statement s)) fun r => working client (k r)

-- What is done when a transaction fails
abbrev rollback (client : Client) (e : ε) : Code S R ε T := do
  Program.tryCatch (do let _ ← query client .rollback) fun _ => return ()
  Program.throw e

theorem rollback_eq (client : Client) (e : ε) :
    Program.tryFinally (rollback client e) (perform (.release client)) = (cleanup client e : Code S R ε T) := by
  refine @op_congr (ops S R ε) ε T (.query client .rollback) _ _ fun r => ?_
  cases r <;> rfl

theorem working_eq (client : Client) (work : Work S R ε T) :
    Program.tryFinally (Program.tryCatch
      ((onClient client work).bind fun result => (query client .commit).bind fun _ => .pure result) (rollback client))
      (perform (.release client)) =
    (working client work : Code S R ε T) := by
  induction work
  case pure a =>
    refine @op_congr (ops S R ε) ε T (.query client .commit) _ _ fun r => ?_
    cases r
    case ok    => rfl
    case error => exact rollback_eq client _
  case throw e   => exact rollback_eq client e
  case op s k ih => exact @op_congr (ops S R ε) ε T (.query client (.statement s)) _ _ ih

theorem withTransaction_eq (work : Work S R ε T) : withTransaction work = .op .connect fun
    | .error e   => .throw e
    | .ok client => .op (.query client .begin) fun
      | .ok _    => working client work
      | .error e => cleanup client e := by
  refine @op_congr (ops S R ε) ε T .connect _ _ fun r => ?_
  cases r
  case error     => rfl
  case ok client =>
    refine @op_congr (ops S R ε) ε T (.query client .begin) _ _ fun r => ?_
    cases r
    case ok    => exact working_eq client work
    case error => exact rollback_eq client _

-- What a call that holds a client may still do with it: it does not leave transactions, releases the
-- client once, and only if no transaction is open on it.
def Held (id : CallId) (client : Client) : Code S R ε T → Session S → Prop
  | .op (.query client' command) k, session =>
    client' = client ∧ (session = .idle → ∀ s, command ≠ .statement s) ∧
    ∀ fate : Fate R ε, fate.possible command session → (command = .rollback → session ≠ .idle → fate.reaches) →
      Held id client (k fate.reply) (fate.execute id command session).fst
  | .op (.release client') k, session => client' = client ∧ session = .idle ∧ Ended (k ())
  | _, _ => False

section
variable {id : CallId} {client : Client} {session : Session S}

-- Pending statements are those of earlier commands, or of this one.
theorem Fate.mem_pending {fate : Fate R ε} {command : Command S}
    (hp : p ∈ (fate.execute id command session).fst.pending) : p ∈ session.pending ∨ p.fst = id := by
  have of (b : Bool) (hp : p ∈ (session.execute id b command).fst.pending) : p ∈ session.pending ∨ p.fst = id := by
    cases command <;> cases session <;> cases b <;> simp_all [Session.execute, Session.pending]
    grind
  cases fate
  case answered       => exact of false hp
  case refused        => exact of true hp
  case unsent         => exact .inl hp
  case unanswered b _ => exact of b hp

-- What becomes durable is a statement outside of a transaction, or is committed.
theorem Fate.mem_durable {fate : Fate R ε} {command : Command S} (hp : p ∈ (fate.execute id command session).snd) :
    (∃ s, command = .statement s ∧ session = .idle) ∨ command = .commit ∧ p ∈ session.pending := by
  have of (b : Bool) (hp : p ∈ (session.execute id b command).snd) :
      (∃ s, command = .statement s ∧ session = .idle) ∨ command = .commit ∧ p ∈ session.pending := by
    cases command <;> cases session <;> cases b <;> simp_all [Session.execute, Session.pending]
  cases fate
  case answered       => exact of false hp
  case refused        => exact of true hp
  case unsent         => cases hp
  case unanswered b _ => exact of b hp

theorem ended_ofExcept (res : Except ε T) : Ended (.ofExcept res : Code S R ε T) := by
  cases res <;> trivial

theorem held_finish (res : Except ε T) : Held id client (finish client res : Code S R ε T) .idle :=
  ⟨rfl, rfl, ended_ofExcept res⟩

theorem held_cleanup (e : ε) (session : Session S) : Held id client (cleanup client e : Code S R ε T) session := by
  refine ⟨rfl, nofun, fun fate _ hr => ?_⟩
  have hi : (fate.execute id .rollback session).fst = .idle := by
    cases fate
    case unsent =>
      by_contra hn
      cases hr rfl hn
    all_goals rfl
  rw [hi]
  exact held_finish _

theorem held_working (work : Work S R ε T) (hs : session ≠ .idle) :
    Held id client (working client work : Code S R ε T) session := by
  induction work generalizing session
  case pure a =>
    refine ⟨rfl, nofun, fun fate _ _ => ?_⟩
    cases fate
    case answered =>
      have hi : (session.execute id false .commit).fst = .idle := by cases session <;> rfl
      exact hi ▸ held_finish _
    all_goals exact held_cleanup _ _
  case throw e => exact held_cleanup e session
  case op s k ih =>
    refine ⟨rfl, fun h => absurd h hs, fun fate _ _ => ih _ ?_⟩
    cases session
    case idle => exact absurd rfl hs
    all_goals cases fate <;> simp [Fate.execute, Session.execute] <;> split <;> simp

theorem held_begin (work : Work S R ε T) :
    Held id client (.op (.query client .begin) fun
      | .ok _    => working client work
      | .error e => cleanup client e : Code S R ε T) .idle := by
  refine ⟨rfl, nofun, fun fate _ _ => ?_⟩
  cases fate
  case answered => exact held_working work nofun
  all_goals exact held_cleanup _ _

end
-- The cleanup of a transaction that is open reaches the server.
def CleansUp : Label S R ε T → State S R ε T → Prop
  | .query id fate, s =>
    ∀ client k, s.calls id = some (.op (.query client .rollback) k) → s.sessions client ≠ .idle → fate.reaches
  | _, _ => True

structure Clean (s : State S R ε T) : Prop where
  new      : ∀ id, s.calls id = none → s.connected id = [] ∧ s.released id = []
  free     : ∀ client, s.holder client = none → s.sessions client = .idle
  held     : ∀ client id, s.holder client = some id → s.connected id = [client] ∧ s.released id = [] ∧
             ∃ code, s.calls id = some code ∧ Held id client code (s.sessions client)
  others   : ∀ id code, s.calls id = some code → (∀ client, s.holder client ≠ some id) →
             (∃ work, code = withTransaction work) ∧ s.connected id = [] ∧ s.released id = [] ∨
             Ended code ∧ (s.connected id).length ≤ 1 ∧ (s.released id).map (·.fst) = s.connected id
  idle     : ∀ id, ∀ p ∈ s.released id, p.snd = .idle
  pending  : ∀ client, ∀ p ∈ (s.sessions client).pending, s.holder client = some p.fst
  durable  : ∀ p ∈ s.durable, p.fst ∈ s.committing

namespace Clean

variable {s s' : State S R ε T} {id : CallId} {client : Client}

theorem initial : Clean (.initial : State S R ε T) where
  new _ _    := ⟨rfl, rfl⟩
  free _ _   := rfl
  held       := nofun
  others     := nofun
  idle _     := nofun
  pending _  := nofun
  durable    := nofun

-- A call that is about to use a client holds this one.
theorem holds (h : Clean s) (hc : s.calls id = some (.op o k)) (ho : o ≠ .connect) :
    ∃ client, s.holder client = some id ∧ Held id client (.op o k) (s.sessions client) ∧
      s.connected id = [client] ∧ s.released id = [] := by
  by_cases hh : ∃ client, s.holder client = some id
  case pos =>
    have ⟨client, hh⟩ := hh
    have ⟨hn, hr, code, hc', hd⟩ := h.held client id hh
    cases hc.symm.trans hc'
    exact ⟨client, hh, hd, hn, hr⟩
  case neg =>
    obtain ⟨⟨work, hw⟩, _⟩ | ⟨he, _⟩ := h.others id _ hc fun client hh' => hh ⟨client, hh'⟩
    · rw [withTransaction_eq] at hw
      cases hw
      exact absurd rfl ho
    · exact he.elim

-- A call holds no other client than the one it was connected to.
theorem unique (h : Clean s) (hn : s.connected id = [client]) (hh : s.holder client' = some id')
    (he : client' ≠ client) : id' ≠ id := by
  rintro rfl
  have hn' := (h.held client' _ hh).left
  simp [hn, Ne.symm he] at hn'

-- A call that holds no client goes on without one.
theorem setCall {code : Code S R ε T} (h : Clean s) (hh : ∀ client, s.holder client ≠ some id)
    (hc : s.connected id = [] ∧ s.released id = []) (hw : (∃ work, code = withTransaction work) ∨ Ended code) :
    Clean (s.setCall id code) where
  new id' hn := by
    by_cases he : id' = id
    case pos => exact he ▸ hc
    case neg => exact h.new id' <| by simpa [he] using hn
  free := h.free
  held client id' hh' := by
    have he : id' ≠ id := fun he => hh client (he ▸ hh')
    simpa [he] using h.held client id' hh'
  others id' code' hc' hh' := by
    by_cases he : id' = id
    case pos =>
      subst he
      simp only [State.setCall_calls, Function.update_self, Option.some.injEq] at hc'
      subst hc'
      simpa [hc] using hw
    case neg => exact h.others id' code' (by simpa [he] using hc') hh'
  idle    := h.idle
  pending := h.pending
  durable := h.durable

theorem call (h : Clean s) (hn : s.calls id = none) (work : Work S R ε T) :
    Clean (s.setCall id (withTransaction work)) := by
  refine h.setCall (fun client hh => ?_) (h.new id hn) (.inl ⟨work, rfl⟩)
  have ⟨_, _, _, hc, _⟩ := h.held client id hh
  cases hn.symm.trans hc

-- A call that is about to connect to the pool
theorem connects (h : Clean s) (hc : s.calls id = some (.op .connect k)) :
    (∀ client, s.holder client ≠ some id) ∧ (s.connected id = [] ∧ s.released id = []) ∧
      ∃ work : Work S R ε T, .op .connect k = withTransaction work := by
  have hh (client : Client) : s.holder client ≠ some id := by
    intro hh
    have ⟨_, _, _, hc', hd⟩ := h.held client id hh
    cases hc.symm.trans hc'
    exact hd
  obtain ⟨hw, hn⟩ | ⟨he, _⟩ := h.others id _ hc hh
  · exact ⟨hh, hn, hw⟩
  · exact he.elim

theorem connect {code : Code S R ε T} (h : Clean s) (hh : ∀ client, s.holder client ≠ some id)
    (hn : s.connected id = [] ∧ s.released id = []) (hf : s.holder client = none)
    (hd : Held id client code .idle) : Clean (s.connect id client code) where
  new id' hc := by
    have hi : id' ≠ id := by rintro rfl; simp at hc
    simpa [hi] using h.new id' <| by simpa [hi] using hc
  free client' hf' := by
    have he : client' ≠ client := by rintro rfl; simp at hf'
    exact h.free client' <| by simpa [he] using hf'
  held client' id' hh' := by
    by_cases he : client' = client
    case pos =>
      subst he
      simp only [State.connect_holder, Function.update_self, Option.some.injEq] at hh'
      subst hh'
      simpa [hn, h.free client' hf] using hd
    case neg =>
      have hh' : s.holder client' = some id' := by simpa [he] using hh'
      have hi : id' ≠ id := fun hi => hh client' (hi ▸ hh')
      simpa [hi] using h.held client' id' hh'
  others id' code' hc hh' := by
    have hi : id' ≠ id := by rintro rfl; exact hh' client (by simp)
    have hh (client' : Client) : s.holder client' ≠ some id' := by
      intro hh
      have he : client' ≠ client := by rintro rfl; cases hf.symm.trans hh
      exact hh' client' <| by simpa [he] using hh
    simpa [hi] using h.others id' code' (by simpa [hi] using hc) hh
  idle := h.idle
  pending client' p hp := by
    have hp' := h.pending client' p hp
    have he : client' ≠ client := by rintro rfl; cases hf.symm.trans hp'
    simpa [he] using hp'
  durable := h.durable

theorem query {code : Code S R ε T} {fate : Fate R ε} (h : Clean s) (hh : s.holder client = some id)
    (hn : s.connected id = [client] ∧ s.released id = []) 
    (hs : s.sessions client = .idle → ∀ s, command ≠ .statement s)
    (hd : Held id client code (fate.execute id command (s.sessions client)).fst) :
    Clean (s.query id client command fate code) where
  new id' hc := by
    have hi : id' ≠ id := by rintro rfl; simp at hc
    exact h.new id' <| by simpa [hi] using hc
  free client' hf := by
    have he : client' ≠ client := by rintro rfl; cases hh.symm.trans hf
    simpa [he] using h.free client' hf
  held client' id' hh' := by
    by_cases he : client' = client
    case pos =>
      subst he
      cases hh.symm.trans hh'
      simpa [hn] using hd
    case neg =>
      have hi : id' ≠ id := h.unique hn.left hh' he
      simpa [hi, he] using h.held client' id' hh'
  others id' code' hc hh' := by
    have hi : id' ≠ id := by rintro rfl; exact hh' client hh
    exact h.others id' code' (by simpa [hi] using hc) hh'
  idle := h.idle
  pending client' p hp := by
    by_cases he : client' = client
    case pos =>
      subst he
      simp only [State.query_sessions, Function.update_self] at hp
      cases Fate.mem_pending hp
      case inl hp => exact h.pending client' p hp
      case inr hp => exact hp ▸ hh
    case neg => exact h.pending client' p <| by simpa [he] using hp
  durable p hp := by
    simp only [State.query_durable, List.mem_append] at hp
    cases hp
    case inl hp =>
      have hc := h.durable p hp
      simp only [State.query_committing]
      split
      · exact List.mem_append_left _ hc
      · exact hc
    case inr hp =>
      obtain ⟨s', rfl, hi⟩ | ⟨rfl, hp'⟩ := Fate.mem_durable hp
      · exact absurd rfl (hs hi s')
      · cases hh.symm.trans (h.pending client p hp')
        simp

theorem release {code : Code S R ε T} (h : Clean s) (hh : s.holder client = some id)
    (hn : s.connected id = [client] ∧ s.released id = []) (hs : s.sessions client = .idle) (he : Ended code) :
    Clean (s.release id client code) where
  new id' hc := by
    have hi : id' ≠ id := by rintro rfl; simp at hc
    simpa [hi] using h.new id' <| by simpa [hi] using hc
  free client' hf := by
    by_cases he : client' = client
    case pos => exact he ▸ hs
    case neg => exact h.free client' <| by simpa [he] using hf
  held client' id' hh' := by
    have he : client' ≠ client := by rintro rfl; simp at hh'
    replace hh' : s.holder client' = some id' := by simpa [he] using hh'
    have hi : id' ≠ id := h.unique hn.left hh' he
    simpa [hi] using h.held client' id' hh'
  others id' code' hc hh' := by
    by_cases hi : id' = id
    case pos =>
      subst hi
      simp only [State.release_calls, Function.update_self, Option.some.injEq] at hc
      subst hc
      exact .inr ⟨he, by simp [hn], by simp [hn]⟩
    case neg =>
      have hh (client' : Client) : s.holder client' ≠ some id' := by
        intro hh''
        have he : client' ≠ client := by
          rintro rfl
          cases hh.symm.trans hh''
          exact hi rfl
        exact hh' client' <| by simpa [he] using hh''
      simpa [hi] using h.others id' code' (by simpa [hi] using hc) hh
  idle id' p hp := by
    by_cases hi : id' = id
    case pos =>
      subst hi
      simp only [State.release_released, Function.update_self, hn.right, List.nil_append, List.mem_singleton] at hp
      exact hp ▸ hs
    case neg => exact h.idle id' p <| by simpa [hi] using hp
  pending client' p hp := by
    have hp' := h.pending client' p hp
    have he : client' ≠ client := by
      rintro rfl
      rw [State.release_sessions, hs] at hp
      cases hp
    simpa [he] using hp'
  durable := h.durable

theorem step (h : Clean s) (hg : CleansUp l s) (hs : Pool.step l s = some s') : Clean s' := by
  cases l <;> simp only [Pool.step] at hs
  case call id work =>
    split at hs <;> cases hs
    case h_1 hn => exact h.call hn work
  case connect id outcome =>
    split at hs
    case h_1 hc =>
      cases hs
      have ⟨hh, hn, work, hw⟩ := h.connects hc
      rw [withTransaction_eq] at hw
      cases hw
      exact h.setCall hh hn (.inr trivial)
    case h_2 client hc =>
      split at hs <;> cases hs
      case isTrue hf =>
        have ⟨hh, hn, work, hw⟩ := h.connects hc
        rw [withTransaction_eq] at hw
        cases hw
        exact h.connect hh hn hf (held_begin work)
    case h_3 => cases hs
  case query id fate =>
    split at hs
    case h_2 => cases hs
    case h_1 hc =>
      split at hs <;> cases hs
      case isTrue hp =>
        obtain ⟨client, hh, ⟨rfl, hs, hd⟩, hn⟩ := h.holds hc nofun
        refine h.query hh hn hs (hd fate hp fun he hi => ?_)
        subst he
        exact hg _ _ hc hi
  case release id =>
    split at hs <;> cases hs
    case h_1 hc =>
      obtain ⟨client, hh, ⟨rfl, hs, he⟩, hn⟩ := h.holds hc nofun
      exact h.release hh hn hs he

theorem steps (h : Clean s) (hs : Steps CleansUp s s') : Clean s' := by
  induction hs
  case refl            => exact h
  case tail _ hs ih    =>
    have ⟨_, hg, hs⟩ := hs
    exact ih.step hg hs

theorem released_connected (h : Clean s) (id : CallId) :
    (s.connected id).length ≤ 1 ∧ (s.released id).map (·.fst) <+: s.connected id ∧
    ∀ code, s.calls id = some code → Ended code → (s.released id).map (·.fst) = s.connected id := by
  cases hc : s.calls id
  case none => simp [h.new id hc]
  case some code =>
    by_cases hh : ∃ client, s.holder client = some id
    case pos =>
      have ⟨client, hh⟩ := hh
      have ⟨hn, hr, code', hc', hd⟩ := h.held client id hh
      cases hc.symm.trans hc'
      refine ⟨by simp [hn], by simp [hr], fun _ he hd' => ?_⟩
      cases he
      cases code <;> first | exact hd.elim | exact hd'.elim
    case neg =>
      obtain ⟨_, hn⟩ | ⟨_, hl, hr⟩ := h.others id code hc fun client hh' => hh ⟨client, hh'⟩
      · simp [hn]
      · exact ⟨hl, hr ▸ List.prefix_refl _, fun _ _ _ => hr⟩

end Clean

theorem clients_are_clean {s : State S R ε T} (h : Steps CleansUp .initial s) :
    (∀ id, (s.connected id).length ≤ 1 ∧ (s.released id).map (·.fst) <+: s.connected id ∧
      ∀ code, s.calls id = some code → Ended code → (s.released id).map (·.fst) = s.connected id) ∧
    (∀ id client session, (client, session) ∈ s.released id → session = .idle) ∧
    ∀ id statement, (id, statement) ∈ s.durable → id ∈ s.committing := by
  have hc := Clean.initial.steps h
  exact ⟨hc.released_connected, fun id _ _ => hc.idle id _, fun _ _ => hc.durable _⟩

namespace Sample

-- The work of one statement, which throws an error after it or not.
def insert (s : String) (throws : Bool) : Work String Unit String Unit :=
  .op s fun _ => if throws then .throw "boom" else .pure ()

-- Follows a schedule.
def follow : List (Label String Unit String Unit) → State String Unit String Unit →
    Option (State String Unit String Unit)
  | [],      s => some s
  | l :: ls, s => (step l s).bind (follow ls)

-- A call throws, and another one gets its client.
def schedule (fate : Fate Unit String) : List (Label String Unit String Unit) := [
    .call 1 (insert "a" true), .connect 1 (.ok 0), .query 1 (.answered ()), .query 1 (.answered ()), .query 1 fate,
    .release 1,
    .call 2 (insert "b" false), .connect 2 (.ok 0), .query 2 (.answered ()), .query 2 (.answered ()),
    .query 2 (.answered ()), .release 2
  ]

theorem follow_steps {G : Label String Unit String Unit → State String Unit String Unit → Prop}
    {ls : List (Label String Unit String Unit)} {s s' : State String Unit String Unit}
    (hg : ∀ l ∈ ls, ∀ s, G l s) (h : follow ls s = some s') : Steps G s s' := by
  induction ls generalizing s
  case nil =>
    cases h
    exact .refl
  case cons l ls ih =>
    have ⟨s₁, hs, h⟩ := Option.bind_eq_some_iff.mp h
    exact .head ⟨l, hg l (by simp) s, hs⟩ <| ih (fun l hl => hg l (by simp [hl])) h

end Sample

-- The rollback reaches the server.
theorem clients_are_clean_rolled_back : ∃ s : State String Unit String Unit,
    (∀ id statement, (id, statement) ∈ s.durable → id ∈ s.committing) ∧ s.durable = [(2, "b")] := by
  have ⟨s, hs⟩ : ∃ s, Sample.follow (Sample.schedule (.answered ())) .initial = some s := ⟨_, rfl⟩
  have hg : ∀ l ∈ Sample.schedule (.answered ()), ∀ s, CleansUp l s := by
    simp [Sample.schedule, CleansUp, Fate.reaches]
  refine ⟨s, (clients_are_clean (Sample.follow_steps hg hs)).right.right, ?_⟩
  cases hs
  rfl

-- The rollback does not reach the server, and the statement of the call that has thrown is committed
-- by the one that gets the client next.
theorem clients_are_not_clean : ∃ s : State String Unit String Unit, Steps (fun _ _ => True) .initial s ∧
    (∃ id client session, (client, session) ∈ s.released id ∧ session ≠ .idle) ∧
    ∃ id statement, (id, statement) ∈ s.durable ∧ id ∉ s.committing := by
  have ⟨s, hs⟩ : ∃ s, Sample.follow (Sample.schedule (.unsent "timeout")) .initial = some s := ⟨_, rfl⟩
  refine ⟨s, Sample.follow_steps (fun _ _ _ => trivial) hs, ⟨1, 0, .started [(1, "a")], ?_, nofun⟩, 1, "a", ?_, ?_⟩
  all_goals
    cases hs
    decide

end Pool
end Logon
