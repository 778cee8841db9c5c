import Logon.Library.Contract
import Logon.Runtime.Reachable

-- How the parties of the platform keep to a contract.

namespace Logon

open System Contract

theorem Call.throws {P : Premise} (c : Call) (h : c.body.Runs (P.sem now) db (.error e) db') : ¬e.ofWorker := by
  have hk : c.body.Keeps fun _ => False := c.keeps
  cases Engine.Guarded.throws hk h
  case inl hq =>
    have ⟨_, _, he⟩ := hq
    exact he e rfl
  case inr hf => cases e <;> first | exact Bool.false_ne_true | cases hf

-- The state after a transaction has committed.
abbrev Call.commitTo (c : Call) (pid : Pid) (r : c.Result) (now : Time) (db : Db) (g : platform.Global) :
    platform.Global :=
  { g with db := db, log := g.log ++ [⟨pid, c, r, now⟩] }

-- The state after an action.
abbrev Action.actOn (a : Action) (amb : Ambient) (g : platform.Global) : platform.Global :=
  { g with world := (a.act amb g.db g.world).snd }

variable {P : Premise} {may : Call → platform.Global → Prop} {K : Contract (loose platform P.answer may)}

section
variable {g : platform.Global}

theorem Safe.transaction {c : Call} {Q : Except KernelError c.Result → platform.Global → Prop}
    (hg : ∀ g', K.Le g g' → K.Inv g' → K.Guard pid (.inl c) g')
    (hc : ∀ g' r now db' g'', K.Le g g' → K.Inv g' → c.Commits P now g'.db r db' →
      K.Le (c.commitTo pid r now db' g') g'' → K.Inv g'' → Q (.ok r) g'')
    (he : ∀ e g', ¬e.ofWorker → Q (.error e) g') : K.Safe pid (transaction c) g Q := by
  apply Safe.bind
  apply Safe.perform hg
  intro g' r g'' g''' hl hi hd hl' hi'
  cases hd
  case commit now db' r _ _ hr =>
    exact fun g₄ hl₄ hi₄ => hc g' r now db' g₄ hl hi (c.commits hr) (K.le_trans hl' hl₄) hi₄
  case throw hr => exact fun g₄ _ _ => he _ g₄ <| c.throws hr
  case fault e hf =>
    have : ¬e.ofWorker := by cases e <;> first | exact Bool.false_ne_true | cases hf
    exact fun g₄ _ _ => he e g₄ this

theorem Safe.act {a : Action} {Q : Except KernelError a.Answer → platform.Global → Prop}
    (hg : ∀ g', K.Le g g' → K.Inv g' → K.Guard pid (.inr a) g')
    (ha : ∀ g' amb g'', K.Le g g' → K.Inv g' → K.Le (a.actOn amb g') g'' → K.Inv g'' →
      Q (a.act amb g'.db g'.world).fst g'') : K.Safe pid (perform a) g Q := by
  apply Safe.bind
  apply Safe.perform hg
  intro g' r g'' g''' hl hi hd hl' hi'
  cases hd
  case act amb _ =>
    cases hr : (platform.act a amb g'.db g'.world).fst
    case ok r =>
      intro g₄ hl₄ hi₄
      have := ha g' amb g₄ hl hi (K.le_trans hl' hl₄) hi₄
      exact (show (a.act amb g'.db g'.world).fst = .ok r from hr) ▸ this
    case error e =>
      intro g₄ hl₄ hi₄
      have := ha g' amb g₄ hl hi (K.le_trans hl' hl₄) hi₄
      exact (show (a.act amb g'.db g'.world).fst = .error e from hr) ▸ this

end

variable (K) in
-- A program that throws no error of the worker, and ends as told otherwise.
def Fine (pid : Pid) (p : Process α) (g : platform.Global) (Q : α → platform.Global → Prop) : Prop :=
  K.Safe pid p g fun
    | .ok a, g    => Q a g
    | .error e, _ => ¬e.ofWorker

namespace Fine

variable {g : platform.Global} {α β : Type} {Q : α → platform.Global → Prop}

theorem pure {a : α} (h : ∀ g', K.Le g g' → K.Inv g' → Q a g') : Fine K pid (.pure a) g Q :=
  h

theorem throw {e : KernelError} (h : ¬e.ofWorker) : Fine K pid (.throw e) g Q :=
  fun _ _ _ => h

theorem bind {p : Process α} {f : α → Process β} {R : β → platform.Global → Prop} (h : Fine K pid p g Q)
    (hf : ∀ a g', K.Le g g' → K.Inv g' → Q a g' → Fine K pid (f a) g' R) : Fine K pid (p.bind f) g R := by
  apply Safe.bind
  apply Safe.mono _ h.grows
  intro res g' hi ⟨hl, hq⟩
  cases res
  case ok a    => exact hf a g' hl hi hq
  case error e => exact hq

theorem tryCatch {p : Process α} {f : KernelError → Process α} (h : Fine K pid p g Q)
    (hf : ∀ e g', K.Le g g' → K.Inv g' → ¬e.ofWorker → Fine K pid (f e) g' Q) : Fine K pid (p.tryCatch f) g Q := by
  apply Safe.tryCatch
  apply Safe.mono _ h.grows
  intro res g' hi ⟨hl, hq⟩
  cases res
  case ok a    => exact hq
  case error e => exact hf e g' hl hi hq

theorem transaction {c : Call} {Q : c.Result → platform.Global → Prop}
    (hg : ∀ g', K.Le g g' → K.Inv g' → K.Guard pid (.inl c) g')
    (hc : ∀ g' r now db' g'', K.Le g g' → K.Inv g' → c.Commits P now g'.db r db' →
      K.Le (c.commitTo pid r now db' g') g'' → K.Inv g'' → Q r g'') : Fine K pid (transaction c) g Q :=
  Safe.transaction hg hc fun _ _ he => he

end Fine

-- What publishers know under a contract about the claims that they have got, and about those they have
-- put into the queue.
structure Publishing (K : Contract (loose platform P.answer may)) where
  Claimed    : DispatchClaim → platform.Global → Prop
  Queued     : DispatchClaim → platform.Global → Prop
  claimed_le : ∀ {claim g g'}, K.Le g g' → Claimed claim g → Claimed claim g'
  queued_le  : ∀ {claim g g'}, K.Le g g' → Queued claim g → Queued claim g'
  take       : ∀ {pid limit leaseMs g}, K.Inv g → K.Guard pid (.inl (.claimDispatches limit leaseMs)) g
  taken      : ∀ {pid limit leaseMs g claims now db'}, K.Inv g → Claim P now limit leaseMs g.db claims db' →
               ∀ claim ∈ claims, Claimed claim ((Call.claimDispatches limit leaseMs).commitTo pid claims now db' g)
  add        : ∀ {pid claim g}, K.Inv g → Claimed claim g →
               K.Guard pid (.inr (.add ⟨claim.executionId, claim.executionId⟩)) g
  added      : ∀ {claim : DispatchClaim} {g : platform.Global},
               Queued claim { g with world := g.world.add ⟨claim.executionId, claim.executionId⟩ }
  succeed    : ∀ {pid claim g}, K.Inv g → Queued claim g → K.Guard pid (.inl (.markDispatchSucceeded claim)) g
  fail       : ∀ {pid claim error g}, K.Inv g → Claimed claim g →
               K.Guard pid (.inl (.markDispatchFailed claim error)) g

namespace Publishing

open ExecutionOutboxPublisher

variable {g : platform.Global} (B : Publishing K)
include B

theorem enqueue_fine (h : B.Claimed claim g) :
    Fine K pid (enqueue claim.executionId) g fun _ => B.Queued claim := by
  unfold enqueue
  split
  case isTrue => exact .throw Bool.false_ne_true
  case isFalse =>
    apply Safe.act
    · exact fun g' hl hi => B.add hi (B.claimed_le hl h)
    · intro g' amb g'' hl hi hl' _
      simp only [Action.actOn, Action.act] at hl' ⊢
      cases ha : amb.failure <;> simp only [ha] at hl' ⊢
      case none => exact B.queued_le hl' B.added
      case some => exact Bool.false_ne_true

theorem publish_fine (h : B.Claimed claim g) : Fine K pid (publish claim) g fun _ _ => True := by
  apply Fine.tryCatch
  case h =>
    split
    case isTrue => exact .throw Bool.false_ne_true
    case isFalse =>
      apply (B.enqueue_fine h).bind
      intro _ g' _ _ hq
      apply Fine.bind <| .transaction (fun g'' hl hi => B.succeed hi (B.queued_le hl hq)) fun _ _ _ _ _ _ _ _ _ _ => trivial
      exact fun _ _ _ _ _ => .pure fun _ _ _ => trivial
  case hf =>
    intro e g' hl _ _
    apply Fine.bind <| .transaction (fun g'' hl' hi => B.fail hi (B.claimed_le (K.le_trans hl hl') h)) fun _ _ _ _ _ _ _ _ _ _ => trivial
    exact fun _ _ _ _ _ => .pure fun _ _ _ => trivial

theorem publishAll_fine (h : ∀ claim ∈ claims, B.Claimed claim g) :
    Fine K pid (publishAll claims m n) g fun _ _ => True := by
  induction claims generalizing m n g
  case nil => exact .pure fun _ _ _ => trivial
  case cons claim claims ih =>
    apply (B.publish_fine <| h claim (by simp)).bind
    intro dispatched g' hl _ _
    have h' claim (hm : claim ∈ claims) : B.Claimed claim g' := B.claimed_le hl <| h claim (by simp [hm])
    cases dispatched <;> exact ih h'

theorem publishOnce_fine (publisher : ExecutionOutboxPublisher) : Fine K pid publisher.publishOnce g fun _ _ => True := by
  apply Fine.bind (Q := fun claims g => ∀ claim ∈ claims, B.Claimed claim g)
  case h =>
    apply Fine.transaction fun _ _ hi => B.take hi
    exact fun _ _ _ _ _ _ hi hc hl _ claim hm => B.claimed_le hl <| B.taken hi hc claim hm
  case hf =>
    intro claims g' _ _ hc
    apply (B.publishAll_fine hc).bind
    exact fun _ _ _ _ _ => .pure fun _ _ _ => trivial

end Publishing

open PostgresExecutionService

-- The operations of the service and of workers.
def ofService (host : Host) : platform.outer.Op → Prop
  | .inl (.start request hash _)    => requestHash host request = some hash
  | .inl (.claimDispatches _ _)     => False
  | .inl (.markDispatchSucceeded _) => False
  | .inl (.markDispatchFailed _ _)  => False
  | .inr (.add _)                   => False
  | _                               => True

-- Whoever uses the platform in any way that its interfaces offer.
inductive Client (host : Host) : platform.Code → Prop
  | start {request options} :
    Client host (do return .started (← Process.start host request options))
  | decideApproval {decision} :
    Client host (do return .decided (← Process.decideApproval decision))
  | expireApprovalsOnce {limit} :
    Client host (do return .swept (← Process.expireApprovalsOnce limit))
  | transition {e status actorId payload} :
    Client host (do return .moved (← Process.transition e status actorId payload))
  | fail {e actorId reason} :
    Client host (do return .moved (← Process.fail e actorId reason))
  | work {e actorId} :
    Client host (do controlledExecutionHandler actorId e; return .handled)
  | publishOnce {options} :
    Client host (do return .published (← (ExecutionOutboxPublisher.new options).publishOnce))

variable {host : Host}

theorem transaction_uses {c : Call} (h : ofService host (.inl c)) : (transaction c).Uses (ofService host) :=
  ⟨h, Program.Uses.ofExcept⟩

theorem latestEvent_uses : (perform (.latestEvent e)).Uses (ofService host) :=
  ⟨trivial, Program.Uses.ofExcept⟩

theorem start_uses : (Process.start host request options).Uses (ofService host) := by
  unfold Process.start
  split
  case isFalse => trivial
  case isTrue =>
    split
    case h_1       => trivial
    case h_2 hh => exact transaction_uses hh

theorem decideApproval_uses : (Process.decideApproval decision).Uses (ofService host) := by
  apply Program.Uses.bind <| transaction_uses <| by trivial
  intro outcome
  split <;> trivial

theorem controlledExecutionHandler_uses : (controlledExecutionHandler actorId e).Uses (ofService host) := by
  unfold controlledExecutionHandler
  split
  case isTrue => trivial
  case isFalse =>
    apply latestEvent_uses.bind
    intro latest
    cases latest
    case none => trivial
    case some =>
      dsimp only
      split
      case isTrue => trivial
      split
      case isTrue => trivial
      split
      case isFalse => trivial
      case isTrue =>
        apply Program.Uses.tryCatch
        case h  => exact Program.Uses.bind (transaction_uses trivial) fun _ => trivial
        case hf =>
          intro error
          split
          case h_2 => trivial
          case h_1 =>
            apply latestEvent_uses.bind
            intro afterRace
            split <;> trivial

-- Clients keep to a contract that permits whatever the service does, and on whose terms publishers work.
theorem Client.safe (h : Client host code) (B : Publishing K)
    (hg : ∀ pid o g, ofService host o → K.Inv g → K.Guard pid o g) : K.Safe pid code g fun _ _ => True := by
  have service {α : Type} {p : Process α} {f : α → Outcome} (h : p.Uses (ofService host)) :
      K.Safe pid (p.bind fun a => .pure (f a)) g fun _ _ => True :=
    .of_uses (hg pid) <| h.bind fun _ => trivial
  cases h
  case start               => exact service start_uses
  case decideApproval      => exact service decideApproval_uses
  case expireApprovalsOnce => exact service <| transaction_uses trivial
  case transition          => exact service <| transaction_uses trivial
  case fail                => exact service <| transaction_uses trivial
  case work                => exact service controlledExecutionHandler_uses
  case publishOnce         =>
    apply Safe.bind
    apply Safe.mono _ (B.publishOnce_fine _)
    intro res g' _ _
    cases res
    case ok    => exact fun _ _ _ => trivial
    case error => trivial

-- Only clients are started.
def Guard.clients (host : Host) : Guard
  | .spawn _ code, _ => Client host code
  | _, _             => True

theorem Guard.clients_of_spawn {ls : List platform.Label} (h : ∀ pid code, .spawn pid code ∈ ls → Client host code)
    {l : platform.Label} (hl : l ∈ ls) (s : platform.State) : Guard.clients host l s := by
  cases l
  case spawn pid code => exact h pid code hl
  all_goals trivial

theorem Guard.clients_meets (host : Host) :
    (Guard.clients host).Meets .none (fun code _ => Client host code) fun _ _ => True where
  stable := Premise.none_stable
  spawn  := id
  stmt   := fun _ _ _ => trivial
  commit := fun _ _ => trivial

end Logon
