import Logon.Routing

-- How the API answers requests that it cannot serve.

namespace Logon.ControlPlane

open Program

section
variable {host : HttpHost} {maxBytes : Nat} {failure : Option String}

-- The value of a body that has arrived.
def parsed (host : HttpHost) (text : String) : Except WebError (List (String × Json)) :=
  if blank text then
    .ok []
  else
    match host.parseJson text with
    | none              => .error (.http 400 "Invalid JSON")
    | some (.object ms) => .ok ms
    | some _            => .error (.http 400 "Request body must be a JSON object")

-- What has been received does not exceed the limit.
theorem receive_eq {received : List UInt8} (h : received.length ≤ maxBytes) (chunks : List (List UInt8)) :
    receive maxBytes failure chunks received =
    if maxBytes < (received ++ chunks.flatten).length then .error (.http 413 "Request body too large")
    else match failure with
      | none      => .ok (received ++ chunks.flatten)
      | some text => .error (.other text) := by
  induction chunks generalizing received
  case nil =>
    rw [List.flatten_nil, List.append_nil, if_neg (Nat.not_lt.mpr h)]
    cases failure <;> rfl
  case cons chunk chunks ih =>
    rw [receive, List.flatten_cons, ← List.append_assoc]
    split
    case isTrue hc =>
      have : maxBytes < (received ++ chunk ++ chunks.flatten).length := by
        rw [List.length_append]
        exact Nat.lt_add_right _ hc
      rw [if_pos this]
    case isFalse hc => exact ih (Nat.not_lt.mp hc)

theorem readJson_eq (chunks : List (List UInt8)) : readJson host ⟨chunks, failure⟩ maxBytes =
    if maxBytes < chunks.flatten.length then .error (.http 413 "Request body too large")
    else match failure with
      | none      => parsed host (host.utf8 chunks.flatten)
      | some text => .error (.other text) := by
  rw [readJson, receive_eq (Nat.zero_le _), List.nil_append]
  split
  case isTrue  => rfl
  case isFalse =>
    cases failure
    case some => rfl
    case none => rfl

theorem parsed_cases (host : HttpHost) (text : String) :
    blank text ∧ parsed host text = .ok [] ∨
    (¬blank text ∧ ∃ ms, host.parseJson text = some (.object ms) ∧ parsed host text = .ok ms) ∨
    ¬blank text ∧ (∀ ms, host.parseJson text ≠ some (.object ms)) ∧ ∃ message, parsed host text = .error (.http 400 message) := by
  rw [parsed]
  split
  case isTrue hb => exact .inl ⟨hb, rfl⟩
  case isFalse hb =>
    split
    case h_1 h      => exact .inr <| .inr ⟨hb, fun _ ho => (by cases h.symm.trans ho), _, rfl⟩
    case h_2 ms h   => exact .inr <| .inl ⟨hb, ms, h, rfl⟩
    case h_3 v hn h => exact .inr <| .inr ⟨hb, fun ms ho => hn ms <| Option.some.inj (h.symm.trans ho), _, rfl⟩

-- What becomes of a body depends on its bytes only, and not on how they arrive.
theorem bodies_are_read (host : HttpHost) (maxBytes : Nat) (chunks : List (List UInt8)) :
    (∀ chunks' : List (List UInt8), chunks'.flatten = chunks.flatten →
      readJson host ⟨chunks', none⟩ maxBytes = readJson host ⟨chunks, none⟩ maxBytes) ∧
    ((∃ message, readJson host ⟨chunks, none⟩ maxBytes = .error (.http 413 message)) ↔ maxBytes < chunks.flatten.length) ∧
    (chunks.flatten.length ≤ maxBytes →
      (blank (host.utf8 chunks.flatten) → readJson host ⟨chunks, none⟩ maxBytes = .ok []) ∧
      (¬blank (host.utf8 chunks.flatten) →
        (∀ ms, host.parseJson (host.utf8 chunks.flatten) = some (.object ms) →
          readJson host ⟨chunks, none⟩ maxBytes = .ok ms) ∧
        ((∀ ms, host.parseJson (host.utf8 chunks.flatten) ≠ some (.object ms)) →
          ∃ message, readJson host ⟨chunks, none⟩ maxBytes = .error (.http 400 message)))) := by
  refine ⟨fun chunks' h => by rw [readJson_eq, readJson_eq, h], ?_⟩
  rw [readJson_eq]
  by_cases hm : maxBytes < chunks.flatten.length
  case pos =>
    rw [if_pos hm]
    exact ⟨iff_of_true ⟨_, rfl⟩ hm, fun h => absurd hm (Nat.not_lt.mpr h)⟩
  case neg =>
    rw [if_neg hm]
    obtain ⟨hb, hp⟩ | ⟨hb, ms, ho, hp⟩ | ⟨hb, hn, message, hp⟩ := parsed_cases host (host.utf8 chunks.flatten)
    · exact ⟨iff_of_false (fun ⟨_, h⟩ => by cases hp.symm.trans h) hm, fun _ => ⟨fun _ => hp, absurd hb⟩⟩
    · refine ⟨iff_of_false (fun ⟨_, h⟩ => by cases hp.symm.trans h) hm, fun _ => ⟨fun h => absurd h hb, fun _ => ⟨?_, ?_⟩⟩⟩
      · intro ms' ho'
        cases ho.symm.trans ho'
        exact hp
      · exact fun h => absurd ho (h ms)
    · refine ⟨iff_of_false (fun ⟨_, h⟩ => by cases hp.symm.trans h) hm, fun _ => ⟨fun h => absurd h hb, fun _ => ⟨?_, ?_⟩⟩⟩
      · exact fun ms ho => absurd ho (hn ms)
      · exact fun _ => ⟨message, hp⟩

end

-- The replies to what a request does if no query fails. The service may refuse what it is asked for.
def Healthy : (o : WebOp) → o.Reply → Prop
  | .query _,   r => ∃ rows, r = .ok rows
  | .dateNow,   _ => True
  | .service _, _ => True

-- The statuses of responses other than that to what the server has not foreseen.
def statuses : List Nat :=
  [200, 400, 401, 403, 404, 405, 409, 413, 422]

-- Results that the server has foreseen.
def Foreseen (P : α → Prop) : Except WebError α → Prop
  | .ok a                           => P a
  | .error (.http statusCode _)     => statusCode ∈ statuses
  | .error (.principalResolution _) => True
  | .error (.authorization _)       => True
  | .error (.kernel _)              => False
  | .error (.other _)               => False

theorem Foreseen.bind {P : α → Prop} {R : β → Prop} {res : Except WebError α} {f : α → Except WebError β}
    (h : Foreseen P res) (hf : ∀ a, P a → Foreseen R (f a)) : Foreseen R (res >>= f) := by
  cases res
  case ok a    => exact hf a h
  case error e => cases e <;> exact h

-- Programs with such results
abbrev Foresees (P : α → Prop) (p : Web α) : Prop :=
  p.Yields Healthy (Foreseen P)

namespace Foresees

variable {P : α → Prop} {R : β → Prop} {p : Web α} {f : α → Web β} {res : Except WebError α}

theorem bind (h : Foresees P p) (hf : ∀ a, P a → Foresees R (f a)) : Foresees R (p.bind f) := by
  refine Yields.bind h hf fun e he => ?_
  cases e <;> exact he

theorem ofExcept (h : Foreseen P res) : Foresees P (.ofExcept res) :=
  Yields.ofExcept h

end Foresees

section
variable {host : HttpHost} {env : ProcessEnv} {req : IncomingMessage} {pathname : String}

-- A request that the server can read, as far as it looks at it.
def Readable (host : HttpHost) (env : ProcessEnv) (req : IncomingMessage) : Prop :=
  ∃ pathname, host.pathname (req.url.getD "/") = some pathname ∧
    ∀ principal segment, resolvePrincipal host req.headers env = .ok principal →
      executionSegment pathname = some segment →
      ∃ executionId, host.decodeURIComponent segment = some executionId ∧
        (executionId ≠ "" → req.method = some "POST" → pathname = approvalPath host executionId →
          req.body.failure = none ∨ 32000 < req.body.chunks.flatten.length)

abbrev Response.Foreseen (response : Response) : Prop :=
  response.status ∈ statuses

end

end Logon.ControlPlane
