import Logon.Canonical
import Logon.Idempotency

-- What the hash of a request says about the text that is stored for it.

namespace Logon
namespace Json

variable {v w u : Json} {allow : List String → List String → Prop}

theorem Reordered.symm (h : Reordered anyOrder v w) : Reordered anyOrder w v := by
  induction h
  case null                  => exact .null
  case bool b                => exact .bool b
  case number n              => exact .number n
  case string s              => exact .string s
  case array hl _ ih         => exact .array hl.symm fun i v w hv hw => ih i w v hw hv
  case object hp _ _ ih      => exact .object hp.symm trivial fun k v w hv hw => ih k w v hw hv

theorem Reordered.trans (h : Reordered anyOrder v w) (h' : Reordered anyOrder w u) : Reordered anyOrder v u := by
  induction h generalizing u
  case null     => exact h'
  case bool     => exact h'
  case number   => exact h'
  case string   => exact h'
  case array vs ws hl _ ih =>
    cases h'
    case array us hl' hr =>
    refine .array (hl.trans hl') fun i v u hv hu => ?_
    have ⟨hi, _⟩ := List.getElem?_eq_some_iff.mp hu
    have hw := List.getElem?_eq_getElem (hl' ▸ hi)
    exact ih i v _ hv hw <| hr i _ u hw hu
  case object ms ns hp _ _ ih =>
    cases h'
    case object us hp' _ hr =>
    refine .object (hp.trans hp') trivial fun k v u hv hu => ?_
    have hk : k ∈ names ns := hp.subset <| List.mem_map_of_mem hv
    obtain ⟨⟨_, w⟩, hw, rfl⟩ := List.mem_map.mp hk
    exact ih _ v w hv hw <| hr _ w u hw hu

-- Two values are the same up to the order of members, or both are left out.
abbrev Same : Option Json → Option Json → Prop :=
  Option.Rel (Reordered anyOrder)

theorem Same.symm {v w : Option Json} (h : Same v w) : Same w v := by
  cases h
  case none   => exact .none
  case some h => exact .some h.symm

theorem Same.trans {v w u : Option Json} (h : Same v w) (h' : Same w u) : Same v u := by
  cases h
  case none => exact h'
  case some h =>
    cases h'
    case some h' => exact .some <| h.trans h'

theorem Same.getD {v w : Option Json} (h : Same v w) : Reordered anyOrder (v.getD .null) (w.getD .null) := by
  cases h
  case none   => exact .null
  case some h => exact h

end Json

namespace JsValue

open Json

-- What the values that a value is made of have, the value has.
theorem induct {Q : JsValue → Prop} (undefined : Q undefined) (null : Q null) (bool : ∀ b, Q (bool b))
    (number : ∀ n, Q (number n)) (nonFinite : Q nonFinite) (string : ∀ s, Q (string s))
    (array : ∀ vs, (∀ v ∈ vs, Q v) → Q (array vs)) (object : ∀ ms, (∀ k v, (k, v) ∈ ms → Q v) → Q (object ms))
    (serializable : ∀ ms j, (∀ k v, (k, v) ∈ ms → Q v) → Q (serializable ms j)) : ∀ v, Q v
  | .undefined         => undefined
  | .null              => null
  | .bool b            => bool b
  | .number n          => number n
  | .nonFinite         => nonFinite
  | .string s          => string s
  | .array vs          => array vs fun v _ =>
    induct undefined null bool number nonFinite string array object serializable v
  | .object ms         => object ms fun _ v _ =>
    induct undefined null bool number nonFinite string array object serializable v
  | .serializable ms j => serializable ms j fun _ v _ =>
    induct undefined null bool number nonFinite string array object serializable v
termination_by v => sizeOf v
decreasing_by
  case _ h => simpa using Nat.lt_add_left 1 (List.sizeOf_lt_of_mem h)
  all_goals
    have := List.sizeOf_lt_of_mem ‹_ ∈ _›
    simp only [Prod.mk.sizeOf_spec, JsValue.object.sizeOf_spec, JsValue.serializable.sizeOf_spec] at *
    omega

-- No object has two members of the same name, nor does one that an inherited `toJSON` makes.
inductive Distinct : JsValue → Prop
  | undefined  : Distinct undefined
  | null       : Distinct null
  | bool (b)   : Distinct (bool b)
  | number (n) : Distinct (number n)
  | nonFinite  : Distinct nonFinite
  | string (s) : Distinct (string s)
  | array      : (∀ v ∈ vs, Distinct v) → Distinct (array vs)
  | object     : (names ms).Nodup → (∀ k v, (k, v) ∈ ms → Distinct v) → Distinct (object ms)
  | serializable :
    (names ms).Nodup → (∀ k v, (k, v) ∈ ms → Distinct v) → (∀ j, json = some j → j.Distinct) →
    Distinct (serializable ms json)

mutual

-- The value with plain objects in place of those that inherit a `toJSON`.
def plain : JsValue → JsValue
  | array vs          => array (plainItems vs)
  | object ms         => object (plainMembers ms)
  | serializable ms _ => object (plainMembers ms)
  | undefined         => undefined
  | null              => null
  | bool b            => bool b
  | number n          => number n
  | nonFinite         => nonFinite
  | string s          => string s

def plainItems : List JsValue → List JsValue
  | []      => []
  | v :: vs => v.plain :: plainItems vs

def plainMembers : List (String × JsValue) → List (String × JsValue)
  | []           => []
  | (k, v) :: ms => (k, v.plain) :: plainMembers ms

end

-- All that inherits a `toJSON` is serialized to what a plain object with its members would be.
inductive Faithful : JsValue → Prop
  | undefined    : Faithful undefined
  | null         : Faithful null
  | bool (b)     : Faithful (bool b)
  | number (n)   : Faithful (number n)
  | nonFinite    : Faithful nonFinite
  | string (s)   : Faithful (string s)
  | array        : (∀ v ∈ vs, Faithful v) → Faithful (array vs)
  | object       : (∀ k v, (k, v) ∈ ms → Faithful v) → Faithful (object ms)
  | serializable : Reordered anyOrder json (.object (toJsonMembers (plainMembers ms))) →
    Faithful (serializable ms (some json))

theorem plainItems_eq (vs : List JsValue) : plainItems vs = vs.map plain := by
  induction vs
  case nil     => rfl
  case cons ih => rw [plainItems, ih, List.map_cons]

theorem plainMembers_eq (ms : List (String × JsValue)) : plainMembers ms = ms.map fun m => (m.fst, m.snd.plain) := by
  induction ms
  case nil     => rfl
  case cons ih => rw [plainMembers, ih, List.map_cons]

theorem toJsons_eq (vs : List JsValue) : toJsons vs = vs.map fun v => v.toJson.getD .null := by
  induction vs
  case nil     => rfl
  case cons ih => rw [toJsons, ih, List.map_cons]

theorem mem_toJsonMembers {ms : List (String × JsValue)} :
    (k, j) ∈ toJsonMembers ms ↔ ∃ v, (k, v) ∈ ms ∧ v.toJson = some j := by
  induction ms
  case nil => simp [toJsonMembers]
  case cons m ms ih =>
    obtain ⟨k', v⟩ := m
    rw [toJsonMembers]
    split
    case h_1 j' hj =>
      simp only [List.mem_cons, Prod.mk.injEq, ih, or_and_right, exists_or]
      refine or_congr_left ⟨?_, ?_⟩
      · rintro ⟨rfl, rfl⟩
        exact ⟨v, ⟨rfl, rfl⟩, hj⟩
      · rintro ⟨_, ⟨rfl, rfl⟩, hv⟩
        exact ⟨rfl, Option.some.inj <| hv.symm.trans hj⟩
    case h_2 hj =>
      simp only [List.mem_cons, Prod.mk.injEq, ih, or_and_right, exists_or]
      refine (or_iff_right ?_).symm
      rintro ⟨_, ⟨_, rfl⟩, hv⟩
      cases hj.symm.trans hv

theorem names_toJsonMembers_sublist (ms : List (String × JsValue)) : (names (toJsonMembers ms)).Sublist (names ms) := by
  induction ms
  case nil => exact .slnil
  case cons m ms ih =>
    obtain ⟨k, v⟩ := m
    rw [toJsonMembers]
    split
    case h_1 => exact .cons_cons _ ih
    case h_2 => exact .cons _ ih

theorem mem_names_toJsonMembers {ms : List (String × JsValue)} :
    k ∈ names (toJsonMembers ms) ↔ ∃ v j, (k, v) ∈ ms ∧ v.toJson = some j := by
  constructor
  case mp =>
    intro h
    obtain ⟨⟨_, j⟩, hj, rfl⟩ := List.mem_map.mp h
    have ⟨v, hv, hj⟩ := mem_toJsonMembers.mp hj
    exact ⟨v, j, hv, hj⟩
  case mpr =>
    intro ⟨v, j, hv, hj⟩
    exact List.mem_map_of_mem (f := (·.fst)) <| mem_toJsonMembers.mpr ⟨v, hv, hj⟩

section
variable {ms ns : List (String × JsValue)}

-- Objects with the same names are serialized to the same if their members of the same name are.
theorem reordered_members_iff (hd : (names ms).Nodup) (hp : (names ms).Perm (names ns)) :
    Reordered anyOrder (.object (toJsonMembers ms)) (.object (toJsonMembers ns)) ↔
    ∀ k v w, (k, v) ∈ ms → (k, w) ∈ ns → Same v.toJson w.toJson := by
  have hd' := hp.nodup_iff.mp hd
  constructor
  case mp =>
    intro h k v w hv hw
    cases h
    case object hn _ hr =>
    have he : k ∈ names (toJsonMembers ms) ↔ k ∈ names (toJsonMembers ns) := hn.mem_iff
    simp only [mem_names_toJsonMembers] at he
    cases hj : v.toJson <;> cases hj' : w.toJson
    case none.none => exact .none
    case some.some j j' => exact .some <| hr k j j' (mem_toJsonMembers.mpr ⟨v, hv, hj⟩) (mem_toJsonMembers.mpr ⟨w, hw, hj'⟩)
    case none.some j' =>
      have ⟨_, _, hv', hs⟩ := he.mpr ⟨w, j', hw, hj'⟩
      cases mem_unique hd hv hv'
      cases hj.symm.trans hs
    case some.none j =>
      have ⟨_, _, hw', hs⟩ := he.mp ⟨v, j, hv, hj⟩
      cases mem_unique hd' hw hw'
      cases hj'.symm.trans hs
  case mpr =>
    intro h
    have sub {ms ns : List (String × JsValue)} (hp : (names ms).Perm (names ns))
        (h : ∀ k v w, (k, v) ∈ ms → (k, w) ∈ ns → Same v.toJson w.toJson) :
        names (toJsonMembers ms) ⊆ names (toJsonMembers ns) := by
      intro k hk
      have ⟨v, j, hv, hj⟩ := mem_names_toJsonMembers.mp hk
      have hk : k ∈ names ns := hp.subset <| List.mem_map_of_mem hv
      obtain ⟨⟨_, w⟩, hw, rfl⟩ := List.mem_map.mp hk
      have hs := h _ v w hv hw
      rw [hj] at hs
      cases hj' : w.toJson <;> rw [hj'] at hs
      case none   => cases hs
      case some j => exact mem_names_toJsonMembers.mpr ⟨w, j, hw, hj'⟩
    refine .object ?_ trivial fun k j j' hj hj' => ?_
    · have hn := hd.sublist (names_toJsonMembers_sublist ms)
      have hn' := hd'.sublist (names_toJsonMembers_sublist ns)
      exact (List.perm_ext_iff_of_nodup hn hn').mpr fun k =>
        ⟨fun hk => sub hp h hk, fun hk => sub hp.symm (fun k w v hw hv => (h k v w hv hw).symm) hk⟩
    · have ⟨v, hv, hj⟩ := mem_toJsonMembers.mp hj
      have ⟨w, hw, hj'⟩ := mem_toJsonMembers.mp hj'
      have hs := h k v w hv hw
      rw [hj, hj'] at hs
      cases hs
      case some hr => exact hr

end

section
variable {f g : JsValue → JsValue}

theorem names_map (ms : List (String × JsValue)) : names (ms.map fun m => (m.fst, f m.snd)) = names ms := by
  simp [names, Function.comp_def]

theorem mem_map_members {ms : List (String × JsValue)} (h : (k, w) ∈ ms.map fun m => (m.fst, f m.snd)) :
    ∃ v, (k, v) ∈ ms ∧ f v = w := by
  obtain ⟨⟨_, v⟩, hv, he⟩ := List.mem_map.mp h
  cases he
  exact ⟨v, hv, rfl⟩

-- Objects whose members are made from the same values in two ways
theorem reordered_map_iff {ms : List (String × JsValue)} (hd : (names ms).Nodup)
    (hp : ns.Perm (ms.map fun m => (m.fst, g m.snd))) :
    Reordered anyOrder (.object (toJsonMembers (ms.map fun m => (m.fst, f m.snd)))) (.object (toJsonMembers ns)) ↔
    ∀ k v, (k, v) ∈ ms → Same (f v).toJson (g v).toJson := by
  have hn : (names (ms.map fun m => (m.fst, f m.snd))).Perm (names ns) := by
    rw [names_map, ← @names_map g]
    exact (hp.map _).symm
  rw [reordered_members_iff (by rwa [names_map]) hn]
  constructor
  case mp =>
    exact fun h k v hv => h k _ _ (List.mem_map_of_mem hv) <| hp.symm.subset <| List.mem_map_of_mem hv
  case mpr =>
    intro h k v w hv hw
    have ⟨a, ha, hv⟩ := mem_map_members hv
    have ⟨b, hb, hw⟩ := mem_map_members <| hp.subset hw
    cases mem_unique hd ha hb
    exact hv ▸ hw ▸ h k a ha

theorem reordered_items_iff (vs : List JsValue) :
    Reordered anyOrder (.array (toJsons (vs.map f))) (.array (toJsons (vs.map g))) ↔
    ∀ v ∈ vs, Reordered anyOrder ((f v).toJson.getD .null) ((g v).toJson.getD .null) := by
  simp only [toJsons_eq, List.map_map]
  constructor
  case mp =>
    intro h v hv
    cases h
    case array hl hr =>
    have ⟨i, hi, hv⟩ := List.getElem_of_mem hv
    refine hr i _ _ ?_ ?_ <;> simp [hi, hv]
  case mpr =>
    intro h
    refine .array (by simp) fun i v w hv hw => ?_
    simp only [List.getElem?_map, Option.map_eq_some_iff] at hv hw
    obtain ⟨a, ha, rfl⟩ := hv
    obtain ⟨b, hb, rfl⟩ := hw
    cases ha.symm.trans hb
    exact h a <| List.mem_of_getElem? ha

end

section
variable {v w : JsValue} {localeCompare : String → String → Ordering}

theorem canonicalizeItems_eq (vs : List JsValue) :
    canonicalizeItems localeCompare vs = vs.map (canonicalize localeCompare) := by
  induction vs
  case nil     => rfl
  case cons ih => rw [canonicalizeItems, ih, List.map_cons]

theorem canonicalizeMembers_eq (ms : List (String × JsValue)) :
    canonicalizeMembers localeCompare ms = ms.map fun m => (m.fst, m.snd.canonicalize localeCompare) := by
  induction ms
  case nil     => rfl
  case cons ih => rw [canonicalizeMembers, ih, List.map_cons]

theorem Distinct.plain (h : v.Distinct) : v.plain.Distinct := by
  have members {ms : List (String × JsValue)} (hn : (names ms).Nodup)
      (ih : ∀ k v, (k, v) ∈ ms → v.plain.Distinct) : (JsValue.object (plainMembers ms)).Distinct := by
    rw [plainMembers_eq]
    refine .object (by rwa [names_map]) fun k w hw => ?_
    have ⟨v, hv, hw⟩ := mem_map_members hw
    exact hw ▸ ih k v hv
  induction h
  case array ih =>
    rw [JsValue.plain, plainItems_eq]
    exact .array fun w hw => have ⟨v, hv, hw⟩ := List.mem_map.mp hw; hw ▸ ih v hv
  case object hn _ ih         => exact members hn ih
  case serializable hn _ _ ih => exact members hn ih
  case undefined              => exact .undefined
  case null                   => exact .null
  case bool b                 => exact .bool b
  case number n               => exact .number n
  case nonFinite              => exact .nonFinite
  case string s               => exact .string s

-- Plain values are serialized to what they are canonicalized to, up to the order of members.
theorem same_canonicalize (h : v.Distinct) : Same v.plain.toJson (v.canonicalize localeCompare).toJson := by
  have members {ms : List (String × JsValue)} (hn : (names ms).Nodup)
      (ih : ∀ k v, (k, v) ∈ ms → Same v.plain.toJson (v.canonicalize localeCompare).toJson) :
      Reordered anyOrder (.object (toJsonMembers (plainMembers ms)))
        (.object (toJsonMembers (fromEntries (sortEntries localeCompare (canonicalizeMembers localeCompare ms))))) := by
    rw [plainMembers_eq]
    refine (reordered_map_iff hn ?_).mpr ih
    rw [canonicalizeMembers_eq]
    exact arranged_perm _
  induction h
  case array ih =>
    rw [plain, canonicalize, plainItems_eq, canonicalizeItems_eq]
    exact .some <| (reordered_items_iff _).mpr fun v hv => (ih v hv).getD
  case object hn _ ih         => exact .some <| members hn ih
  case serializable hn _ _ ih => exact .some <| members hn ih
  case undefined              => exact .none
  case null                   => exact .some .null
  case bool b                 => exact .some (.bool b)
  case number n               => exact .some (.number n)
  case nonFinite              => exact .some .null
  case string s               => exact .some (.string s)

-- What is left out of an object is not `null` in an array but as a plain value would be.
theorem same_of_getD (h : Reordered anyOrder (v.toJson.getD .null) (v.plain.toJson.getD .null)) :
    Same v.toJson v.plain.toJson := by
  cases v
  case undefined => exact .none
  case serializable ms j =>
    cases j
    case none   => cases h
    case some j => exact .some h
  all_goals exact .some h

theorem faithful_iff (h : v.Distinct) : v.Faithful ↔ Same v.toJson v.plain.toJson := by
  induction h
  case array vs _ ih =>
    have hi : Same (array vs).toJson (array vs).plain.toJson ↔ ∀ v ∈ vs, Same v.toJson v.plain.toJson := by
      rw [plain, plainItems_eq, toJson, toJson, Same, Option.rel_some_some]
      have h := reordered_items_iff (f := id) (g := plain) vs
      rw [List.map_id] at h
      exact h.trans ⟨fun h v hv => same_of_getD (h v hv), fun h v hv => Same.getD (h v hv)⟩
    rw [hi]
    constructor
    case mp  => rintro ⟨⟩ v hv; exact (ih v hv).mp <| ‹∀ v ∈ vs, Faithful v› v hv
    case mpr => exact fun h => .array fun v hv => (ih v hv).mpr (h v hv)
  case object ms hn _ ih =>
    have hi : Same (object ms).toJson (object ms).plain.toJson ↔ ∀ k v, (k, v) ∈ ms → Same v.toJson v.plain.toJson := by
      rw [plain, plainMembers_eq, toJson, toJson, Same, Option.rel_some_some]
      have h := reordered_map_iff (f := id) (g := plain) hn (.refl _)
      simpa using h
    rw [hi]
    constructor
    case mp =>
      intro h k v hv
      cases h
      case object hf => exact (ih k v hv).mp (hf k v hv)
    case mpr => exact fun h => .object fun k v hv => (ih k v hv).mpr (h k v hv)
  case serializable ms j hn _ _ _ =>
    constructor
    case mp =>
      intro h
      cases h
      case serializable hr _ => exact .some hr
    case mpr =>
      intro h
      cases j
      case none   => cases h
      case some j =>
        cases h
        case some h => exact .serializable h
  case undefined   => exact ⟨fun _ => .none, fun _ => .undefined⟩
  case null        => exact ⟨fun _ => .some .null, fun _ => .null⟩
  case bool b      => exact ⟨fun _ => .some (.bool b), fun _ => .bool b⟩
  case number n    => exact ⟨fun _ => .some (.number n), fun _ => .number n⟩
  case nonFinite   => exact ⟨fun _ => .some .null, fun _ => .nonFinite⟩
  case string s    => exact ⟨fun _ => .some (.string s), fun _ => .string s⟩

theorem Faithful.same (hf : v.Faithful) (hd : v.Distinct) : Same v.toJson (v.canonicalize localeCompare).toJson :=
  ((faithful_iff hd).mp hf).trans (same_canonicalize hd)

theorem canonicalJson_eq_iff_toJson : v.canonicalJson localeCompare = w.canonicalJson localeCompare ↔
    (v.canonicalize localeCompare).toJson = (w.canonicalize localeCompare).toJson :=
  (Option.map_injective text_injective).eq_iff

-- Of faithful values, those with the same canonical text are serialized to the same value.
theorem Faithful.same_of_canonicalJson (hv : v.Faithful) (hw : w.Faithful) (hd : v.Distinct) (hd' : w.Distinct)
    (h : v.canonicalJson localeCompare = w.canonicalJson localeCompare) : Same v.toJson w.toJson := by
  have hw := @same _ localeCompare hw hd'
  rw [← canonicalJson_eq_iff_toJson.mp h] at hw
  exact (hv.same hd).trans hw.symm

end

end JsValue

namespace ExecutionRequest

-- The request as JavaScript has it: no two members have the same name.
abbrev Distinct (r : ExecutionRequest) : Prop :=
  (JsValue.object r.context).Distinct

abbrev Faithful (r : ExecutionRequest) : Prop :=
  (JsValue.object r.context).Faithful

-- The request with plain objects in its context.
def plain (r : ExecutionRequest) : ExecutionRequest where
  identity         := r.identity
  objective        := r.objective
  context          := JsValue.plainMembers r.context
  policySet        := r.policySet
  requestedTools   := r.requestedTools
  requiresApproval := r.requiresApproval
  evidenceRequired := r.evidenceRequired
  createdAt        := r.createdAt

variable {r r' : ExecutionRequest}

-- What a request as an object has if its context does.
theorem toJs_of_context {Q : JsValue → Prop} (string : ∀ s, Q (.string s)) (bool : ∀ b, Q (.bool b))
    (array : ∀ vs, (∀ v ∈ vs, Q v) → Q (.array vs))
    (object : ∀ ms, (Json.names ms).Nodup → (∀ k v, (k, v) ∈ ms → Q v) → Q (.object ms))
    (h : Q (.object r.context)) : Q r.toJs := by
  have strings (l : List String) : Q (.array (l.map .string)) := by
    refine array _ fun v hv => ?_
    have ⟨s, _, hs⟩ := List.mem_map.mp hv
    exact hs ▸ string s
  refine object _ (by simp) fun k v hv => ?_
  simp only [List.mem_cons, Prod.mk.injEq, List.not_mem_nil, or_false] at hv
  obtain ⟨_, rfl⟩ | ⟨_, rfl⟩ | ⟨_, rfl⟩ | ⟨_, rfl⟩ | ⟨_, rfl⟩ | ⟨_, rfl⟩ | ⟨_, rfl⟩ | ⟨_, rfl⟩ := hv
  · refine object _ (by simp) fun k v hv => ?_
    simp only [List.mem_cons, Prod.mk.injEq, List.not_mem_nil, or_false] at hv
    obtain ⟨_, rfl⟩ | ⟨_, rfl⟩ | ⟨_, rfl⟩ | ⟨_, rfl⟩ | ⟨_, rfl⟩ := hv <;> exact string _
  · exact string _
  · exact h
  · exact strings _
  · exact strings _
  · exact bool _
  · exact bool _
  · exact string _

theorem distinct_toJs (h : r.Distinct) : r.toJs.Distinct :=
  toJs_of_context .string .bool (fun _ => .array) (fun _ => .object) h

theorem faithful_toJs (h : r.Faithful) : r.toJs.Faithful :=
  toJs_of_context .string .bool (fun _ => .array) (fun _ _ => .object) h

def members (r : ExecutionRequest) : List (String × JsValue) :=
  match r.toJs with
  | .object ms => ms
  | _          => []

theorem Faithful.requestJson (hf : r.Faithful) (hf' : r'.Faithful) (hd : r.Distinct) (hd' : r'.Distinct)
    (h : r.toJs.canonicalJson localeCompare = r'.toJs.canonicalJson localeCompare) :
    Json.Reordered Json.anyOrder r.requestJson r'.requestJson :=
  have hs := JsValue.Faithful.same_of_canonicalJson (faithful_toJs hf) (faithful_toJs hf') (distinct_toJs hd)
    (distinct_toJs hd') h
  Json.Same.getD hs

end ExecutionRequest

open System PostgresExecutionService

-- The requests that calls of `start` have taken for repeated ones have the hash that is recorded under their key.
def Repeats (host : Host) (s : platform.State) : Prop :=
  ∀ pid request hash options event now, ⟨pid, Call.start request hash options, ⟨event, true⟩, now⟩ ∈ s.log →
    ∃ key row, options.key = some key ∧ s.db.idempotency.find (request.identity.tenantId, key) = some row ∧
      requestHash host request = some row.requestHash

theorem Repeats.mono {s s' : platform.State} (h : Repeats host s) (hd : s'.db = s.db) (hl : s'.log = s.log) :
    Repeats host s' := by
  unfold Repeats
  rw [hd, hl]
  exact h

namespace Sample

-- A request with a date in its context
def dated (at_ : String) : ExecutionRequest :=
  { request false with context := [("at", .serializable [] (some (.string at_)))] }

end Sample

end Logon
