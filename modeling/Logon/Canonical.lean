import Mathlib.Data.Set.List
import Logon.Kernel.JsonText
import Logon.Library.StableSort

-- When canonical texts do not depend on the order in which objects have their members.

namespace Logon

open JsValue

namespace Json

abbrev names (ms : List (String × α)) : List String :=
  ms.map (·.fst)

-- No object has two members of the same name.
inductive Distinct : Json → Prop
  | null       : Distinct null
  | bool (b)   : Distinct (bool b)
  | number (n) : Distinct (number n)
  | string (s) : Distinct (string s)
  | array      : (∀ v ∈ vs, Distinct v) → Distinct (array vs)
  | object     : (names ms).Nodup → (∀ k v, (k, v) ∈ ms → Distinct v) → Distinct (object ms)

-- Values that are equal up to the order of the members of objects at any depth, where `allow` tells
-- which orders an object may have instead of its own one.
inductive Reordered (allow : List String → List String → Prop) : Json → Json → Prop
  | null       : Reordered allow null null
  | bool (b)   : Reordered allow (bool b) (bool b)
  | number (n) : Reordered allow (number n) (number n)
  | string (s) : Reordered allow (string s) (string s)
  | array {vs ws : List Json} :
    vs.length = ws.length → (∀ (i : Nat) v w, vs[i]? = some v → ws[i]? = some w → Reordered allow v w) →
    Reordered allow (array vs) (array ws)
  | object {ms ns : List (String × Json)} :
    (names ms).Perm (names ns) → allow (names ms) (names ns) →
    (∀ k v w, (k, v) ∈ ms → (k, w) ∈ ns → Reordered allow v w) → Reordered allow (object ms) (object ns)

def anyOrder : List String → List String → Prop :=
  fun _ _ => True

-- The names that `localeCompare` cannot tell apart are in the same order, array indices aside.
def TiesKept (localeCompare : String → String → Ordering) (l l' : List String) : Prop :=
  ∀ a b, a ≠ b → localeCompare a b = .eq → arrayIndex a = none → arrayIndex b = none →
  [a, b].Sublist l → [a, b].Sublist l'

end Json

-- The order by which names are sorted
abbrev NotAfter (localeCompare : String → String → Ordering) (a b : String) : Prop :=
  localeCompare a b ≠ .gt

-- Whether objects list a member of this name before their other ones.
def isIndex (name : String) : Bool :=
  (arrayIndex name).isSome

def isOther (name : String) : Bool :=
  (arrayIndex name).isNone

abbrev IndexLe (a b : String) : Prop :=
  (arrayIndex a).getD 0 ≤ (arrayIndex b).getD 0

-- The order of names in a canonical object
def arrange (localeCompare : String → String → Ordering) (l : List String) : List String :=
  ((l.insertionSort (NotAfter localeCompare)).filter isIndex).insertionSort IndexLe ++
    (l.insertionSort (NotAfter localeCompare)).filter isOther

open Json

theorem names_fromEntries (entries : List (String × JsValue)) : names (fromEntries entries) =
    ((names entries).filter isIndex).insertionSort IndexLe ++ (names entries).filter isOther := by
  rw [fromEntries, names, List.map_append, List.filter_map, List.filter_map]
  congr 1
  exact List.map_insertionSort _ IndexLe _ _ fun _ _ _ _ => .rfl

theorem names_sortEntries (localeCompare : String → String → Ordering) (entries : List (String × JsValue)) :
    names (sortEntries localeCompare entries) = (names entries).insertionSort (NotAfter localeCompare) := by
  exact List.map_insertionSort _ (NotAfter localeCompare) _ _ fun _ _ _ _ => .rfl

theorem fromEntries_perm (entries : List (String × JsValue)) : (fromEntries entries).Perm entries := by
  refine .trans (.append_right _ <| List.perm_insertionSort _ _) ?_
  simpa using List.filter_append_perm (fun e : String × JsValue => (arrayIndex e.fst).isSome) entries

theorem name_of_arrayIndex (h : arrayIndex a = some n) : a = toString n := by
  unfold arrayIndex at h
  split at h
  case h_2 => cases h
  case h_1 =>
    split at h
    case isFalse => cases h
    case isTrue hn =>
      cases h
      exact hn.left.symm

theorem arrayIndex_injective (ha : arrayIndex a = some n) (hb : arrayIndex b = some n) : a = b := by
  rw [name_of_arrayIndex ha, name_of_arrayIndex hb]

theorem arrayIndex_eq_none (hc : c ∈ a.toList) (hd : ¬c.isDigit) : arrayIndex a = none := by
  refine Option.eq_none_iff_forall_ne_some.mpr fun n hn => hd ?_
  rw [name_of_arrayIndex hn, Nat.toString_eq_ofList_toDigits, String.toList_ofList] at hc
  exact Nat.isDigit_of_mem_toDigits (by decide) (by decide) hc

-- The canonical form of a value, before it is written
abbrev canonical (localeCompare : String → String → Ordering) (v : Json) : JsValue :=
  (ofJson v).canonicalize localeCompare

abbrev canonicalEntries (localeCompare : String → String → Ordering) (ms : List (String × Json)) :
    List (String × JsValue) :=
  ms.map fun m => (m.fst, canonical localeCompare m.snd)

section
variable {localeCompare : String → String → Ordering}

theorem canonical_array (vs : List Json) :
    canonical localeCompare (.array vs) = .array (vs.map (canonical localeCompare)) := by
  have (vs : List Json) : canonicalizeItems localeCompare (ofJsons vs) = vs.map (canonical localeCompare) := by
    induction vs
    case nil     => rfl
    case cons ih => rw [ofJsons, canonicalizeItems, ih, List.map_cons]
  rw [canonical, ofJson, canonicalize, this]

theorem canonical_object (ms : List (String × Json)) : canonical localeCompare (.object ms) =
    .object (fromEntries (sortEntries localeCompare (canonicalEntries localeCompare ms))) := by
  have (ms : List (String × Json)) :
      canonicalizeMembers localeCompare (ofJsonMembers ms) = canonicalEntries localeCompare ms := by
    induction ms
    case nil     => rfl
    case cons ih =>
      rw [ofJsonMembers, canonicalizeMembers, ih]
      rfl
  rw [canonical, ofJson, canonicalize, this]

theorem names_canonicalEntries (ms : List (String × Json)) : names (canonicalEntries localeCompare ms) = names ms := by
  simp [names, canonicalEntries, Function.comp_def]

-- Members of the same name
theorem mem_unique {ms : List (String × α)} (hd : (names ms).Nodup) (h : (k, a) ∈ ms) (h' : (k, b) ∈ ms) : a = b := by
  have : (k, a) = (k, b) := List.inj_on_of_nodup_map hd h h' rfl
  cases this
  rfl

theorem arranged_perm (entries : List (String × JsValue)) :
    (fromEntries (sortEntries localeCompare entries)).Perm entries :=
  (fromEntries_perm _).trans (List.perm_insertionSort _ _)

-- Objects have the same entries if members of the same name have the same canonical form.
theorem entries_perm_iff {ms ns : List (String × Json)} (hp : (names ms).Perm (names ns)) (hd : (names ms).Nodup) :
    (canonicalEntries localeCompare ms).Perm (canonicalEntries localeCompare ns) ↔
    ∀ k v w, (k, v) ∈ ms → (k, w) ∈ ns → canonical localeCompare v = canonical localeCompare w := by
  have distinct {ms : List (String × Json)} (hd : (names ms).Nodup) :
      (names (canonicalEntries localeCompare ms)).Nodup := by
    rwa [names_canonicalEntries]
  have hd' := hp.nodup_iff.mp hd
  have mem {ms : List (String × Json)} {k v} (h : (k, v) ∈ ms) : (k, canonical localeCompare v) ∈ canonicalEntries localeCompare ms :=
    List.mem_map_of_mem h
  constructor
  case mp => exact fun h k v w hv hw => mem_unique (distinct hd') (h.subset (mem hv)) (mem hw)
  case mpr =>
    intro h
    have sub {ms ns : List (String × Json)} (hp : (names ms).Perm (names ns))
        (h : ∀ k v w, (k, v) ∈ ms → (k, w) ∈ ns → canonical localeCompare v = canonical localeCompare w) :
        canonicalEntries localeCompare ms ⊆ canonicalEntries localeCompare ns := by
      intro e he
      obtain ⟨⟨k, v⟩, hv, rfl⟩ := List.mem_map.mp he
      have hk : k ∈ names ns := hp.subset <| List.mem_map_of_mem hv
      obtain ⟨⟨_, w⟩, hw, rfl⟩ := List.mem_map.mp hk
      rw [h _ v w hv hw]
      exact mem hw
    refine (List.perm_ext_iff_of_nodup (distinct hd).of_map (distinct hd').of_map).mpr fun e => ⟨?_, ?_⟩
    · exact fun he => sub hp h he
    · exact fun he => sub hp.symm (fun k w v hw hv => (h k v w hv hw).symm) he

-- A canonical form is a JSON value again.
theorem exists_ofJson (v : Json) : ∃ w, canonical localeCompare v = ofJson w := by
  induction v using Json.induct
  case array vs ih =>
    have : vs.map (canonical localeCompare) ∈ Set.range (List.map ofJson) := by
      rw [Set.range_list_map]
      intro a ha
      obtain ⟨v, hv, ha⟩ := List.mem_map.mp ha
      obtain ⟨w, hw⟩ := ih v hv
      exact ⟨w, hw.symm.trans ha⟩
    obtain ⟨ws, hw⟩ := this
    exact ⟨.array ws, by rw [canonical_array, ofJson, ofJsons_eq, hw]⟩
  case object ms ih =>
    have : fromEntries (sortEntries localeCompare (canonicalEntries localeCompare ms)) ∈
        Set.range (List.map fun m : String × Json => (m.fst, ofJson m.snd)) := by
      rw [Set.range_list_map]
      intro a ha
      obtain ⟨m, hm, ha⟩ := List.mem_map.mp <| (arranged_perm _).subset ha
      obtain ⟨w, hw⟩ := ih m.fst m.snd hm
      exact ⟨(m.fst, w), by rw [← ha, hw]⟩
    obtain ⟨ns, hn⟩ := this
    exact ⟨.object ns, by rw [canonical_object, ofJson, ofJsonMembers_eq, hn]⟩
  case null     => exact ⟨.null, rfl⟩
  case bool b   => exact ⟨.bool b, rfl⟩
  case number n => exact ⟨.number n, rfl⟩
  case string s => exact ⟨.string s, rfl⟩

theorem canonicalJson_eq_iff_canonical {v w : Json} :
    (ofJson v).canonicalJson localeCompare = (ofJson w).canonicalJson localeCompare ↔
    canonical localeCompare v = canonical localeCompare w := by
  have ⟨v', hv⟩ := @exists_ofJson localeCompare v
  have ⟨w', hw⟩ := @exists_ofJson localeCompare w
  rw [canonicalJson, canonicalJson, ← canonical, ← canonical, hv, hw, toJson_ofJson, toJson_ofJson,
    ofJson_injective.eq_iff]
  exact ⟨fun h => text_injective <| Option.some.inj h, fun h => by rw [h]⟩

end

section
variable {localeCompare : String → String → Ordering} [Std.TransCmp localeCompare]

instance : Std.Total (NotAfter localeCompare) where
  total a b := by
    rw [NotAfter, NotAfter, @Std.OrientedCmp.eq_swap _ localeCompare _ b a]
    cases localeCompare a b <;> simp

instance : IsTrans String (NotAfter localeCompare) where
  trans a b c hab hbc := by
    simp only [NotAfter, ne_eq, Ordering.ne_gt_iff_isLE] at *
    exact Std.TransCmp.isLE_trans hab hbc

theorem tie_iff {a b : String} : localeCompare a b = .eq ↔ NotAfter localeCompare a b ∧ NotAfter localeCompare b a := by
  rw [NotAfter, NotAfter, @Std.OrientedCmp.eq_swap _ localeCompare _ b a]
  cases localeCompare a b <;> simp

theorem tiesKept_iff {l l' : List String} : TiesKept localeCompare l l' ↔
    List.KeepsTies (NotAfter localeCompare) (l.filter isOther) (l'.filter isOther) := by
  simp only [TiesKept, List.KeepsTies, tie_iff, List.pair_sublist_filter, isOther, Option.isNone_iff_eq_none]
  grind

-- Array indices are in one order only.
theorem indices_eq {l l' : List String} (hp : l.Perm l') :
    (l.filter isIndex).insertionSort IndexLe = (l'.filter isIndex).insertionSort IndexLe := by
  have : Std.Total IndexLe := ⟨fun a b => Nat.le_total _ _⟩
  have : IsTrans String IndexLe := ⟨fun a b c => Nat.le_trans⟩
  have hp : ((l.filter isIndex).insertionSort IndexLe).Perm ((l'.filter isIndex).insertionSort IndexLe) :=
    (List.perm_insertionSort _ _).trans <| (hp.filter _).trans (List.perm_insertionSort _ _).symm
  refine hp.eq_of_pairwise (fun a b ha hb hab hba => ?_) (List.pairwise_insertionSort _ _)
    (List.pairwise_insertionSort _ _)
  simp only [List.mem_insertionSort, List.mem_filter, isIndex] at ha hb
  have ⟨n, ha⟩ := Option.isSome_iff_exists.mp ha.right
  have ⟨m, hb⟩ := Option.isSome_iff_exists.mp hb.right
  simp only [IndexLe, ha, hb, Option.getD_some] at hab hba
  cases Nat.le_antisymm hab hba
  exact arrayIndex_injective ha hb

theorem arrange_eq_iff {l l' : List String} (hp : l.Perm l') (hd : l.Nodup) :
    arrange localeCompare l = arrange localeCompare l' ↔ TiesKept localeCompare l l' := by
  have hs (l : List String) : List.StablySorted (NotAfter localeCompare) l (l.insertionSort (NotAfter localeCompare)) :=
    List.stablySorted_insertionSort l
  have hi := indices_eq <| ((hs l).perm.trans hp).trans (hs l').perm.symm
  rw [arrange, arrange, hi, List.append_cancel_left_eq, tiesKept_iff]
  exact ((hs l).filter isOther).eq_iff ((hs l').filter isOther) (hd.filter _) (hp.filter _)

-- Objects of the same entries
theorem entries_eq_iff {es es' : List (String × JsValue)} (hp : es.Perm es') (hd : (names es).Nodup) :
    fromEntries (sortEntries localeCompare es) = fromEntries (sortEntries localeCompare es') ↔
    TiesKept localeCompare (names es) (names es') := by
  have hn (es : List (String × JsValue)) : names (fromEntries (sortEntries localeCompare es)) =
      arrange localeCompare (names es) := by
    rw [names_fromEntries, names_sortEntries, arrange]
  have hp' := (@arranged_perm localeCompare es).trans <| hp.trans (@arranged_perm localeCompare es').symm
  rw [hp'.eq_iff_map_eq <| ((arranged_perm es).map _).nodup_iff.mpr hd]
  rw [← arrange_eq_iff (hp.map _) hd, ← hn, ← hn]

variable {v w : Json}

theorem canonical_eq_iff (hd : v.Distinct) (h : Reordered anyOrder v w) :
    canonical localeCompare v = canonical localeCompare w ↔ Reordered (TiesKept localeCompare) v w := by
  induction h
  case null     => exact ⟨fun _ => .null, fun _ => rfl⟩
  case bool b   => exact ⟨fun _ => .bool b, fun _ => rfl⟩
  case number n => exact ⟨fun _ => .number n, fun _ => rfl⟩
  case string s => exact ⟨fun _ => .string s, fun _ => rfl⟩
  case array vs ws hl hi ih =>
    cases hd
    case array hd =>
    rw [canonical_array, canonical_array, JsValue.array.injEq]
    have items (i : Nat) (v w) (hv : vs[i]? = some v) (hw : ws[i]? = some w) :
        canonical localeCompare v = canonical localeCompare w ↔ Reordered (TiesKept localeCompare) v w :=
      ih i v w hv hw <| hd v (List.mem_of_getElem? hv)
    constructor
    case mp =>
      intro h
      refine .array hl fun i v w hv hw => (items i v w hv hw).mp ?_
      have := congrArg (·[i]?) h
      simpa [hv, hw] using this
    case mpr =>
      intro h
      cases h
      case array _ hr =>
      refine List.ext_getElem (by simpa using hl) fun i hi hi' => ?_
      simp only [List.length_map] at hi hi'
      have hv := List.getElem?_eq_getElem hi
      have hw := List.getElem?_eq_getElem hi'
      simpa using (items i _ _ hv hw).mpr <| hr i _ _ hv hw
  case object ms ns hp _ _ ih =>
    cases hd
    case object hn hd =>
    rw [canonical_object, canonical_object, JsValue.object.injEq]
    have members (k v w) (hv : (k, v) ∈ ms) (hw : (k, w) ∈ ns) :
        canonical localeCompare v = canonical localeCompare w ↔ Reordered (TiesKept localeCompare) v w :=
      ih k v w hv hw <| hd k v hv
    have hn' : (names (canonicalEntries localeCompare ms)).Nodup := by rwa [names_canonicalEntries]
    constructor
    case mp =>
      intro h
      have he := (@arranged_perm localeCompare (canonicalEntries localeCompare ms)).symm
      rw [h] at he
      have he := he.trans (arranged_perm _)
      have ht := (entries_eq_iff he hn').mp h
      rw [names_canonicalEntries, names_canonicalEntries] at ht
      exact .object hp ht fun k v w hv hw => (members k v w hv hw).mp <| (entries_perm_iff hp hn).mp he k v w hv hw
    case mpr =>
      intro h
      cases h
      case object _ ht hr =>
      have he := (entries_perm_iff hp hn).mpr fun k v w hv hw => (members k v w hv hw).mpr (hr k v w hv hw)
      exact (entries_eq_iff he hn').mpr <| by rwa [names_canonicalEntries, names_canonicalEntries]

theorem canonicalJson_eq_iff (hd : v.Distinct) (h : Reordered anyOrder v w) :
    (ofJson v).canonicalJson localeCompare = (ofJson w).canonicalJson localeCompare ↔
    Reordered (TiesKept localeCompare) v w := by
  rw [canonicalJson_eq_iff_canonical, canonical_eq_iff hd h]

end

namespace Sample

-- An object with two members
abbrev pair (a b : String) : Json :=
  .object [(a, .null), (b, .null)]

theorem pair_distinct (hn : a ≠ b) : (pair a b).Distinct := by
  refine .object (by simpa using hn) fun k v h => ?_
  simp only [List.mem_cons, Prod.mk.injEq, List.not_mem_nil, or_false] at h
  obtain ⟨_, rfl⟩ | ⟨_, rfl⟩ := h <;> exact .null

theorem pair_reordered (ha : allow [a, b] [b, a]) : Reordered allow (pair a b) (pair b a) := by
  refine .object (.swap _ _ _) ha fun k v w hv hw => ?_
  simp only [List.mem_cons, Prod.mk.injEq, List.not_mem_nil, or_false] at hv hw
  obtain ⟨_, rfl⟩ | ⟨_, rfl⟩ := hv <;> obtain ⟨_, rfl⟩ | ⟨_, rfl⟩ := hw <;> exact .null

-- The letter e with an acute accent, as one character and as two.
def composed : String :=
  "\u00e9"

def decomposed : String :=
  "e\u0301"

-- Ranks both the same.
def canonically : String → String → Ordering :=
  compareOn fun name => if name = decomposed then composed else name

end Sample

theorem canonicalJson_eq_iff_swapped :
    (ofJson (Sample.pair "b" "a")).canonicalJson compare = (ofJson (Sample.pair "a" "b")).canonicalJson compare := by
  refine (canonicalJson_eq_iff (Sample.pair_distinct (by decide)) (Sample.pair_reordered trivial)).mpr ?_
  exact Sample.pair_reordered fun a b hn he _ _ _ => absurd (Std.LawfulEqCmp.eq_of_compare he) hn

theorem canonicalJson_depends_on_order : ∃ localeCompare, Std.TransCmp localeCompare ∧ ∃ v w : Json, v.Distinct ∧
    Reordered anyOrder v w ∧ (ofJson v).canonicalJson localeCompare ≠ (ofJson w).canonicalJson localeCompare := by
  have : Std.TransCmp Sample.canonically := inferInstanceAs (Std.TransCmp (compareOn _))
  have hd : (Sample.pair Sample.composed Sample.decomposed).Distinct := Sample.pair_distinct (by decide)
  have hr : Reordered anyOrder (Sample.pair Sample.composed Sample.decomposed) _ := Sample.pair_reordered trivial
  refine ⟨Sample.canonically, this, _, _, hd, hr, fun h => ?_⟩
  have h := (canonical_eq_iff hd hr).mp <| canonicalJson_eq_iff_canonical.mp h
  cases h
  case object _ ht _ =>
  have := ht Sample.composed Sample.decomposed (by decide) (by simp [Sample.canonically, compareOn])
    (arrayIndex_eq_none (c := 'é') (by decide) (by decide)) (arrayIndex_eq_none (c := 'e') (by decide) (by decide))
    (.refl _)
  exact absurd this (by decide)

end Logon
