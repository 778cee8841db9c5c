import Logon.Kernel.Json

-- A JSON value can be told from its text.

namespace Logon
namespace Json

-- What the values that a value is made of have, the value has.
theorem induct {Q : Json → Prop} (null : Q null) (bool : ∀ b, Q (bool b)) (number : ∀ n, Q (number n))
    (string : ∀ s, Q (string s)) (array : ∀ vs, (∀ v ∈ vs, Q v) → Q (array vs))
    (object : ∀ ms, (∀ k v, (k, v) ∈ ms → Q v) → Q (object ms)) : ∀ v, Q v
  | .null      => null
  | .bool b    => bool b
  | .number n  => number n
  | .string s  => string s
  | .array vs  => array vs fun v _ => induct null bool number string array object v
  | .object ms => object ms fun _ v _ => induct null bool number string array object v
termination_by v => sizeOf v
decreasing_by
  case _ h => simpa using Nat.lt_add_left 1 (List.sizeOf_lt_of_mem h)
  case _ h =>
    have := List.sizeOf_lt_of_mem h
    simp only [Prod.mk.sizeOf_spec, Json.object.sizeOf_spec] at *
    omega

-- The value of a hexadecimal digit.
def hexValue (c : Char) : Nat :=
  if c.isDigit then c.toNat - 48 else c.toNat - 87

theorem hexValue_digitChar : ∀ n < 16, hexValue (Nat.digitChar n) = n := by
  decide

-- Reads a character of a string literal.
def unescape : List Char → Option (Char × List Char)
  | []                                  => none
  | '"' :: _                            => none
  | '\\' :: 'u' :: _ :: _ :: a :: b :: r => some (Char.ofNat (16 * hexValue a + hexValue b), r)
  | '\\' :: 'b' :: r                    => some (Char.ofNat 8, r)
  | '\\' :: 't' :: r                    => some (Char.ofNat 9, r)
  | '\\' :: 'n' :: r                    => some (Char.ofNat 10, r)
  | '\\' :: 'f' :: r                    => some (Char.ofNat 12, r)
  | '\\' :: 'r' :: r                    => some (Char.ofNat 13, r)
  | '\\' :: c :: r                      => some (c, r)
  | c :: r                              => some (c, r)

theorem unescape_escape (c : Char) (r : List Char) : unescape ((escape c).toList ++ r) = some (c, r) := by
  unfold escape
  have hc (n : Nat) (h : c.toNat = n) : Char.ofNat n = c := by rw [← h, Char.ofNat_toNat]
  split
  case isTrue h => rw [h]; rfl
  split
  case isTrue h => rw [h]; rfl
  split
  case isTrue h => rw [← hc _ h]; rfl
  split
  case isTrue h => rw [← hc _ h]; rfl
  split
  case isTrue h => rw [← hc _ h]; rfl
  split
  case isTrue h => rw [← hc _ h]; rfl
  split
  case isTrue h => rw [← hc _ h]; rfl
  split
  case isTrue h =>
    have hd := hexValue_digitChar (c.toNat / 16) (by omega)
    have hm := hexValue_digitChar (c.toNat % 16) (by omega)
    simp [unescape, hd, hm, Nat.div_add_mod]
  case isFalse hq hb _ _ _ _ _ _ =>
    simp only [String.toList_singleton, List.singleton_append]
    unfold unescape
    split <;> simp_all

-- What may follow a value.
def Ends (r : List Char) : Prop :=
  ∀ c ∈ r.head?, c = ',' ∨ c = ']' ∨ c = '\x7d'

-- What begins with the text of an item can be told from what begins with the text of another one.
def Readable (f : α → List Char) (a : α) : Prop :=
  ∀ b r r', Ends r → Ends r' → f a ++ r = f b ++ r' → a = b ∧ r = r'

theorem Ends.cons (h : c = ',' ∨ c = ']' ∨ c = '\x7d') (r : List Char) : Ends (c :: r) := by
  intro c' hc
  cases hc
  exact h

section
variable {f : α → List Char} {as bs : List α} {c : Char} {r r' : List Char}

theorem ends_flatMap (hc : c = ']' ∨ c = '\x7d') (as : List α) (r : List Char) :
    Ends ((as.flatMap fun a => ',' :: f a) ++ c :: r) := by
  cases as
  case nil  => exact .cons (.inr hc) r
  case cons => exact .cons (.inl rfl) _

theorem flatMap_inj (hf : ∀ a ∈ as, Readable f a) (hc : c = ']' ∨ c = '\x7d')
    (h : (as.flatMap fun a => ',' :: f a) ++ c :: r = (bs.flatMap fun b => ',' :: f b) ++ c :: r') :
    as = bs ∧ r = r' := by
  have hn : c ≠ ',' := by rintro rfl; simp at hc
  induction as generalizing bs
  case nil =>
    cases bs
    case nil  => exact ⟨rfl, (List.cons.inj h).right⟩
    case cons => exact absurd (List.cons.inj h).left hn
  case cons a as ih =>
    cases bs
    case nil         => exact absurd (List.cons.inj h).left.symm hn
    case cons b bs =>
      simp only [List.flatMap_cons, List.cons_append, List.append_assoc, List.cons.injEq, true_and] at h
      have ⟨ha, hr⟩ := hf a (by simp) b _ _ (ends_flatMap hc as r) (ends_flatMap hc bs r') h
      have ⟨has, hr⟩ := ih (fun a ha => hf a (by simp [ha])) hr
      exact ⟨by rw [ha, has], hr⟩

-- Lists of items can be read up to the bracket that closes them.
theorem intercalate_inj (hf : ∀ a ∈ as, Readable f a) (hn : ∀ a r, ¬Ends (f a ++ r)) (hc : c = ']' ∨ c = '\x7d')
    (h : [','].intercalate (as.map f) ++ c :: r = [','].intercalate (bs.map f) ++ c :: r') : as = bs ∧ r = r' := by
  have he (a : α) (as : List α) : [','].intercalate ((a :: as).map f) = f a ++ as.flatMap fun a => ',' :: f a := by
    induction as generalizing a
    case nil          => simp
    case cons a' as ih => simpa using ih a'
  cases as
  case nil =>
    cases bs
    case nil         => exact ⟨rfl, (List.cons.inj h).right⟩
    case cons b bs =>
      rw [he, List.append_assoc] at h
      have h : c :: r = f b ++ _ := h
      exact absurd (h ▸ Ends.cons (.inr hc) r) (hn b _)
  case cons a as =>
    cases bs
    case nil =>
      rw [he, List.append_assoc] at h
      have h : f a ++ _ = c :: r' := h
      exact absurd (h ▸ Ends.cons (.inr hc) r') (hn a _)
    case cons b bs =>
      rw [he, he, List.append_assoc, List.append_assoc] at h
      have ⟨ha, hr⟩ := hf a (by simp) b _ _ (ends_flatMap hc as r) (ends_flatMap hc bs r') h
      have ⟨has, hr⟩ := flatMap_inj (fun a ha => hf a (by simp [ha])) hc hr
      exact ⟨by rw [ha, has], hr⟩

end

theorem escapes_inj {cs cs' r r' : List Char}
    (h : (cs.flatMap fun c => (escape c).toList) ++ '"' :: r = (cs'.flatMap fun c => (escape c).toList) ++ '"' :: r') :
    cs = cs' ∧ r = r' := by
  have closes (c : Char) (r r' : List Char) : '"' :: r ≠ (escape c).toList ++ r' := by
    intro h
    have := unescape_escape c r'
    rw [← h] at this
    cases this
  induction cs generalizing cs'
  case nil =>
    cases cs'
    case nil  => exact ⟨rfl, (List.cons.inj h).right⟩
    case cons =>
      rw [List.flatMap_cons, List.append_assoc] at h
      exact absurd h <| closes _ _ _
  case cons c cs ih =>
    cases cs'
    case nil =>
      rw [List.flatMap_cons, List.append_assoc] at h
      exact absurd h.symm <| closes _ _ _
    case cons c' cs' =>
      rw [List.flatMap_cons, List.flatMap_cons, List.append_assoc, List.append_assoc] at h
      have hu := congrArg unescape h
      rw [unescape_escape, unescape_escape, Option.some.injEq, Prod.mk.injEq] at hu
      have ⟨hcs, hr⟩ := ih hu.right
      exact ⟨by rw [hu.left, hcs], hr⟩

theorem quote_inj {s s' : String} {r r' : List Char} (h : (quote s).toList ++ r = (quote s').toList ++ r') :
    s = s' ∧ r = r' := by
  simp only [quote, String.toList_append, String.toList_join, List.flatMap_map, List.append_assoc] at h
  have ⟨hs, hr⟩ := escapes_inj (List.cons.inj h).right
  exact ⟨String.toList_inj.mp hs, hr⟩

-- The kind of a value, which its first character tells.
def kind : Json → Nat
  | null     => 0
  | bool _   => 1
  | number _ => 2
  | string _ => 3
  | array _  => 4
  | object _ => 5

def kindOf (c : Char) : Nat :=
  if c = 'n' then 0
  else if c = 't' ∨ c = 'f' then 1
  else if c = '"' then 3
  else if c = '[' then 4
  else if c = '\x7b' then 5
  else if c = ',' ∨ c = ']' ∨ c = '\x7d' then 6
  else 2

def isNumeric (c : Char) : Bool :=
  c.isDigit || c ∈ ['+', '-', '.', 'e']

theorem kindOf_numeric (h : isNumeric c) : kindOf c = 2 := by
  have hn {c'} (h' : ¬isNumeric c') : c ≠ c' := by
    rintro rfl
    exact h' h
  have : c ≠ 'n' ∧ c ≠ 't' ∧ c ≠ 'f' ∧ c ≠ '"' ∧ c ≠ '[' ∧ c ≠ '\x7b' ∧ c ≠ ',' ∧ c ≠ ']' ∧ c ≠ '\x7d' := by
    refine ⟨?_, ?_, ?_, ?_, ?_, ?_, ?_, ?_, ?_⟩ <;> exact hn (by decide)
  simp [kindOf, this]

theorem texts_eq (vs : List Json) : texts vs = vs.map text := by
  induction vs
  case nil     => rfl
  case cons ih => rw [texts, ih, List.map_cons]

theorem memberTexts_eq (ms : List (String × Json)) :
    memberTexts ms = ms.map fun m => quote m.fst ++ ":" ++ m.snd.text := by
  induction ms
  case nil     => rfl
  case cons ih => rw [memberTexts, ih, List.map_cons]

abbrev chars (v : Json) : List Char :=
  v.text.toList

def memberChars (m : String × Json) : List Char :=
  (quote m.fst).toList ++ ':' :: m.snd.chars

theorem toList_quote (s : String) : (quote s).toList = '"' :: (s.toList.flatMap (escape · |>.toList) ++ ['"']) := by
  simp [quote, List.flatMap_map]

theorem chars_array (vs : List Json) : (array vs).chars = '[' :: ([','].intercalate (vs.map chars) ++ [']']) := by
  have : vs.map (String.toList ∘ text) = vs.map chars := rfl
  simp [chars, text, texts_eq, String.toList_intercalate, this]

theorem chars_object (ms : List (String × Json)) :
    (object ms).chars = '\x7b' :: ([','].intercalate (ms.map memberChars) ++ ['\x7d']) := by
  have : ms.map (String.toList ∘ fun m => quote m.fst ++ ":" ++ m.snd.text) = ms.map memberChars := by
    simp [memberChars, Function.comp_def]
  simp [chars, text, memberTexts_eq, String.toList_intercalate, this]

theorem exists_kindOf (v : Json) : ∃ c cs, v.chars = c :: cs ∧ kindOf c = v.kind := by
  cases v
  case null      => exact ⟨_, _, rfl, rfl⟩
  case bool b    => cases b <;> exact ⟨_, _, rfl, rfl⟩
  case number n  =>
    have ⟨hn, ha⟩ := n.wf
    cases ht : n.text.toList
    case nil       => exact absurd (String.toList_inj.mp ht) hn
    case cons c cs => exact ⟨c, cs, ht, kindOf_numeric (List.all_eq_true.mp ha c (by simp [ht]))⟩
  case string s  => exact ⟨_, _, toList_quote s, rfl⟩
  case array vs  => exact ⟨_, _, chars_array vs, rfl⟩
  case object ms => exact ⟨_, _, chars_object ms, rfl⟩

theorem not_ends_chars (v : Json) (r : List Char) : ¬Ends (v.chars ++ r) := by
  have ⟨c, cs, hc, hk⟩ := v.exists_kindOf
  rw [hc]
  intro h
  have : kindOf c = 6 := by obtain rfl | rfl | rfl := h c rfl <;> rfl
  cases v <;> cases hk.symm.trans this

theorem not_ends_memberChars (m : String × Json) (r : List Char) : ¬Ends (memberChars m ++ r) := by
  rw [memberChars, toList_quote]
  intro h
  obtain h | h | h := h '"' rfl <;> cases h

theorem kind_eq {v w : Json} {r r' : List Char} (h : v.chars ++ r = w.chars ++ r') : v.kind = w.kind := by
  have ⟨c, cs, hc, hk⟩ := v.exists_kindOf
  have ⟨c', cs', hc', hk'⟩ := w.exists_kindOf
  rw [hc, hc'] at h
  rw [← hk, ← hk', (List.cons.inj h).left]

-- A number ends where no character can belong to it.
theorem number_inj {n m : Numeral} {r r' : List Char} (hr : Ends r) (hr' : Ends r')
    (h : n.text.toList ++ r = m.text.toList ++ r') : n = m ∧ r = r' := by
  have rest {r} (hr : Ends r) : r.takeWhile isNumeric = [] := by
    cases r
    case nil      => rfl
    case cons c r =>
      have : isNumeric c = false := by obtain rfl | rfl | rfl := hr c rfl <;> rfl
      simp [this]
  have digits (n : Numeral) {r} (hr : Ends r) : (n.text.toList ++ r).takeWhile isNumeric = n.text.toList := by
    have hn : ∀ c ∈ n.text.toList, isNumeric c := List.all_eq_true.mp n.wf.right
    rw [List.takeWhile_append_of_pos hn, rest hr, List.append_nil]
  have ht : n.text.toList = m.text.toList := by rw [← digits n hr, h, digits m hr']
  refine ⟨?_, List.append_cancel_left (ht ▸ h)⟩
  obtain ⟨n, _⟩ := n
  obtain ⟨m, _⟩ := m
  cases String.toList_inj.mp ht
  rfl

theorem readable_member {m : String × Json} (h : Readable chars m.snd) : Readable memberChars m := by
  intro m' r r' hr hr' he
  simp only [memberChars, List.append_assoc, List.cons_append] at he
  have ⟨hk, he⟩ := quote_inj he
  have ⟨hv, hr⟩ := h m'.snd r r' hr hr' (List.cons.inj he).right
  exact ⟨Prod.ext hk hv, hr⟩

-- A value can be read from the beginning of what begins with its text.
theorem readable (v : Json) : Readable chars v := by
  induction v using induct
  all_goals intro w r r' hr hr' h
  case null =>
    cases w <;> cases kind_eq h
    exact ⟨rfl, List.append_cancel_left h⟩
  case bool b =>
    cases w <;> cases kind_eq h
    case bool b' =>
      cases b <;> cases b'
      case false.true | true.false => cases (List.cons.inj h).left
      all_goals exact ⟨rfl, List.append_cancel_left h⟩
  case number n =>
    cases w <;> cases kind_eq h
    case number m =>
      have ⟨hn, hr⟩ := number_inj hr hr' h
      exact ⟨by rw [hn], hr⟩
  case string s =>
    cases w <;> cases kind_eq h
    case string s' =>
      have ⟨hs, hr⟩ := quote_inj h
      exact ⟨by rw [hs], hr⟩
  case array vs ih =>
    cases w <;> cases kind_eq h
    case array ws =>
      simp only [chars_array, List.cons_append, List.append_assoc, List.cons.injEq, true_and] at h
      have ⟨hv, hr⟩ := intercalate_inj ih not_ends_chars (.inl rfl) h
      exact ⟨by rw [hv], hr⟩
  case object ms ih =>
    cases w <;> cases kind_eq h
    case object ns =>
      simp only [chars_object, List.cons_append, List.append_assoc, List.cons.injEq, true_and] at h
      have hf (m) (hm : m ∈ ms) : Readable memberChars m := readable_member <| ih m.fst m.snd hm
      have ⟨hm, hr⟩ := intercalate_inj hf not_ends_memberChars (.inr rfl) h
      exact ⟨by rw [hm], hr⟩

theorem text_injective : Function.Injective text := by
  intro v w h
  exact (v.readable w [] [] nofun nofun (by rw [chars, h])).left

end Json

namespace JsValue

theorem ofJsons_eq (vs : List Json) : ofJsons vs = vs.map ofJson := by
  induction vs
  case nil     => rfl
  case cons ih => rw [ofJsons, ih, List.map_cons]

theorem ofJsonMembers_eq (ms : List (String × Json)) : ofJsonMembers ms = ms.map fun m => (m.fst, ofJson m.snd) := by
  induction ms
  case nil     => rfl
  case cons ih => rw [ofJsonMembers, ih, List.map_cons]

-- What `JSON.parse` returns is serialized to what it was parsed from.
theorem toJson_ofJson (v : Json) : (ofJson v).toJson = some v := by
  induction v using Json.induct
  case array vs ih =>
    have (l : List Json) (h : ∀ v ∈ l, (ofJson v).toJson = some v) : toJsons (ofJsons l) = l := by
      induction l
      case nil           => rfl
      case cons v l ih => rw [ofJsons, toJsons, h v (by simp), ih fun v hv => h v (by simp [hv]), Option.getD_some]
    rw [ofJson, toJson, this vs ih]
  case object ms ih =>
    have (l : List (String × Json)) (h : ∀ k v, (k, v) ∈ l → (ofJson v).toJson = some v) :
        toJsonMembers (ofJsonMembers l) = l := by
      induction l
      case nil         => rfl
      case cons m l ih =>
        obtain ⟨k, v⟩ := m
        rw [ofJsonMembers, toJsonMembers, h k v (by simp), ih fun k v hv => h k v (by simp [hv])]
    rw [ofJson, toJson, this ms ih]
  all_goals rfl

theorem ofJson_injective : Function.Injective ofJson := by
  intro v w h
  have := congrArg toJson h
  rw [toJson_ofJson, toJson_ofJson] at this
  exact Option.some.inj this

end JsValue
end Logon
