import Mathlib.Data.List.Basic

-- Percent-encoding, and paths with dots.

namespace Uri

def unreserved (c : Char) : Bool :=
  c.isAlphanum || c ∈ ['-', '_', '.', '!', '~', '*', '\x27', '(', ')']

def hexDigit (n : Nat) : Char :=
  (Nat.digitChar n).toUpper

def hexValue (c : Char) : Option Nat :=
  if c.isDigit then some (c.toNat - 48)
  else if 'A' ≤ c ∧ c ≤ 'F' then some (c.toNat - 55)
  else if 'a' ≤ c ∧ c ≤ 'f' then some (c.toNat - 87)
  else none

def encodeByte (b : UInt8) : List Char :=
  ['%', hexDigit (b.toNat / 16), hexDigit (b.toNat % 16)]

def encodeChar (c : Char) : List Char :=
  if unreserved c then [c] else (String.utf8EncodeChar c).flatMap encodeByte

def encodeURIComponent (s : String) : String :=
  String.ofList (s.toList.flatMap encodeChar)

-- The bytes that a text begins with.
def octets : List Char → List UInt8
  | '%' :: a :: b :: cs =>
    match hexValue a, hexValue b with
    | some x, some y => UInt8.ofNat (16 * x + y) :: octets cs
    | _,      _      => []
  | _ => []

-- Decodes a text after some of its characters, which have been read before.
def decodeFrom : Nat → List Char → Option (List Char)
  | _,        []      => some []
  | skip + 1, _ :: cs => decodeFrom skip cs
  | 0,        c :: cs =>
    if c = '%' then
      match (octets (c :: cs)).toByteArray.utf8DecodeChar? 0 with
      | some d => (decodeFrom (3 * d.utf8Size - 1) cs).map (d :: ·)
      | none   => none
    else
      (decodeFrom 0 cs).map (c :: ·)

def decodeURIComponent (s : String) : Option String :=
  (decodeFrom 0 s.toList).map String.ofList

theorem hexValue_hexDigit : ∀ n < 16, hexValue (hexDigit n) = some n := by
  decide

theorem octets_encodeByte (b : UInt8) (cs : List Char) : octets (encodeByte b ++ cs) = b :: octets cs := by
  have hb := b.toNat_lt
  have hd := hexValue_hexDigit (b.toNat / 16) (by omega)
  have hm := hexValue_hexDigit (b.toNat % 16) (by omega)
  simp [encodeByte, octets, hd, hm, Nat.div_add_mod]

theorem octets_encode (bs : List UInt8) (cs : List Char) : octets (bs.flatMap encodeByte ++ cs) = bs ++ octets cs := by
  induction bs
  case nil         => rfl
  case cons b _ ih => rw [List.flatMap_cons, List.append_assoc, octets_encodeByte, ih, List.cons_append]

theorem length_encode (bs : List UInt8) : (bs.flatMap encodeByte).length = 3 * bs.length := by
  induction bs
  case nil       => rfl
  case cons ih => simp [encodeByte, ih]; omega

theorem decodeFrom_skip (l cs : List Char) : decodeFrom l.length (l ++ cs) = decodeFrom 0 cs := by
  induction l
  case nil     => rfl
  case cons ih => exact ih

theorem utf8DecodeChar?_encode (c : Char) (bs : List UInt8) :
    (String.utf8EncodeChar c ++ bs).toByteArray.utf8DecodeChar? 0 = some c := by
  rw [List.toByteArray_append]
  exact ByteArray.utf8DecodeChar?_utf8EncodeChar_append

theorem exists_encode (c : Char) :
    ∃ l, (String.utf8EncodeChar c).flatMap encodeByte = '%' :: l ∧ l.length = 3 * c.utf8Size - 1 := by
  have hl := length_encode (String.utf8EncodeChar c)
  rw [String.length_utf8EncodeChar] at hl
  cases hc : String.utf8EncodeChar c
  case nil =>
    rw [hc] at hl
    have := c.utf8Size_pos
    simp at hl
    omega
  case cons b bs =>
    rw [hc] at hl
    refine ⟨_, rfl, ?_⟩
    rw [← hl]
    rfl

theorem decodeFrom_encodeChar (c : Char) (cs : List Char) :
    decodeFrom 0 (encodeChar c ++ cs) = (decodeFrom 0 cs).map (c :: ·) := by
  rw [encodeChar]
  split
  case isTrue hu =>
    have hc : c ≠ '%' := by
      rintro rfl
      cases hu
    rw [List.singleton_append, decodeFrom, if_neg hc]
  case isFalse =>
    have ⟨l, he, hl⟩ := exists_encode c
    have ho : octets ('%' :: (l ++ cs)) = String.utf8EncodeChar c ++ octets cs := by
      rw [← List.cons_append, ← he, octets_encode]
    rw [he, List.cons_append, decodeFrom, if_pos rfl, ho, utf8DecodeChar?_encode]
    simp only [← hl, decodeFrom_skip]

theorem decodeURIComponent_encodeURIComponent (s : String) : decodeURIComponent (encodeURIComponent s) = some s := by
  have hd (cs : List Char) : decodeFrom 0 (cs.flatMap encodeChar) = some cs := by
    induction cs
    case nil         => rfl
    case cons c _ ih => rw [List.flatMap_cons, decodeFrom_encodeChar, ih]; rfl
  rw [decodeURIComponent, encodeURIComponent, String.toList_ofList, hd, Option.map_some, String.ofList_toList]

theorem encodeURIComponent_inj (h : encodeURIComponent s = encodeURIComponent s') : s = s' := by
  have hd := decodeURIComponent_encodeURIComponent s
  rw [h, decodeURIComponent_encodeURIComponent] at hd
  exact (Option.some.inj hd).symm

theorem unreserved_hexDigit : ∀ n < 16, unreserved (hexDigit n) := by
  decide

-- The characters of which encoded texts consist.
theorem mem_encodeChar (h : d ∈ encodeChar c) : unreserved d ∨ d = '%' := by
  rw [encodeChar] at h
  split at h
  case isTrue hu => exact .inl (List.mem_singleton.mp h ▸ hu)
  case isFalse   =>
    have ⟨b, _, hb⟩ := List.mem_flatMap.mp h
    have hlt := b.toNat_lt
    simp only [encodeByte, List.mem_cons, List.not_mem_nil, or_false] at hb
    obtain rfl | rfl | rfl := hb
    · exact .inr rfl
    · exact .inl <| unreserved_hexDigit _ (by omega)
    · exact .inl <| unreserved_hexDigit _ (by omega)

-- A text of which a path can be built.
def Segment (s : String) : Prop :=
  ∀ c ∈ s.toList, unreserved c ∨ c = '%'

theorem segment_encodeURIComponent (s : String) : Segment (encodeURIComponent s) := by
  intro c h
  rw [encodeURIComponent, String.toList_ofList] at h
  have ⟨_, _, h⟩ := List.mem_flatMap.mp h
  exact mem_encodeChar h

theorem Segment.no_slash (h : Segment s) : '/' ∉ s.toList := by
  intro hm
  have := h _ hm
  revert this
  decide

theorem encodeURIComponent_eq_empty : encodeURIComponent s = "" ↔ s = "" := by
  constructor
  case mpr => rintro rfl; rfl
  case mp  => exact fun h => encodeURIComponent_inj h

-- The path with the given segments.
def join (segments : List String) : String :=
  String.ofList (segments.flatMap fun s => '/' :: s.toList)

-- The segments of a path, after what precedes its first slash.
def split (path : String) : List String :=
  (path.toList.splitOn '/').map String.ofList

theorem split_join {segments : List String} (h : ∀ s ∈ segments, '/' ∉ s.toList) : split (join segments) = "" :: segments := by
  have hs (l : List Char) (hl : '/' ∉ l) :
      (l ++ segments.flatMap fun s => '/' :: s.toList).splitOn '/' = l :: segments.map (·.toList) := by
    induction segments generalizing l
    case nil           => simpa using List.splitOn_eq_singleton hl
    case cons s _ ih =>
      rw [List.flatMap_cons, List.cons_append, List.splitOn_append_cons_self_of_not_mem hl,
        ih (fun s hs => h s <| List.mem_cons_of_mem _ hs) _ (h s List.mem_cons_self)]
      rfl
  have := hs [] List.not_mem_nil
  rw [List.nil_append] at this
  rw [split, join, String.toList_ofList, this]
  simp [Function.comp_def]

theorem eq_join (h : split path = "" :: segments) : path = join segments := by
  have hm : path.toList.splitOn '/' = ("" :: segments).map (·.toList) := by
    rw [← h, split, List.map_map]
    simp [Function.comp_def]
  have hi (segments : List String) (l : List Char) :
      ['/'].intercalate (l :: segments.map (·.toList)) = l ++ segments.flatMap fun s => '/' :: s.toList := by
    induction segments generalizing l
    case nil                => simp
    case cons s segments ih => simp [List.intercalate_cons_cons, ih]
  have hp : ['/'].intercalate (path.toList.splitOn '/') = path.toList := List.intercalate_splitOn '/'
  rw [hm, List.map_cons, hi] at hp
  rw [join, ← String.ofList_toList (s := path), ← hp]
  rfl

def singleDots : List String :=
  [".", "%2e", "%2E"]

def doubleDots : List String :=
  ["..", ".%2e", ".%2E", "%2e.", "%2E.", "%2e%2e", "%2e%2E", "%2E%2e", "%2E%2E"]

-- The segments of a path without its dots. Those that have been read come first, in reverse order. Dots at the end
-- leave an empty segment behind.
def removeDots : List String → List String → List String
  | path, [] => path.reverse
  | path, segment :: segments =>
    if segment ∈ doubleDots then
      removeDots (if segments = [] then "" :: path.tail else path.tail) segments
    else if segment ∈ singleDots then
      removeDots (if segments = [] then "" :: path else path) segments
    else
      removeDots (segment :: path) segments

-- The path of a URL that is given by an absolute path.
def pathname (url : String) : String :=
  join (removeDots [] (split url).tail)

-- An absolute path of characters that are kept. Two slashes would begin an authority.
structure PathAbsolute (url : String) : Prop where
  begins : ∃ c cs, url.toList = '/' :: c :: cs ∧ c ≠ '/'
  chars  : ∀ c ∈ url.toList, unreserved c ∨ c = '%' ∨ c = '/'

theorem pathAbsolute_join (hn : s ≠ "") (h : ∀ x ∈ s :: segments, Segment x) : PathAbsolute (join (s :: segments)) where
  begins := by
    cases hs : s.toList
    case nil       => exact absurd (String.toList_eq_nil_iff.mp hs) hn
    case cons c cs =>
      refine ⟨c, cs ++ segments.flatMap fun s => '/' :: s.toList, by simp [join, hs], ?_⟩
      rintro rfl
      exact (h s List.mem_cons_self).no_slash (by simp [hs])
  chars  := by
    intro c hc
    rw [join, String.toList_ofList] at hc
    have ⟨x, hx, hc⟩ := List.mem_flatMap.mp hc
    cases List.mem_cons.mp hc
    case inl he => exact .inr (.inr he)
    case inr hc => exact (h x hx c hc).imp_right .inl

theorem pathname_join {segments : List String} (h : ∀ s ∈ segments, Segment s) :
    pathname (join segments) = join (removeDots [] segments) := by
  rw [pathname, split_join fun s hs => (h s hs).no_slash, List.tail_cons]

theorem removeDots_of_not_mem {segments : List String} (h : ∀ s ∈ segments, s ∉ doubleDots ∧ s ∉ singleDots)
    (path : List String) : removeDots path segments = path.reverse ++ segments := by
  induction segments generalizing path
  case nil           => simp [removeDots]
  case cons s segments ih =>
    have ⟨hd, hs⟩ := h s List.mem_cons_self
    rw [removeDots, if_neg hd, if_neg hs, ih (fun s hs => h s <| List.mem_cons_of_mem _ hs)]
    simp

-- Only dots are encoded as dots.
theorem encodeURIComponent_mem_singleDots : encodeURIComponent s ∈ singleDots ↔ s = "." := by
  constructor
  case mpr => rintro rfl; decide
  case mp  =>
    intro h
    have hd : ∀ x ∈ singleDots, decodeURIComponent x = some "." := by decide
    exact Option.some.inj <| (decodeURIComponent_encodeURIComponent s).symm.trans (hd _ h)

theorem encodeURIComponent_mem_doubleDots : encodeURIComponent s ∈ doubleDots ↔ s = ".." := by
  constructor
  case mpr => rintro rfl; decide
  case mp  =>
    intro h
    have hd : ∀ x ∈ doubleDots, decodeURIComponent x = some ".." := by decide
    exact Option.some.inj <| (decodeURIComponent_encodeURIComponent s).symm.trans (hd _ h)

end Uri
