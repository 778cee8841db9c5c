import Mathlib.Data.List.Sort

-- Sorting by a relation that may rank different items the same.

namespace List

variable {α β : Type} {r : α → α → Prop} {l l' s s' : List α}

theorem pair_sublist_or (ha : a ∈ l) (hb : b ∈ l) (hn : a ≠ b) : [a, b] <+ l ∨ [b, a] <+ l := by
  induction l
  case nil => cases ha
  case cons c l ih =>
    cases ha
    case head =>
      cases hb
      case head    => exact absurd rfl hn
      case tail hb => exact .inl <| .cons_cons a <| singleton_sublist.mpr hb
    case tail ha =>
      cases hb
      case head    => exact .inr <| .cons_cons b <| singleton_sublist.mpr ha
      case tail hb => exact (ih ha hb).imp (.cons c) (.cons c)

theorem Nodup.not_pair_sublist (hd : l.Nodup) (h : [a, b] <+ l) : ¬[b, a] <+ l := by
  induction hd
  case nil => cases h
  case cons c l hc _ ih =>
    intro h'
    cases h
    case cons h =>
      cases h'
      case cons h'      => exact ih h h'
      case cons_cons h' => exact hc b (h.subset (by simp)) rfl
    case cons_cons h =>
      cases h'
      case cons h'   => exact hc a (h'.subset (by simp)) rfl
      case cons_cons => exact hc a (singleton_sublist.mp h) rfl

theorem pair_sublist_filter {p : α → Bool} : [a, b] <+ l.filter p ↔ p a ∧ p b ∧ [a, b] <+ l := by
  constructor
  case mp =>
    intro h
    have hp {c} (hc : c ∈ [a, b]) : p c := (mem_filter.mp <| h.subset hc).right
    exact ⟨hp (by simp), hp (by simp), h.trans filter_sublist⟩
  case mpr =>
    intro ⟨ha, hb, h⟩
    simpa [ha, hb] using h.filter p

-- What sorting returns does not depend on the order of its items if there are no ties.
theorem Perm.insertionSort_eq [DecidableRel r] (h : l ~ l') (ht : ∀ a b, r a b ∨ r b a)
    (htr : ∀ a b c, r a b → r b c → r a c) (ha : ∀ a ∈ l, ∀ b ∈ l, r a b → r b a → a = b) :
    l.insertionSort r = l'.insertionSort r := by
  have : Std.Total r := ⟨ht⟩
  have : IsTrans α r := ⟨htr⟩
  have hp : l.insertionSort r ~ l'.insertionSort r :=
    (perm_insertionSort r l).trans <| h.trans (perm_insertionSort r l').symm
  apply hp.eq_of_pairwise _ (pairwise_insertionSort r l) (pairwise_insertionSort r l')
  intro a b hm hm'
  exact ha a ((perm_insertionSort r l).subset hm) b (h.symm.subset <| (perm_insertionSort r l').subset hm')

-- Items of the same rank are in the same order.
def KeepsTies (r : α → α → Prop) (l l' : List α) : Prop :=
  ∀ a b, a ≠ b → r a b → r b a → [a, b] <+ l → [a, b] <+ l'

-- A list is sorted without changing the order of items of the same rank.
structure StablySorted (r : α → α → Prop) (l s : List α) : Prop where
  perm   : s ~ l
  sorted : s.Pairwise r
  stable : KeepsTies r l s

theorem stablySorted_insertionSort [DecidableRel r] [Std.Total r] [IsTrans α r] (l : List α) :
    StablySorted r l (l.insertionSort r) where
  perm   := perm_insertionSort r l
  sorted := pairwise_insertionSort r l
  stable := fun _ _ _ hab _ h => pair_sublist_insertionSort hab h

namespace StablySorted

theorem filter (p : α → Bool) (h : StablySorted r l s) : StablySorted r (l.filter p) (s.filter p) where
  perm   := h.perm.filter p
  sorted := h.sorted.filter p
  stable := by
    intro a b hn hab hba hs
    have ⟨ha, hb, hl⟩ := pair_sublist_filter.mp hs
    exact pair_sublist_filter.mpr ⟨ha, hb, h.stable a b hn hab hba hl⟩

-- The rank of two items, and where they come from tells which one is first.
theorem pair_sublist (h : StablySorted r l s) (hd : l.Nodup) (hn : a ≠ b) (hab : r a b) (hba : r b a) :
    [a, b] <+ s ↔ [a, b] <+ l := by
  constructor
  case mpr => exact h.stable a b hn hab hba
  case mp  =>
    intro hs
    have ha : a ∈ l := h.perm.subset <| hs.subset (by simp)
    have hb : b ∈ l := h.perm.subset <| hs.subset (by simp)
    cases pair_sublist_or ha hb hn
    case inl hl => exact hl
    case inr hl => exact absurd (h.stable b a hn.symm hba hab hl) <| (h.perm.nodup_iff.mpr hd).not_pair_sublist hs

-- Two arrangements of the same items become the same list if, and only if they agree about ties.
theorem eq_iff (h : StablySorted r l s) (h' : StablySorted r l' s') (hd : l.Nodup) (hp : l ~ l') :
    s = s' ↔ KeepsTies r l l' := by
  have hd' : l'.Nodup := hp.nodup_iff.mp hd
  have hs : s'.Nodup := h'.perm.nodup_iff.mpr hd'
  constructor
  case mp =>
    rintro rfl a b hn hab hba hl
    exact (h'.pair_sublist hd' hn hab hba).mp <| (h.pair_sublist hd hn hab hba).mpr hl
  case mpr =>
    intro ht
    let le (a b : α) : Prop := r a b ∧ (a ≠ b → r b a → [a, b] <+ s')
    have hle : s.Pairwise le := by
      refine pairwise_iff_forall_sublist.mpr fun {a b} hl => ?_
      have hab : r a b := pairwise_iff_forall_sublist.mp h.sorted hl
      refine ⟨hab, fun hn hba => h'.stable a b hn hab hba <| ht a b hn hab hba ?_⟩
      exact (h.pair_sublist hd hn hab hba).mp hl
    have hle' : s'.Pairwise le :=
      pairwise_iff_forall_sublist.mpr fun hl => ⟨pairwise_iff_forall_sublist.mp h'.sorted hl, fun _ _ => hl⟩
    refine Perm.eq_of_pairwise (fun a b _ _ hab hba => ?_) hle hle' <| (h.perm.trans hp).trans h'.perm.symm
    by_contra hn
    exact hs.not_pair_sublist (hab.right hn hba.left) <| hba.right (Ne.symm hn) hab.left

end StablySorted

-- Lists of the same items are the same if they have the same keys.
theorem eq_of_map_eq {f : α → β} (hi : ∀ a ∈ l, ∀ b ∈ l', f a = f b → a = b) (h : l.map f = l'.map f) : l = l' := by
  induction l generalizing l'
  case nil => exact (map_eq_nil_iff.mp h.symm).symm
  case cons a l ih =>
    cases l'
    case nil => cases h
    case cons b l' =>
      have ⟨ha, hl⟩ := cons.inj h
      rw [hi a (by simp) b (by simp) ha, ih (fun a ha b hb => hi a (by simp [ha]) b (by simp [hb])) hl]

theorem Perm.eq_iff_map_eq {f : α → β} (hp : l ~ l') (hd : (l.map f).Nodup) : l = l' ↔ l.map f = l'.map f := by
  constructor
  case mp  => exact congrArg _
  case mpr => exact eq_of_map_eq fun a ha b hb => inj_on_of_nodup_map hd ha (hp.mem_iff.mpr hb)

end List
