import Mathlib.Data.Finset.Card

-- A waiting room that is served in rounds. A round takes the oldest of those who wait, up to a number, and lets
-- the good ones of them go. The others wait on where they have been.

namespace Batches

variable {α τ : Type} [LinearOrder τ]

structure Round (age : α → τ) (Good : α → Prop) (size : Nat) (waiting batch waiting' : Finset α) : Prop where
  subset : batch ⊆ waiting
  card   : batch.card = min size waiting.card
  oldest : ∀ x ∈ batch, ∀ y ∈ waiting, y ∉ batch → age x ≤ age y
  next   : ∀ x, x ∈ waiting' ↔ x ∈ waiting ∧ ¬(x ∈ batch ∧ Good x)

inductive Rounds (age : α → τ) (Good : α → Prop) (size : Nat) : Nat → Finset α → Finset α → Prop
  | zero : Rounds age Good size 0 waiting waiting
  | succ : Rounds age Good size n waiting waiting₁ → Round age Good size waiting₁ batch waiting' →
           Rounds age Good size (n + 1) waiting waiting'

-- A batch as a list.
structure Oldest (age : α → τ) (size : Nat) (waiting batch : List α) : Prop where
  nodup  : batch.Nodup
  subset : batch ⊆ waiting
  length : batch.length = min size waiting.length
  oldest : ∀ x ∈ batch, ∀ y ∈ waiting, y ∉ batch → age x ≤ age y

-- A batch consists of the first of those who wait, if they are sorted.
theorem Oldest.of_sorted {age : α → τ} {l waiting batch : List α} (hs : l.Pairwise (age · ≤ age ·)) (hl : l.Perm waiting)
    (hn : waiting.Nodup) (hb : batch.Perm (l.take size)) : Oldest age size waiting batch where
  nodup  := hb.nodup_iff.mpr <| (List.take_sublist _ _).nodup <| hl.nodup_iff.mpr hn
  subset := fun _ hx => hl.subset <| List.mem_of_mem_take <| hb.subset hx
  length := by rw [hb.length_eq, List.length_take, hl.length_eq]
  oldest := by
    intro x hx y hy hn
    have hy : y ∈ l.take size ++ l.drop size := by simpa using hl.symm.subset hy
    have hy : y ∈ l.drop size := (List.mem_append.mp hy).resolve_left fun hy => hn <| hb.symm.subset hy
    rw [← List.take_append_drop size l, List.pairwise_append] at hs
    exact hs.right.right x (hb.subset hx) y hy

-- Who is left over has been preceded by a whole batch.
theorem Oldest.full {age : α → τ} {waiting batch : List α} (h : Oldest age size waiting batch) (hx : x ∈ waiting)
    (hb : x ∉ batch) : batch.length = size := by
  have hs := (List.subperm_of_subset h.nodup h.subset)
  have hlt : batch.length < waiting.length := by
    refine Nat.lt_of_le_of_ne hs.length_le fun he => hb ?_
    exact (hs.perm_of_length_le he.ge).symm.subset hx
  have := h.length
  omega

-- Nobody is left over who is preceded by less than a batch.
theorem Oldest.mem_of_few [DecidableEq α] {age : α → τ} {waiting batch : List α} (h : Oldest age size waiting batch)
    (hx : x ∈ waiting) (hs : (waiting.filter fun y => y ≠ x ∧ age y ≤ age x).length < size) : x ∈ batch := by
  by_contra hb
  have hsub : batch ⊆ waiting.filter fun y => y ≠ x ∧ age y ≤ age x := fun y hy =>
    List.mem_filter.mpr ⟨h.subset hy, by simpa using ⟨fun he => hb (he ▸ hy), h.oldest y hy x hx hb⟩⟩
  have hle := (List.subperm_of_subset h.nodup hsub).length_le
  have := h.full hx hb
  omega

-- If the older ones meet a condition whenever the younger ones do, then those of a batch who meet it are a batch of
-- all who meet it.
theorem Oldest.filter {age : α → τ} {waiting batch : List α} {p : α → Prop} [DecidablePred p]
    (h : Oldest age size waiting batch) (hn : waiting.Nodup) (hp : ∀ x ∈ waiting, ∀ y, age x ≤ age y → p y → p x) :
    Oldest age size (waiting.filter p) (batch.filter p) := by
  have hsub : batch.filter p ⊆ waiting.filter p := fun x hx => by
    have hx := List.mem_filter.mp hx
    exact List.mem_filter.mpr ⟨h.subset hx.left, hx.right⟩
  constructor
  case nodup  => exact h.nodup.filter _
  case subset => exact hsub
  case oldest =>
    intro x hx y hy hn
    have hy := List.mem_filter.mp hy
    exact h.oldest x (List.mem_filter.mp hx).left y hy.left fun hb => hn <| List.mem_filter.mpr ⟨hb, hy.right⟩
  case length =>
    have hle := (List.subperm_of_subset (h.nodup.filter _) hsub).length_le
    by_cases hall : ∀ x ∈ waiting, p x → x ∈ batch
    case pos =>
      have hge := (List.subperm_of_subset (hn.filter (p ·)) fun x hx => by
        have hx := List.mem_filter.mp hx
        exact List.mem_filter.mpr ⟨hall x hx.left (by simpa using hx.right), hx.right⟩ :
          (waiting.filter p).Subperm (batch.filter p)).length_le
      have hb := List.length_filter_le (p ·) batch
      have := h.length
      omega
    case neg =>
      push Not at hall
      have ⟨x, hx, hpx, hb⟩ := hall
      have he : batch.filter p = batch :=
        List.filter_eq_self.mpr fun y hy => by simpa using hp y (h.subset hy) x (h.oldest y hy x hx hb) hpx
      rw [he] at hle ⊢
      have := h.full hx hb
      omega

variable {age : α → τ} {Good : α → Prop} {size : Nat} {waiting batch waiting' : Finset α}

namespace Round

variable (h : Round age Good size waiting batch waiting')
include h

theorem mem_of_bad (hb : ¬Good x) : x ∈ waiting' ↔ x ∈ waiting := by
  simp [h.next, hb]

theorem not_mem_batch (hx : x ∈ waiting') (hg : Good x) : x ∉ batch :=
  fun hb => ((h.next x).mp hx).right ⟨hb, hg⟩

-- Who is left over has been preceded by a whole batch.
theorem older_of_left (hx : x ∈ waiting) (hb : x ∉ batch) : batch.card = size ∧ ∀ y ∈ batch, age y ≤ age x := by
  refine ⟨?_, fun y hy => h.oldest y hy x hx hb⟩
  have hc := Finset.card_lt_card <| Finset.ssubset_iff_of_subset h.subset |>.mpr ⟨x, hx, hb⟩
  have := h.card
  omega

variable [DecidableEq α] [DecidablePred Good]

-- While somebody good is left over, each round lets some of those go who are not younger.
theorem progress (hx : x ∈ waiting') (hg : Good x) :
    (waiting'.filter fun y => age y ≤ age x ∧ Good y).card +
      (size - (waiting.filter fun y => age y ≤ age x ∧ ¬Good y).card) ≤
    (waiting.filter fun y => age y ≤ age x ∧ Good y).card := by
  have ⟨hc, ho⟩ := h.older_of_left ((h.next x).mp hx).left (h.not_mem_batch hx hg)
  have hbad : (batch.filter fun y => ¬Good y) ⊆ waiting.filter fun y => age y ≤ age x ∧ ¬Good y := by
    intro y hy
    have ⟨hy, hn⟩ := Finset.mem_filter.mp hy
    exact Finset.mem_filter.mpr ⟨h.subset hy, ho y hy, hn⟩
  have hgood : (waiting'.filter fun y => age y ≤ age x ∧ Good y) ∪ batch.filter Good ⊆
      waiting.filter fun y => age y ≤ age x ∧ Good y := by
    intro y hy
    cases Finset.mem_union.mp hy
    case inl hy =>
      have ⟨hy, hp⟩ := Finset.mem_filter.mp hy
      exact Finset.mem_filter.mpr ⟨((h.next y).mp hy).left, hp⟩
    case inr hy =>
      have ⟨hy, hp⟩ := Finset.mem_filter.mp hy
      exact Finset.mem_filter.mpr ⟨h.subset hy, ho y hy, hp⟩
  have hdis : Disjoint (waiting'.filter fun y => age y ≤ age x ∧ Good y) (batch.filter Good) := by
    apply Finset.disjoint_left.mpr
    intro y hy hy'
    have ⟨hy, _⟩ := Finset.mem_filter.mp hy
    have ⟨hy', hp⟩ := Finset.mem_filter.mp hy'
    exact h.not_mem_batch hy hp hy'
  have hbad := Finset.card_le_card hbad
  have hgood := Finset.card_le_card hgood
  rw [Finset.card_union_of_disjoint hdis] at hgood
  have := Finset.card_filter_add_card_filter_not (s := batch) Good
  omega

-- Nobody is taken while there are enough bad ones who are older.
theorem not_mem_of_blocked (hs : size ≤ (waiting.filter fun y => age y < age x ∧ ¬Good y).card) : x ∉ batch := by
  intro hx
  have hsub : insert x (waiting.filter fun y => age y < age x ∧ ¬Good y) ⊆ batch := by
    intro y hy
    cases Finset.mem_insert.mp hy
    case inl he => exact he ▸ hx
    case inr hy =>
      have ⟨hy, hlt, _⟩ := Finset.mem_filter.mp hy
      by_contra hn
      exact absurd (h.oldest x hx y hy hn) (not_le_of_gt hlt)
  have hc := Finset.card_le_card hsub
  rw [Finset.card_insert_of_notMem (by simp)] at hc
  have := h.card
  omega

end Round

namespace Rounds

theorem mem_of_bad (h : Rounds age Good size n waiting waiting') (hb : ¬Good x) : x ∈ waiting' ↔ x ∈ waiting := by
  induction h
  case zero       => exact .rfl
  case succ hr ih => exact (hr.mem_of_bad hb).trans ih

variable [DecidablePred Good]

theorem filter_bad (h : Rounds age Good size n waiting waiting') (p : α → Prop) [DecidablePred p] :
    (waiting'.filter fun y => p y ∧ ¬Good y) = waiting.filter fun y => p y ∧ ¬Good y := by
  ext y
  simp only [Finset.mem_filter]
  by_cases hy : Good y
  case pos => simp [hy]
  case neg => rw [h.mem_of_bad hy]

theorem progress [DecidableEq α] (h : Rounds age Good size n waiting waiting') (hx : x ∈ waiting') (hg : Good x) :
    (waiting'.filter fun y => age y ≤ age x ∧ Good y).card +
      n * (size - (waiting.filter fun y => age y ≤ age x ∧ ¬Good y).card) ≤
    (waiting.filter fun y => age y ≤ age x ∧ Good y).card := by
  induction h
  case zero                  => simp
  case succ n _ _ _ h hr ih =>
    have hp := hr.progress hx hg
    rw [h.filter_bad (age · ≤ age x)] at hp
    have := ih ((hr.next x).mp hx).left
    rw [Nat.succ_mul]
    omega

-- The good ones are let go in time.
theorem served [DecidableEq α] (h : Rounds age Good size n waiting waiting') (hg : Good x)
    (hn : (waiting.filter fun y => age y ≤ age x ∧ Good y).card ≤
      n * (size - (waiting.filter fun y => age y ≤ age x ∧ ¬Good y).card)) : x ∉ waiting' := by
  intro hx
  have hp := h.progress hx hg
  have hc : 0 < (waiting'.filter fun y => age y ≤ age x ∧ Good y).card :=
    Finset.card_pos.mpr ⟨x, Finset.mem_filter.mpr ⟨hx, le_refl _, hg⟩⟩
  omega

-- With enough bad ones who are older, nobody is ever let go.
theorem blocked [DecidableEq α] (h : Rounds age Good size n waiting waiting') (hx : x ∈ waiting)
    (hs : size ≤ (waiting.filter fun y => age y < age x ∧ ¬Good y).card) : x ∈ waiting' := by
  induction h
  case zero           => exact hx
  case succ h hr ih =>
    have hb := hr.not_mem_of_blocked (h.filter_bad (age · < age x) ▸ hs)
    exact (hr.next x).mpr ⟨ih hx hs, fun hn => hb hn.left⟩

end Rounds
end Batches
