import Mathlib.Data.List.Nodup
import Mathlib.Data.List.Perm.Basic

-- A relation of a relational database whose rows are identified by a primary key.
--
-- The key's uniqueness is part of the type: a table with two rows of one key cannot be built, so
-- a lookup by key has at most one answer and an update by key touches at most one row.
structure Table {κ ρ : Type} (key : ρ → κ) where
  rows : List ρ
  nodup : (rows.map key).Nodup

namespace Table

variable {κ ρ : Type} {key : ρ → κ}

def empty : Table key where
  rows := []
  nodup := by simp

theorem eq_of_rows {t t' : Table key} (h : t.rows = t'.rows) : t = t' := by
  cases t
  cases t'
  simpa using h

variable [DecidableEq κ]

def find (t : Table key) (k : κ) : Option ρ :=
  t.rows.find? (key · = k)

-- `INSERT ... ON CONFLICT (key) DO NOTHING`.
def insert (t : Table key) (r : ρ) : Table key :=
  if h : key r ∈ t.rows.map key then t else
    { rows := t.rows ++ [r]
      nodup := by
        rw [List.map_append, List.nodup_append]
        exact ⟨t.nodup, by simp, by simp at h ⊢; grind⟩ }

-- `UPDATE ... WHERE key = k`, for an update that leaves the key columns alone.
def modify (t : Table key) (k : κ) (f : ρ → ρ) (h : ∀ r, key (f r) = key r := by simp) :
    Table key where
  rows  := t.rows.map fun r => if key r = k then f r else r
  nodup := by
    have he : key ∘ (fun r => if key r = k then f r else r) = key := by
      funext r
      simp only [Function.comp]
      split <;> simp [h]
    simpa [he] using t.nodup

@[simp]
theorem find_empty (k : κ) : (empty : Table key).find k = none :=
  rfl

theorem key_of_find {t : Table key} (h : t.find k = some r) : key r = k := by
  simpa using List.find?_some h

theorem mem_of_find {t : Table key} (h : t.find k = some r) : r ∈ t.rows :=
  List.mem_of_find?_eq_some h

theorem find_of_mem {t : Table key} (h : r ∈ t.rows) : t.find (key r) = some r := by
  cases hf : t.find (key r)
  case none =>
    simp only [find, List.find?_eq_none, decide_eq_true_eq] at hf
    exact absurd rfl (hf r h)
  case some r' =>
    rw [List.inj_on_of_nodup_map t.nodup (mem_of_find hf) h (key_of_find hf)]

theorem mem_rows_iff {t : Table key} : r ∈ t.rows ↔ t.find (key r) = some r where
  mp  := find_of_mem
  mpr := mem_of_find

theorem find_eq_none_iff {t : Table key} : t.find k = none ↔ k ∉ t.rows.map key := by
  simp [find, List.find?_eq_none]

-- The rows with certain keys.
theorem filterMap_find_perm {t : Table key} {ks : List κ} {l : List ρ} (h : ks.Perm (l.map key)) (hl : l ⊆ t.rows) :
    (ks.filterMap t.find).Perm l := by
  refine (h.filterMap t.find).trans <| .of_eq ?_
  rw [List.filterMap_map]
  exact (List.filterMap_congr fun r hr => find_of_mem (hl hr)).trans List.filterMap_some

theorem map_filterMap_find {t : Table key} {ks : List κ} (h : ∀ k ∈ ks, (t.find k).isSome) :
    (ks.filterMap t.find).map key = ks := by
  rw [List.map_filterMap]
  refine (List.filterMap_congr fun k hk => ?_).trans List.filterMap_some
  have ⟨r, hr⟩ := Option.isSome_iff_exists.mp <| h k hk
  simp [hr, key_of_find hr]

theorem filter_key (t : Table key) (k : κ) : t.rows.filter (key · = k) = (t.find k).toList := by
  suffices ∀ rows : List ρ, (rows.map key).Nodup → rows.filter (key · = k) = (rows.find? (key · = k)).toList from
    this t.rows t.nodup
  intro rows hn
  induction rows
  case nil => rfl
  case cons r rs ih =>
    rw [List.map_cons, List.nodup_cons] at hn
    by_cases hk : key r = k
    case neg => simpa [hk] using ih hn.right
    case pos =>
      have hf : rs.filter (key · = k) = [] := by
        rw [List.filter_eq_nil_iff]
        intro r' hr' hk'
        exact hn.left <| List.mem_map.mpr ⟨r', hr', (by simpa using hk' : key r' = k).trans hk.symm⟩
      simp [hk, hf]

theorem find_insert_self (t : Table key) (r : ρ) :
    (t.insert r).find (key r) = (t.find (key r)).getD r := by
  by_cases h : key r ∈ t.rows.map key
  case pos =>
    cases hf : t.find (key r)
    case none => exact absurd h <| find_eq_none_iff.mp hf
    case some => simp [insert, h, hf]
  case neg =>
    have hf := find_eq_none_iff.mpr h
    simp only [find] at hf
    simp [insert, h, find, List.find?_append, hf]

theorem find_insert_new {t : Table key} (h : t.find (key r) = none) :
    (t.insert r).find (key r) = some r := by
  simp [find_insert_self, h]

theorem find_insert_ne (t : Table key) (h : k ≠ key r) : (t.insert r).find k = t.find k := by
  unfold insert
  split
  · rfl
  · simp [find, List.find?_append, h.symm]

theorem find_insert (t : Table key) (r : ρ) (k : κ) :
    (t.insert r).find k = if k = key r then some ((t.find k).getD r) else t.find k := by
  split
  case isTrue h  => subst h; exact find_insert_self ..
  case isFalse h => exact find_insert_ne _ h

theorem find_insert_of_some {t : Table key} (h : t.find k = some r') : (t.insert r).find k = some r' := by
  rw [find_insert]
  split <;> simp [h]

theorem insert_of_some {t : Table key} (h : t.find (key r) = some r') : t.insert r = t := by
  have hm : key r ∈ t.rows.map key := by
    by_contra hc
    exact nomatch (find_eq_none_iff.mpr hc).symm.trans h
  simp only [insert, hm, ↓reduceDIte]

theorem rows_insert_new {t : Table key} (h : t.find (key r) = none) :
    (t.insert r).rows = t.rows ++ [r] := by
  have hm := find_eq_none_iff.mp h
  simp only [insert, hm, ↓reduceDIte]

theorem find_modify (t : Table key) (k k' : κ) (f : ρ → ρ) (h : ∀ r, key (f r) = key r) :
    (t.modify k f h).find k' = if k' = k then (t.find k').map f else t.find k' := by
  simp only [find, modify]
  induction t.rows
  case nil => simp
  case cons r rs ih =>
    simp only [List.map_cons, List.find?_cons]
    by_cases hk : key r = k <;> by_cases hk' : key r = k' <;> grind

theorem find_modify_self (t : Table key) (k : κ) (f : ρ → ρ) (h : ∀ r, key (f r) = key r) :
    (t.modify k f h).find k = (t.find k).map f := by
  simp [find_modify]

theorem find_modify_ne (t : Table key) (f : ρ → ρ) (h : ∀ r, key (f r) = key r) (hn : k' ≠ k) :
    (t.modify k f h).find k' = t.find k' := by
  simp [find_modify, hn]

theorem isSome_find_modify (t : Table key) (k k' : κ) (f : ρ → ρ) (h : ∀ r, key (f r) = key r) :
    ((t.modify k f h).find k').isSome = (t.find k').isSome := by
  rw [find_modify]
  split <;> simp

-- What an update leaves alone stays what it is in all rows.
theorem map_rows_modify {t : Table key} {f : ρ → ρ} {g : ρ → α} (h : ∀ r, key (f r) = key r) (hg : ∀ r, g (f r) = g r) :
    (t.modify k f h).rows.map g = t.rows.map g := by
  simp only [modify, List.map_map]
  refine List.map_congr_left fun r _ => ?_
  simp only [Function.comp]
  split
  · exact hg r
  · rfl

theorem isSome_find_insert (t : Table key) (r : ρ) (k : κ) :
    ((t.insert r).find k).isSome ↔ k = key r ∨ (t.find k).isSome := by
  rw [find_insert]
  split <;> simp [*]

theorem find_insert_congr {t t' : Table key} (h : t.find k = t'.find k) :
    (t.insert r).find k = (t'.insert r).find k := by
  simp only [find_insert, h]

theorem find_modify_congr {t t' : Table key} {f : ρ → ρ} (hf : ∀ r, key (f r) = key r)
    (h : t.find k = t'.find k) : (t.modify k' f hf).find k = (t'.modify k' f hf).find k := by
  simp only [find_modify, h]

-- What holds of a new row and of all others holds of all rows.
theorem forall_insert {t : Table key} {Q : ρ → Prop} (h : ∀ r ∈ t.rows, Q r) (hr : Q r) :
    ∀ r' ∈ (t.insert r).rows, Q r' := by
  intro r' hr'
  unfold insert at hr'
  split at hr'
  · exact h r' hr'
  · cases List.mem_append.mp hr'
    case inl hr' => exact h r' hr'
    case inr hr' => exact List.mem_singleton.mp hr' ▸ hr

theorem forall_modify {t : Table key} {Q : ρ → Prop} {f : ρ → ρ} (hk : ∀ r, key (f r) = key r)
    (h : ∀ r ∈ t.rows, Q r) (hf : ∀ r, Q r → Q (f r)) : ∀ r ∈ (t.modify k f hk).rows, Q r := by
  intro r' hr'
  obtain ⟨r, hr, rfl⟩ := List.mem_map.mp hr'
  split
  · exact hf r (h r hr)
  · exact h r hr

-- Two updates of a row are the same if they agree on it.
theorem modify_congr {t : Table key} {f g : ρ → ρ} (hf : ∀ r, key (f r) = key r) (hg : ∀ r, key (g r) = key r)
    (h : t.find k = some r) (he : f r = g r) : t.modify k f hf = t.modify k g hg := by
  simp only [modify, mk.injEq, List.map_inj_left]
  intro r' hr'
  split
  case isFalse   => rfl
  case isTrue hk =>
    have hr := find_of_mem hr'
    rw [hk, h] at hr
    cases hr
    exact he

-- Two tables have the same rows of a kind.
def SameRows (t : Table key) (p : ρ → Prop) (t' : Table key) : Prop :=
  ∀ r, p r → (r ∈ t.rows ↔ r ∈ t'.rows)

namespace SameRows

variable {p q : ρ → Prop} {t t' : Table key}

omit [DecidableEq κ] in
theorem symm (h : t.SameRows p t') : t'.SameRows p t :=
  fun r hr => (h r hr).symm

omit [DecidableEq κ] in
theorem refl (p : ρ → Prop) (t : Table key) : t.SameRows p t :=
  fun _ _ => .rfl

theorem insert (t : Table key) (h : ¬p r) : t.SameRows p (t.insert r) := by
  intro r' hp
  unfold Table.insert
  split
  case isTrue  => rfl
  case isFalse =>
    have hn : r' ≠ r := fun he => h (he ▸ hp)
    simp [hn]

-- A row is added to both tables, or to none of them.
theorem insert_congr {r : ρ} (h : t.SameRows p t') (hk : t.find (key r) = t'.find (key r)) :
    (t.insert r).SameRows p (t'.insert r) := by
  intro r' hp
  cases hf : t.find (key r)
  case some =>
    rw [insert_of_some hf, insert_of_some (hk ▸ hf)]
    exact h r' hp
  case none =>
    rw [rows_insert_new hf, rows_insert_new (hk ▸ hf), List.mem_append, List.mem_append, h r' hp]

theorem find (h : t.SameRows p t') (hf : t.find k = some r) (hp : p r) : t'.find k = some r :=
  key_of_find hf ▸ find_of_mem ((h r hp).mp <| mem_of_find hf)

theorem find_filter [DecidablePred q] (h : t.SameRows p t') (hq : ∀ r, q r → p r) (k : κ) :
    (t.find k).filter (q ·) = (t'.find k).filter (q ·) := by
  apply Option.ext
  intro r
  simp only [Option.filter_eq_some_iff, decide_eq_true_eq]
  constructor
  case mp  => exact fun ⟨hf, hr⟩ => ⟨h.find hf (hq r hr), hr⟩
  case mpr => exact fun ⟨hf, hr⟩ => ⟨h.symm.find hf (hq r hr), hr⟩

theorem find_eq (h : t.SameRows p t') (hk : ∀ r, key r = k → p r) : t.find k = t'.find k := by
  apply Option.ext
  intro r
  constructor
  case mp  => exact fun hf => h.find hf <| hk r (key_of_find hf)
  case mpr => exact fun hf => h.symm.find hf <| hk r (key_of_find hf)

omit [DecidableEq κ] in
theorem filter_perm [DecidablePred q] (h : t.SameRows p t') (hq : ∀ r, q r → p r) :
    (t.rows.filter (q ·)).Perm (t'.rows.filter (q ·)) := by
  rw [List.perm_ext_iff_of_nodup (t.nodup.of_map.filter _) (t'.nodup.of_map.filter _)]
  intro r
  simp only [List.mem_filter, decide_eq_true_eq]
  constructor
  case mp  => exact fun ⟨hm, hr⟩ => ⟨(h r (hq r hr)).mp hm, hr⟩
  case mpr => exact fun ⟨hm, hr⟩ => ⟨(h r (hq r hr)).mpr hm, hr⟩

end SameRows

-- All rows that `t'` has in place of others, or in addition, are of a kind.
def Changed (t : Table key) (p : ρ → Prop) (t' : Table key) : Prop :=
  ∀ k, t'.find k ≠ t.find k → ∃ r, t'.find k = some r ∧ p r

namespace Changed

variable {p : ρ → Prop}

theorem refl (p : ρ → Prop) (t : Table key) : t.Changed p t :=
  fun _ h => absurd rfl h

theorem insert (t : Table key) (h : p r) : t.Changed p (t.insert r) := by
  intro k hk
  by_cases hn : k = key r
  case neg => exact absurd (find_insert_ne t hn) hk
  case pos =>
    subst hn
    cases hf : t.find (key r)
    case none   => exact ⟨r, find_insert_new hf, h⟩
    case some r => exact absurd (find_insert_of_some hf) (hf ▸ hk)

theorem modify (t : Table key) {f : ρ → ρ} (hf : ∀ r, key (f r) = key r) (h : ∀ r, t.find k = some r → p (f r)) :
    t.Changed p (t.modify k f hf) := by
  intro k' hk
  by_cases hn : k' = k
  case neg => exact absurd (find_modify_ne t f hf hn) hk
  case pos =>
    subst hn
    rw [find_modify_self] at hk ⊢
    cases hr : t.find k'
    case none   => exact absurd (by rw [hr]; rfl) hk
    case some r => exact ⟨f r, rfl, h r hr⟩

end Changed

-- No row is lost from `t` to `t'`, and rows only change along `R`.
def Keeps (R : ρ → ρ → Prop) (t t' : Table key) : Prop :=
  ∀ k r, t.find k = some r → ∃ r', t'.find k = some r' ∧ R r r'

namespace Keeps

variable {R : ρ → ρ → Prop} {t t' t₁ t₂ t₃ : Table key}

theorem refl (hr : ∀ r, R r r) (t : Table key) : Keeps R t t :=
  fun _ r h => ⟨r, h, hr r⟩

theorem trans (hr : ∀ {r₁ r₂ r₃}, R r₁ r₂ → R r₂ r₃ → R r₁ r₃) (h₁ : Keeps R t₁ t₂) (h₂ : Keeps R t₂ t₃) :
    Keeps R t₁ t₃ := by
  intro k r h
  have ⟨r', h', hr'⟩ := h₁ k r h
  have ⟨r'', h'', hr''⟩ := h₂ k r' h'
  exact ⟨r'', h'', hr hr' hr''⟩

theorem insert (hr : ∀ r, R r r) (t : Table key) (r : ρ) : Keeps R t (t.insert r) :=
  fun _ r' h => ⟨r', find_insert_of_some h, hr r'⟩

theorem modify (hr : ∀ r, R r r) {f : ρ → ρ} (hf : ∀ r, t.find k = some r → R r (f r))
    (h : ∀ r, key (f r) = key r) : Keeps R t (t.modify k f h) := by
  intro k' r hk
  rw [find_modify]
  split
  case isTrue he  => exact ⟨f r, by simp [hk], hf r (he ▸ hk)⟩
  case isFalse    => exact ⟨r, hk, hr r⟩

theorem insert_congr (hr : ∀ r, R r r) (h : Keeps R t t') (he : t.find (key r) = t'.find (key r)) :
    Keeps R (t.insert r) (t'.insert r) := by
  intro k r' hk
  by_cases hn : k = key r
  case pos =>
    subst hn
    exact ⟨r', find_insert_congr he ▸ hk, hr r'⟩
  case neg =>
    rw [find_insert_ne _ hn] at hk ⊢
    exact h k r' hk

theorem modify_congr {f : ρ → ρ} (hr : ∀ r, R r r) (h : Keeps R t t') (hf : ∀ r, key (f r) = key r)
    (he : t.find k = t'.find k) : Keeps R (t.modify k f hf) (t'.modify k f hf) := by
  intro k' r' hk
  by_cases hn : k' = k
  case pos =>
    subst hn
    exact ⟨r', find_modify_congr hf he ▸ hk, hr r'⟩
  case neg =>
    rw [find_modify_ne _ _ _ hn] at hk ⊢
    exact h k' r' hk

theorem isSome (h : Keeps R t t') (hk : (t.find k).isSome) : (t'.find k).isSome := by
  have ⟨r, hr⟩ := Option.isSome_iff_exists.mp hk
  have ⟨r', hr', _⟩ := h k r hr
  simp [hr']

end Keeps
end Table
