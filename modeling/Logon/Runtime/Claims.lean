import Logon.Runtime.Changes

-- What a transaction of `claimDispatches` takes.

namespace Logon

theorem LockAll.mem {told : α → Candidate → Prop} (h : LockAll told n cs ls) :
    ∀ c ∈ ls, c ∈ cs ∧ told c .locked := by
  induction h
  case full => nofun
  case nil  => nofun
  case lock ht _ ih =>
    intro c hc
    cases hc
    case head    => exact ⟨.head _, ht⟩
    case tail hc => exact (ih c hc).imp_left (.tail _)
  case pass ih => exact fun c hc => (ih c hc).imp_left (.tail _)

theorem LockAll.sublist {told : α → Candidate → Prop} (h : LockAll told n cs ls) : ls.Sublist cs := by
  induction h
  case full       => exact List.nil_sublist _
  case nil        => exact List.nil_sublist _
  case lock _ ih  => exact ih.cons_cons _
  case pass ih    => exact ih.cons _

theorem Statement.pairwise_orderBy {time : α → Int} {rank : α → Nat} (rows : List α) :
    (orderBy time rank rows).Pairwise (time · ≤ time ·) := by
  let r (a b : α) := time a < time b ∨ time a = time b ∧ rank a ≤ rank b
  have : Std.Total r := ⟨fun a b => by simp only [r]; omega⟩
  have : IsTrans α r := ⟨fun a b c => by simp only [r]; omega⟩
  exact (List.pairwise_insertionSort r rows).imp fun h => by simp only [r] at h; omega

theorem LockAll.take_eq {told : α → Candidate → Prop} (h : LockAll told n cs ls)
    (ht : ∀ c ∈ cs, ∀ r, told c r → r = .locked) : ls = cs.take n := by
  induction h
  case full         => rfl
  case nil          => rfl
  case lock ih      => rw [ih fun c hc => ht c (.tail _ hc), List.take_succ_cons]
  case pass hr hn _ _ => exact absurd (ht _ (.head _) _ hr) hn

variable {P : Premise} {now : Time} {db db' : Db}

-- What a claim takes over from a row, and what it leaves behind.
structure DispatchClaim.Took (claim : DispatchClaim) (now : Time) (leaseMs : Int) (db db' : Db) (row : DispatchRow) :
    Prop where
  find  : db.dispatches.find claim.executionId = some row
  of    : claim = .of (row.claim now leaseMs)
  find' : db'.dispatches.find claim.executionId = some (row.claim now leaseMs)

section
variable {ids : List String} {rows : List DispatchRow}
  (h : Program.Collects (ClaimOne P now leaseMs) ids db rows db')
include h

theorem ClaimOne.ids_of_collects : ∀ row ∈ rows, row.executionId ∈ ids := by
  induction h
  case nil => nofun
  case cons e _ b _ _ _ _ hc _ ih =>
    intro row hr
    cases List.mem_append.mp hr
    case inr hr => exact .tail _ <| ih row hr
    case inl hr =>
      obtain _ | ⟨ho, _⟩ := hc
      case none => cases hr
      case some =>
        cases List.mem_singleton.mp hr
        simp [Table.key_of_find ho]

theorem ClaimOne.find_of_collects (hn : e ∉ ids) : db'.dispatches.find e = db.dispatches.find e := by
  induction h
  case nil => rfl
  case cons hc _ ih =>
    rw [List.mem_cons, not_or] at hn
    rw [ih hn.right]
    cases hc
    case none => rfl
    case some => exact Table.find_modify_ne _ _ (by simp) hn.left

theorem ClaimOne.took_of_collects (hn : ids.Nodup) :
    (∀ row' ∈ rows, ∃ row, (DispatchClaim.of row').Took now leaseMs db db' row) ∧
    (∀ e, e ∉ rows.map (·.executionId) → db'.dispatches.find e = db.dispatches.find e) ∧
    (rows.map (·.executionId)).Sublist ids := by
  induction h
  case nil => exact ⟨nofun, fun _ _ => rfl, .slnil⟩
  case cons e db b db₁ ids rows db' hc hcs ih =>
    rw [List.nodup_cons] at hn
    have ⟨ht, hs, hl⟩ := ih hn.right
    have hrows : ∀ row ∈ rows, row.executionId ≠ e := fun row hr he =>
      hn.left <| he ▸ ClaimOne.ids_of_collects hcs row hr
    have hne : ∀ e' ≠ e, db₁.dispatches.find e' = db.dispatches.find e' := by
      intro e' he'
      cases hc
      case none => rfl
      case some => exact Table.find_modify_ne _ _ (by simp) he'
    have ht' : ∀ row' ∈ rows, ∃ row, (DispatchClaim.of row').Took now leaseMs db db' row := by
      intro row' hr
      have ⟨row, hf, hc, hf'⟩ := ht row' hr
      exact ⟨row, hne _ (hrows row' hr) ▸ hf, hc, hf'⟩
    cases hc
    case none =>
      exact ⟨ht', hs, hl.cons _⟩
    case some old ho _ =>
      obtain rfl : old.executionId = e := Table.key_of_find ho
      refine ⟨?_, ?_, by simpa using hl⟩
      · intro row' hr
        cases List.mem_append.mp hr
        case inr hr => exact ht' row' hr
        case inl hr =>
          have he : row' = old.claim now leaseMs := by simpa using hr
          subst he
          have hf := ClaimOne.find_of_collects hcs hn.left
          exact ⟨old, ho, rfl, by simp [hf, Table.find_modify_self, ho]⟩
      · intro e' he'
        simp only [Option.toList_some, List.cons_append, List.nil_append, List.map_cons, List.mem_cons, not_or] at he'
        rw [hs e' he'.right, hne e' he'.left]

end

-- A transaction that claims dispatches takes each of them once, and only if it is claimable.
theorem Claim.took (h : Claim P now limit leaseMs db claims db') :
    (∀ claim ∈ claims, ∃ row, row.Claimable now ∧ claim.Took now (clamp leaseMs 1000 300000) db db' row) ∧
    (∀ e, e ∉ claims.map (·.executionId) → db'.dispatches.find e = db.dispatches.find e) ∧
    (claims.map (·.executionId)).Nodup := by
  cases h
  case mk candidates locked ids rows _ hn hl hi hc =>
    have hd : ids.Nodup := hi.nodup_iff.mpr <| hl.sublist.nodup hn
    have ⟨ht, hs, hsub⟩ := ClaimOne.took_of_collects hc hd
    have hm : (rows.map DispatchClaim.of).map (·.executionId) = rows.map (·.executionId) := by
      rw [List.map_map]
      rfl
    refine ⟨?_, fun e he => hs e (hm ▸ he), hm ▸ hsub.nodup hd⟩
    intro claim hcl
    have ⟨row', hr, he⟩ := List.mem_map.mp hcl
    have ⟨row, ht⟩ := ht row' hr
    have hlocked : row'.executionId ∈ locked := hi.subset <| hsub.subset <| List.mem_map_of_mem hr
    have ⟨row'', hf, hcl⟩ := (hl.mem _ hlocked).right.right rfl
    have hrow : row = row'' := Option.some.inj <| ht.find.symm.trans hf
    exact ⟨row, hrow ▸ hcl, he ▸ ht⟩

theorem Claim.tables (h : Claim P now limit leaseMs db claims db') : db' = { db with dispatches := db'.dispatches } := by
  cases h
  case mk hc =>
    refine hc.preserves (Q := fun db' => db' = { db with dispatches := db'.dispatches }) ?_ rfl
    intro e db₁ row db₂ _ hs hd
    cases hs
    case none => exact hd
    case some =>
      rw [hd]
      rfl

end Logon
