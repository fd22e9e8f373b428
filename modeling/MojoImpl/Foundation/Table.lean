import Mathlib.Data.List.AList

/-! Maps of the standard library as association lists: the insertions that keep an
existing entry and the ones that go through `operator[]`. -/
namespace Foundation

abbrev Table (κ ν : Type) := AList (fun _ : κ => ν)

namespace Table
variable {κ ν : Type} [DecidableEq κ]

/-- `emplace`: an entry that is there stays. -/
def emplace (t : Table κ ν) (k : κ) (v : ν) : Table κ ν :=
  match t.lookup k with
  | some _ => t
  | none => t.insert k v

/-- `f(t[k])`, where `t[k]` is `d` when there is no entry. -/
def modify (t : Table κ ν) (k : κ) (d : ν) (f : ν → ν) : Table κ ν :=
  t.insert k (f ((t.lookup k).getD d))

theorem lookup_insert (t : Table κ ν) (k k' : κ) (v : ν) :
    (AList.insert k v t).lookup k' = if k' = k then some v else t.lookup k' := by
  split
  · next same => rw [same,AList.lookup_insert]
  · next other => rw [AList.lookup_insert_ne other]

theorem lookup_erase (t : Table κ ν) (k k' : κ) :
    (AList.erase k t).lookup k' = if k' = k then none else t.lookup k' := by
  split
  · next same => rw [same,AList.lookup_erase]
  · next other => rw [AList.lookup_erase_ne other]

theorem lookup_emplace (t : Table κ ν) (k k' : κ) (v : ν) :
    (emplace t k v).lookup k' = if k' = k then some ((t.lookup k).getD v) else t.lookup k' := by
  cases found : t.lookup k with
  | some w =>
    simp only [emplace,found,Option.getD_some]
    split
    · next same => rw [same,found]
    · rfl
  | none =>
    simp only [emplace,found,Option.getD_none]
    exact lookup_insert t k k' v

theorem lookup_modify (t : Table κ ν) (k k' : κ) (d : ν) (f : ν → ν) :
    (modify t k d f).lookup k' = if k' = k then some (f ((t.lookup k).getD d)) else t.lookup k' :=
  lookup_insert t k k' _

theorem mem_emplace (t : Table κ ν) (k k' : κ) (v : ν) : k' ∈ emplace t k v ↔ k' = k ∨ k' ∈ t := by
  rw [← AList.lookup_isSome,← AList.lookup_isSome,lookup_emplace]
  by_cases same : k' = k
  · simp [same]
  · simp [same]

theorem mem_values {t : Table κ ν} {v : ν} : v ∈ t.entries.map Sigma.snd ↔ ∃ k, t.lookup k = some v := by
  rw [List.mem_map]
  constructor
  · rintro ⟨entry,member,rfl⟩
    exact ⟨entry.1,AList.mem_lookup_iff.mpr member⟩
  · rintro ⟨k,found⟩
    exact ⟨⟨k,v⟩,AList.mem_lookup_iff.mp found,rfl⟩

theorem erase_unknown {t : Table κ ν} {k : κ} (unknown : t.lookup k = none) : t.erase k = t := by
  apply AList.ext
  exact List.kerase_of_notMem_keys (AList.lookup_eq_none.mp unknown)

theorem entries_perm (t : Table κ ν) (k : κ) :
    t.entries.Perm ((t.lookup k).toList.map (Sigma.mk k) ++ (t.erase k).entries) := by
  change t.entries.Perm (_ ++ t.entries.kerase k)
  cases found : t.lookup k with
  | none =>
    have absent : k ∉ t.entries.keys := AList.lookup_eq_none.mp found
    rw [List.kerase_of_notMem_keys absent]
    exact List.Perm.refl _
  | some v =>
    have there : k ∈ t.entries.keys := AList.lookup_isSome.mp (by rw [found]; rfl)
    obtain ⟨w,before,after,new,split,rest⟩ := List.exists_of_kerase there
    have same : w = v := by
      have looked : t.entries.dlookup k = some w := by
        rw [split,List.dlookup_append,List.dlookup_eq_none.mpr new,List.dlookup_cons_eq]
        rfl
      exact Option.some.inj (looked.symm.trans found)
    rw [rest,split,same]
    exact List.perm_middle

theorem entries_insert (t : Table κ ν) (k : κ) (v : ν) :
    (AList.insert k v t).entries = ⟨k,v⟩ :: (t.erase k).entries := rfl

end Table

end Foundation
