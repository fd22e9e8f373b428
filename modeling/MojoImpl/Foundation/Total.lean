import MojoImpl.Foundation.Table
import Mathlib.Algebra.BigOperators.Group.List.Basic
import Mathlib.Algebra.Order.Group.Multiset

/-! What a table holds altogether, when each of its values holds a multiset of things. -/
namespace Foundation.Table
variable {κ ν β : Type} [DecidableEq κ]

def total (t : Table κ ν) (f : ν → Multiset β) : Multiset β := (t.entries.map fun entry => f entry.2).sum

theorem total_split (t : Table κ ν) (k : κ) (f : ν → Multiset β) :
    total t f = ((t.lookup k).map f).getD 0 + total (t.erase k) f := by
  have same := ((entries_perm t k).map (fun entry => f entry.2)).sum_eq
  rw [List.map_append,List.sum_append] at same
  rw [total,same]
  cases t.lookup k with
  | none => rfl
  | some v =>
    congr 1
    simp

theorem total_lookup {t : Table κ ν} {k : κ} {v : ν} (found : t.lookup k = some v) (f : ν → Multiset β) :
    total t f = f v + total (t.erase k) f := by
  rw [total_split t k,found]
  rfl

theorem total_insert (t : Table κ ν) (k : κ) (v : ν) (f : ν → Multiset β) :
    total (AList.insert k v t) f = f v + total (t.erase k) f := by
  rw [total,entries_insert,List.map_cons,List.sum_cons]
  rfl

theorem total_erase_le (t : Table κ ν) (k : κ) (f : ν → Multiset β) : total (t.erase k) f ≤ total t f := by
  rw [total_split t k]
  exact Multiset.le_add_left _ _

theorem total_insert_le (t : Table κ ν) (k : κ) (v : ν) (f : ν → Multiset β) :
    total (AList.insert k v t) f ≤ f v + total t f := by
  rw [total_insert]
  exact add_le_add_right (total_erase_le t k f) (f v)

theorem total_emplace_le (t : Table κ ν) (k : κ) (v : ν) (f : ν → Multiset β) :
    total (emplace t k v) f ≤ f v + total t f := by
  unfold emplace
  split
  · exact Multiset.le_add_left _ _
  · exact total_insert_le t k v f

theorem total_move {t : Table κ ν} {k k' : κ} {v : ν} (found : t.lookup k = some v)
    (free : t.lookup k' = none) (f : ν → Multiset β) : total ((AList.insert k' v t).erase k) f = total t f := by
  have other : k ≠ k' := by
    rintro rfl
    rw [found] at free
    contradiction
  have again : (AList.insert k' v t).lookup k = some v := by
    rw [lookup_insert,if_neg other,found]
  have both := (total_lookup again f).symm.trans (total_insert t k' v f)
  rw [erase_unknown free] at both
  exact add_left_cancel both

end Foundation.Table
