import Mathlib.Algebra.BigOperators.Group.Finset.Basic
import Mathlib.Algebra.GroupWithZero.Nat
import Mathlib.Algebra.Order.BigOperators.Group.Finset

/-! Sorted maps: single insertions, and sums over the entries that a list of keys selects. -/

namespace Tables

variable {K V : Type} [Ord K] [Std.TransOrd K] [Std.LawfulEqOrd K] [DecidableEq K]

/-- An entry of a map after one insertion. -/
theorem getElem?_insert (table : Std.ExtTreeMap K V) (key other : K) (value : V)
    : (table.insert key value)[other]? = if other = key then some value else table[other]? := by
  rw [Std.ExtTreeMap.getElem?_insert]
  by_cases same : other = key
  · rw [if_pos same, if_pos (by rw [same]; exact Std.ReflCmp.compare_self)]
  · rw [if_neg same, if_neg (fun equal => same (Std.LawfulEqCmp.eq_of_compare equal).symm)]

omit [DecidableEq K] in
/-- A key that is there is not inserted again. -/
theorem insertIfNew_of_mem {table : Std.ExtTreeMap K V} {key : K} (here : key ∈ table) (value : V)
    : table.insertIfNew key value = table := by
  refine Std.ExtTreeMap.ext_getElem? fun other => ?_
  rw [Std.ExtTreeMap.getElem?_insertIfNew, if_neg fun both => both.2 here]

/-- Distinct keys select at most what the map holds. -/
theorem sum_lookups_le (table : Std.ExtTreeMap K V) (weight : V → Nat) {keys : List K}
    (distinct : keys.Nodup)
    : (keys.map (fun key => (table[key]?.map weight).getD 0)).sum
      ≤ (table.toList.map (fun entry => weight entry.2)).sum := by
  have whole : table.toList.map (fun entry => weight entry.2)
      = table.keys.map (fun key => (table[key]?.map weight).getD 0) := by
    rw [← Std.ExtTreeMap.map_fst_toList_eq_keys, List.map_map]
    apply List.map_congr_left
    rintro ⟨key, value⟩ member
    simp [Std.ExtTreeMap.mem_toList_iff_getElem?_eq_some.mp member]
  rw [whole, ← List.sum_toFinset _ distinct, ← List.sum_toFinset _ Std.ExtTreeMap.nodup_keys]
  apply Finset.sum_le_sum_of_ne_zero
  intro key _ weighs
  rw [List.mem_toFinset, Std.ExtTreeMap.mem_keys]
  by_contra absent
  exact weighs (by simp [Std.ExtTreeMap.getElem?_eq_none absent])

end Tables
