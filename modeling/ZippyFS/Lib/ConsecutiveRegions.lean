import Mathlib.Algebra.BigOperators.Group.List.Basic
import Mathlib.Algebra.GroupWithZero.Nat
import Mathlib.Algebra.Order.BigOperators.Group.List
import Mathlib.Data.List.Induction
import Mathlib.Tactic.Common

/-! Regions laid one behind the other: where each starts, and that they partition the whole. -/

namespace Consecutive

/-- Where a region starts when every region starts at the end of the one before it. -/
def start (sizes : List Nat) (index : Nat) : Nat := (sizes.take index).sum

/-- A position lies in the region of an index. -/
def InRegion (sizes : List Nat) (index position : Nat) : Prop :=
  ∃ size, sizes[index]? = some size ∧ start sizes index ≤ position
    ∧ position < start sizes index + size

variable {sizes : List Nat} {index size : Nat}

/-- The first position behind all regions. -/
@[simp] theorem start_length (sizes : List Nat) : start sizes sizes.length = sizes.sum := by
  rw [start, List.take_length]

/-- The next region starts at the end of this one. -/
theorem start_succ (found : sizes[index]? = some size)
    : start sizes (index + 1) = start sizes index + size := by
  rw [start, List.take_add_one, found]
  simp [start]

/-- More regions behind do not move a region. -/
theorem start_append (more : List Nat) (inside : index ≤ sizes.length)
    : start (sizes ++ more) index = start sizes index := by
  rw [start, List.take_append_of_le_length inside, start]

/-- Later regions start later, by induction on the regions between them. -/
theorem start_mono (sizes : List Nat) {first second : Nat} (order : first ≤ second)
    : start sizes first ≤ start sizes second := by
  induction second, order using Nat.le_induction with
  | base => exact le_refl _
  | succ second _ ih =>
      refine ih.trans ?_
      cases found : sizes[second]? with
      | none => simp [start, List.take_add_one, found]
      | some size =>
          rw [start_succ found]
          exact Nat.le_add_right _ _

/-- A region ends before every later one starts. -/
theorem end_le_start (found : sizes[index]? = some size) {later : Nat} (order : index < later)
    : start sizes index + size ≤ start sizes later := by
  rw [← start_succ found]
  exact start_mono sizes order

/-- A region ends inside the whole. -/
theorem end_le_sum (found : sizes[index]? = some size)
    : start sizes index + size ≤ sizes.sum := by
  obtain ⟨inside, _⟩ := List.getElem?_eq_some_iff.mp found
  rw [← start_length]
  exact end_le_start found inside

/-- No position lies in two regions. -/
theorem InRegion.unique {other position : Nat} (here : InRegion sizes index position)
    (there : InRegion sizes other position)
    : index = other := by
  obtain ⟨size, found, low, high⟩ := here
  obtain ⟨otherSize, otherFound, otherLow, otherHigh⟩ := there
  rcases Nat.lt_trichotomy index other with before | same | after
  · have apart := end_le_start found before
    omega
  · exact same
  · have apart := end_le_start otherFound after
    omega

/-- The regions cover exactly the whole, by induction on the last one. -/
theorem covered_iff (sizes : List Nat) (position : Nat)
    : position < sizes.sum ↔ ∃ index, InRegion sizes index position := by
  constructor
  · induction sizes using List.reverseRecOn with
    | nil => simp
    | append_singleton sizes last ih =>
        intro inside
        rw [List.sum_append, List.sum_singleton] at inside
        rcases Nat.lt_or_ge position sizes.sum with before | behind
        · obtain ⟨index, size, found, low, high⟩ := ih before
          obtain ⟨live, _⟩ := List.getElem?_eq_some_iff.mp found
          refine ⟨index, size, ?_, ?_⟩
          · rwa [List.getElem?_append_left live]
          · rw [start_append _ (Nat.le_of_lt live)]
            exact ⟨low, high⟩
        · refine ⟨sizes.length, last, by simp, ?_⟩
          rw [start_append _ (le_refl _), start_length]
          exact ⟨behind, inside⟩
  · rintro ⟨index, size, found, _, high⟩
    exact high.trans_le (end_le_sum found)

end Consecutive
