import Mathlib.Data.List.Lex
import Mathlib.Order.WithBot
import Mathlib.Tactic.Common

/-! The order of C strings: bytes compare as unsigned characters, strings lexicographically. -/

namespace ByteOrder

/-- Bytes are linearly ordered by their value. -/
instance instLinearOrderUInt8 : LinearOrder UInt8 where
  le_refl := UInt8.le_refl
  le_trans := fun _ _ _ => UInt8.le_trans
  le_antisymm := fun _ _ => UInt8.le_antisymm
  le_total := UInt8.le_total
  lt_iff_le_not_ge := fun left right => by
    simp only [UInt8.le_iff_toNat_le, UInt8.lt_iff_toNat_lt]
    omega
  toDecidableLE := inferInstance
  toDecidableEq := inferInstance
  toDecidableLT := inferInstance

/-- The comparison of C's `strcmp` on the contents of two strings. -/
def strcmp : List UInt8 → List UInt8 → Ordering
  | [], [] => .eq
  | [], _ :: _ => .lt
  | _ :: _, [] => .gt
  | left :: lefts, right :: rights =>
      if left < right then .lt else if right < left then .gt else strcmp lefts rights

/-- `strcmp` reports equality exactly on equal strings, by induction on both. -/
theorem strcmp_eq_iff (left right : List UInt8) : strcmp left right = .eq ↔ left = right := by
  fun_induction strcmp left right with
  | case1 => simp
  | case2 => simp
  | case3 => simp
  | case4 left lefts right rights below => simp [ne_of_lt below]
  | case5 left lefts right rights _ above => simp [ne_of_gt above]
  | case6 left lefts right rights notBelow notAbove ih =>
      have same : left = right := le_antisymm (not_lt.mp notAbove) (not_lt.mp notBelow)
      simp [ih, same]

/-- `strcmp` reports a smaller first string exactly for the lexicographic order. -/
theorem strcmp_lt_iff (left right : List UInt8) : strcmp left right = .lt ↔ left < right := by
  fun_induction strcmp left right with
  | case1 => simp
  | case2 => simp
  | case3 => simp
  | case4 left lefts right rights below => simp [List.cons_lt_cons_iff, below]
  | case5 left lefts right rights notBelow above =>
      simp [List.cons_lt_cons_iff, notBelow, ne_of_gt above]
  | case6 left lefts right rights notBelow notAbove ih =>
      have same : left = right := le_antisymm (not_lt.mp notAbove) (not_lt.mp notBelow)
      simp [ih, same]

/-- The remaining outcome is the reversed order, by trichotomy. -/
theorem strcmp_gt_iff (left right : List UInt8) : strcmp left right = .gt ↔ right < left := by
  have equal := strcmp_eq_iff left right
  have less := strcmp_lt_iff left right
  cases outcome : strcmp left right with
  | lt =>
      have below := less.mp outcome
      simp [not_lt_of_gt below]
  | eq =>
      have same := equal.mp outcome
      simp [same]
  | gt =>
      simp only [outcome, reduceCtorEq, false_iff] at equal less
      exact iff_of_true rfl (lt_of_le_of_ne (not_lt.mp less) (Ne.symm equal))

end ByteOrder
