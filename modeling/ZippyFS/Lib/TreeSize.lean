import Mathlib.Data.Nat.Log
import Mathlib.Algebra.Order.Ring.Nat
import ZippyFS.Lib.TreeTraversal

/-! How many entries a B+Tree holds, and so how deep it can be and how far a search goes. -/

namespace SearchTree

variable {A K V : Type} [LinearOrder K] {heap : A → Node A K V} {root node : A}
  {depth minKeys maxKeys : Nat}

/-- A flat list is no shorter than its parts together. -/
theorem length_flatMap_ge {X Y : Type} {items : List X} {visit : X → List Y} {least : Nat}
    (each : ∀ item ∈ items, least ≤ (visit item).length)
    : items.length * least ≤ (items.flatMap visit).length := by
  induction items with
  | nil => simp
  | cons item rest ih =>
      have here := each item (List.mem_cons_self ..)
      have behind := ih fun other member => each other (List.mem_cons_of_mem _ member)
      rw [List.flatMap_cons, List.length_append, List.length_cons, Nat.succ_mul]
      omega

/-- A child is not the root. -/
theorem IsBPlusTree.child_ne_root (tree : IsBPlusTree heap root depth minKeys maxKeys)
    {level : Nat} (reached : At heap root level node) {child : A}
    (member : child ∈ (heap node).body.children)
    : child ≠ root := by
  intro same
  have orphan := (tree.orphan (.child reached member)).mpr same
  rw [tree.parents reached member] at orphan
  cases orphan

/-- Every node above the leaves has one child more than keys. -/
theorem IsBPlusTree.children_length (tree : IsBPlusTree heap root depth minKeys maxKeys)
    {level : Nat} (reached : At heap root level node) (above : level ≠ depth)
    : (heap node).body.children.length = (heap node).body.keys.length + 1 := by
  cases body : (heap node).body with
  | leaf entries => exact absurd ((tree.leaves reached).mp ⟨entries, body⟩) above
  | inner keys children => exact tree.arity reached body

/-- The nodes below the root multiply, by induction on their height. -/
theorem IsBPlusTree.entries_below (tree : IsBPlusTree heap root depth minKeys maxKeys)
    {height level : Nat} (reached : At heap root level node) (level_ : level + height = depth)
    (notRoot : node ≠ root)
    : minKeys * (minKeys + 1) ^ height ≤ (traverse heap height node).length := by
  have filled := tree.fill reached notRoot
  induction height generalizing level node with
  | zero =>
      obtain ⟨entries, body⟩ := (tree.leaves reached).mpr (by omega)
      rw [body, Body.keys, List.length_map] at filled
      rw [traverse_leaf body]
      simpa using filled
  | succ height ih =>
      have count := tree.children_length reached (by omega)
      rw [traverse]
      refine le_trans ?_ (length_flatMap_ge fun child member =>
        ih (.child reached member) (by omega) (tree.child_ne_root reached member)
        (tree.fill (.child reached member) (tree.child_ne_root reached member)))
      rw [count, pow_succ, mul_comm ((minKeys + 1) ^ height), ← mul_assoc, mul_comm minKeys,
        mul_assoc]
      exact Nat.mul_le_mul_right _ (by omega)

/-- A tree that is not a single leaf holds at least so many entries. -/
theorem IsBPlusTree.entries (tree : IsBPlusTree heap root depth minKeys maxKeys)
    (nonempty : 0 < (heap root).body.keys.length) {height : Nat} (deep : depth = height + 1)
    : 2 * (minKeys * (minKeys + 1) ^ height) ≤ (traverse heap depth root).length := by
  subst deep
  have count := tree.children_length .root (by omega)
  rw [traverse]
  refine le_trans ?_ (length_flatMap_ge fun child member =>
    tree.entries_below (.child .root member) (by omega) (tree.child_ne_root .root member))
  exact Nat.mul_le_mul_right _ (by omega)

/-- The depth is at most logarithmic in the number of entries. -/
theorem IsBPlusTree.depth_le_log (tree : IsBPlusTree heap root depth minKeys maxKeys)
    (nonempty : 0 < (heap root).body.keys.length) (filled : 0 < minKeys)
    : depth ≤ Nat.log (minKeys + 1) ((keysBelow heap depth root).length / (2 * minKeys)) + 1 := by
  rcases Nat.eq_zero_or_eq_succ_pred depth with flat | deep
  · omega
  · have entries := tree.entries nonempty deep
    rw [keysBelow, List.length_map]
    have power : (minKeys + 1) ^ (depth - 1)
        ≤ (traverse heap depth root).length / (2 * minKeys) := by
      rw [Nat.le_div_iff_mul_le (by omega), mul_comm, mul_assoc]
      exact entries
    have bound := Nat.le_log_of_pow_le (by omega) power
    omega

section Search

variable {spans : A → Option (Span K)} {top : Nat}

/-- A search that takes the route of its key at every inner node reads one node on each level,
no fewer and no more, by induction on the height.
-/
theorem Tree.follow_exact (tree : Tree heap spans root top) {R : Type} {follow : Nat → A → R}
    {arrive : A → R} {stopped : R} {key : K} (atStart : ∀ node, follow 0 node = stopped)
    (atLeaf
      : ∀ fuel node span, spans node = some span → span.height = 0
        → follow (fuel + 1) node = arrive node)
    (atInner
      : ∀ fuel node span keys children child, spans node = some span
        → (heap node).body = .inner keys children
        → children[route keys key]? = some child
        → follow (fuel + 1) node = follow fuel child)
    {height : Nat} {low : WithBot K} {high : WithTop K}
    (live : spans node = some ⟨height, low, high⟩) (above : low ≤ key)
    (below : (key : WithTop K) < high)
    : ∃ leaf, ∀ fuel, follow fuel node = if height < fuel then arrive leaf else stopped := by
  induction height generalizing node low high with
  | zero =>
      refine ⟨node, fun fuel => ?_⟩
      cases fuel with
      | zero => exact atStart node
      | succ fuel => rw [atLeaf fuel node _ live rfl, if_pos (Nat.succ_pos fuel)]
  | succ height ih =>
      obtain ⟨keys, children, body, _, _, chain, _⟩ := (tree.nodes node _ live).inner_body
      obtain ⟨child, ⟨childHeight, childLow, childHigh⟩, found, childLive, level, holds⟩ :=
        chain.route_child above below
      obtain rfl : childHeight = height := level
      obtain ⟨leaf, exact_⟩ := ih childLive holds.1 holds.2
      refine ⟨leaf, fun fuel => ?_⟩
      cases fuel with
      | zero => exact atStart node
      | succ fuel =>
          rw [atInner fuel node _ keys children child live body found, exact_ fuel]
          simp only [Nat.add_lt_add_iff_right]

end Search

end SearchTree
