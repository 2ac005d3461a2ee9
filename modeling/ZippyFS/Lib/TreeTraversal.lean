import Mathlib.Order.Bounds.Basic
import ZippyFS.Lib.SearchTree

/-! What a linked search tree holds: the in-order traversal of a subtree, the path a search
takes, and the textbook definition of a B+Tree, which every filled tree meets.
-/

namespace SearchTree

variable {A K V : Type}

/-- The entries of the leaves below a node, left to right, `height` levels down. -/
def traverse (heap : A → Node A K V) : Nat → A → List (K × V)
  | 0, node =>
      match (heap node).body with
      | .leaf entries => entries
      | .inner _ _ => []
  | height + 1, node => (heap node).body.children.flatMap (traverse heap height)

/-- The keys of the leaves below a node. -/
def keysBelow (heap : A → Node A K V) (height : Nat) (node : A) : List K :=
  (traverse heap height node).map Prod.fst

/-- A node `level` links below the root. -/
inductive At (heap : A → Node A K V) (root : A) : Nat → A → Prop
  | root : At heap root 0 root
  | child {level : Nat} {node child : A} (above : At heap root level node)
    (lists : child ∈ (heap node).body.children)
    : At heap root (level + 1) child

/-- A leaf's traversal is its entry list. -/
theorem traverse_leaf {heap : A → Node A K V} {node : A} {entries : List (K × V)}
    (body : (heap node).body = .leaf entries)
    : traverse heap 0 node = entries := by
  simp [traverse, body]

/-- An inner node's traversal runs through its children. -/
theorem traverse_inner {heap : A → Node A K V} {node : A} {height : Nat} {keys : List K}
    {children : List A} (body : (heap node).body = .inner keys children)
    : traverse heap (height + 1) node = children.flatMap (traverse heap height) := by
  simp [traverse, body, Body.children]

section Traversal

variable [LinearOrder K] {heap : A → Node A K V} {spans : A → Option (Span K)}
  {root node : A} {top : Nat}

/-- Consecutive fitting key lists fit together, and the second one starts at the cut. -/
theorem Fits.append {left right : List K} {low : WithBot K} {middle : K}
    {high : WithTop K} (lower : Fits left low middle) (upper : Fits right middle high)
    (start : low < middle) (stop : (middle : WithTop K) < high)
    : Fits (left ++ right) low high := by
  refine ⟨?_, ?_, ?_⟩
  · refine List.pairwise_append.mpr ⟨lower.sorted, upper.sorted, ?_⟩
    intro first inFirst second inSecond
    have under := WithTop.coe_lt_coe.mp (lower.inside first inFirst).2
    have exceeds := WithBot.coe_le_coe.mp (upper.inside second inSecond).1
    exact lt_of_lt_of_le under exceeds
  · intro key member
    rcases List.mem_append.mp member with first | second
    · have bounds := lower.inside key first
      exact ⟨bounds.1, bounds.2.trans stop⟩
    · have bounds := upper.inside key second
      exact ⟨(le_of_lt start).trans bounds.1, bounds.2⟩
  · intro least same
    have first := lower.least least same
    cases left with
    | nil => simp at first
    | cons head tail => simpa using first

/-- Children whose traversals fit their spans fit together, by induction on the chain. -/
theorem Chain.fits_flatMap {height : Nat} {low : WithBot K} {keys : List K}
    {children : List A} {high : WithTop K} {visit : A → List (K × V)}
    (chain : Chain spans height low keys children high)
    (sorted : keys.Pairwise (· < ·))
    (inside : ∀ key ∈ keys, low < key ∧ (key : WithTop K) < high)
    (fits
      : ∀ child ∈ children, ∀ span, spans child = some span
        → Fits ((visit child).map Prod.fst) span.low span.high)
    : Fits ((children.flatMap visit).map Prod.fst) low high := by
  induction keys generalizing low children with
  | nil =>
      match children, chain with
      | [child], chain => simpa using fits child (by simp) _ chain
  | cons key keys ih =>
      match children, chain with
      | child :: rest, ⟨head, tail⟩ =>
          obtain ⟨least, tailSorted⟩ := List.pairwise_cons.mp sorted
          have lower := fits child (by simp) _ head
          have upper := ih tail tailSorted
            (fun next member => ⟨WithBot.coe_lt_coe.mpr (least next member),
              (inside next (by simp [member])).2⟩)
            (fun next member => fits next (by simp [member]))
          have bounds := inside key (by simp)
          rw [List.flatMap_cons, List.map_append]
          exact lower.append upper bounds.1 bounds.2

/-- The traversal below a live node fits its span, by induction on the height. -/
theorem Tree.fits_traverse (tree : Tree heap spans root top) {span : Span K}
    (live : spans node = some span)
    : Fits (keysBelow heap span.height node) span.low span.high := by
  obtain ⟨height, low, high⟩ := span
  induction height generalizing node low high with
  | zero =>
      obtain ⟨entries, body, fits⟩ := (tree.nodes node _ live).leaf_body
      simpa [keysBelow, traverse_leaf body] using fits
  | succ height ih =>
      obtain ⟨keys, children, body, sorted, inside, chain, _⟩ :=
        (tree.nodes node _ live).inner_body
      simp only [keysBelow, traverse_inner body]
      apply chain.fits_flatMap sorted inside
      intro child member span known
      obtain ⟨childSpan, live', level⟩ := chain.child_span member
      obtain rfl := Option.some.inj (known.symm.trans live')
      obtain ⟨childHeight, childLow, childHigh⟩ := span
      simp only at level
      subst level
      exact ih _ _ known

/-- Entries below a live node are entries of the whole tree. Witness: climb by parent
pointers, by induction on the distance to the root's height.
-/
theorem Tree.mem_traverse_root (tree : Tree heap spans root top) {span : Span K}
    (live : spans node = some span) {entry : K × V}
    (member : entry ∈ traverse heap span.height node)
    : entry ∈ traverse heap top root := by
  induction gap : top - span.height generalizing node span with
  | zero =>
      by_cases isRoot : node = root
      · subst isRoot
        obtain rfl := Option.some.inj (live.symm.trans tree.rootSpan)
        exact member
      · have under := tree.below node span live isRoot
        omega
  | succ gap ih =>
      by_cases isRoot : node = root
      · subst isRoot
        obtain rfl := Option.some.inj (live.symm.trans tree.rootSpan)
        exact member
      · obtain ⟨parent, parentSpan, _, parentLive, level, lists⟩ :=
          tree.listed node span live isRoot
        refine ih parentLive ?_ (by omega)
        rw [level]
        exact List.mem_flatMap.mpr ⟨node, lists, member⟩

/-- A key that the node answers for lies below it exactly if it lies below the child on the
key's route. Witness: all other children answer for other keys.
-/
theorem Tree.mem_route (tree : Tree heap spans root top) {height : Nat} {low : WithBot K}
    {high : WithTop K} {keys : List K} {children : List A} {key : K} {value : V} {child : A}
    (live : spans node = some ⟨height + 1, low, high⟩)
    (body : (heap node).body = .inner keys children)
    (found : children[route keys key]? = some child)
    : (key, value) ∈ traverse heap (height + 1) node
      ↔ (key, value) ∈ traverse heap height child := by
  obtain ⟨keys', children', shape, sorted, inside, chain, _⟩ :=
    (tree.nodes node _ live).inner_body
  obtain ⟨rfl, rfl⟩ := Body.inner.inj (body.symm.trans shape)
  rw [traverse_inner body, List.mem_flatMap]
  constructor
  · rintro ⟨other, member, below⟩
    obtain ⟨span, known, level⟩ := chain.child_span member
    have fits := tree.fits_traverse known
    rw [level] at fits
    have holds : span.Holds key :=
      fits.inside key (List.mem_map.mpr ⟨(key, value), below, rfl⟩)
    have same := chain.route_unique sorted (fun next m => (inside next m).1) member known holds
    obtain rfl := Option.some.inj (same.symm.trans found)
    exact below
  · intro below
    exact ⟨child, List.mem_of_getElem? found, below⟩

/-- A search that takes the route of its key at every inner node ends in the one leaf that
answers for the key, by induction on the height.
-/
theorem Tree.follow_routes (tree : Tree heap spans root top) {R : Type} {follow : Nat → A → R}
    {arrive : A → R} {key : K}
    (atLeaf
      : ∀ fuel node span, spans node = some span → span.height = 0
        → follow (fuel + 1) node = arrive node)
    (atInner
      : ∀ fuel node span keys children child, spans node = some span
        → (heap node).body = .inner keys children
        → children[route keys key]? = some child
        → follow (fuel + 1) node = follow fuel child)
    {height fuel : Nat} {low : WithBot K} {high : WithTop K}
    (live : spans node = some ⟨height, low, high⟩) (above : low ≤ key)
    (below : (key : WithTop K) < high) (enough : height < fuel)
    : ∃ leaf low' high',
        follow fuel node = arrive leaf
        ∧ spans leaf = some ⟨0, low', high'⟩
        ∧ low' ≤ key
        ∧ (key : WithTop K) < high'
        ∧ ∀ value : V, (key, value) ∈ traverse heap height node
          ↔ (key, value) ∈ traverse heap 0 leaf := by
  induction height generalizing fuel node low high with
  | zero =>
      obtain ⟨fuel, rfl⟩ := Nat.exists_eq_add_of_lt enough
      exact ⟨node, low, high, atLeaf _ node _ live rfl, live, above, below, fun _ => Iff.rfl⟩
  | succ height ih =>
      obtain ⟨keys, children, body, _, _, chain, _⟩ := (tree.nodes node _ live).inner_body
      obtain ⟨fuel, rfl⟩ := Nat.exists_eq_add_of_lt enough
      obtain ⟨child, ⟨childHeight, childLow, childHigh⟩, found, childLive, level, holds⟩ :=
        chain.route_child above below
      obtain rfl : childHeight = height := level
      rw [atInner _ node _ keys children child live body found]
      have remaining : childHeight < childHeight + 1 + fuel := by omega
      obtain ⟨leaf, low', high', arrived, leafLive, leafAbove, leafBelow, same⟩ :=
        ih childLive holds.1 holds.2 remaining
      exact ⟨leaf, low', high', arrived, leafLive, leafAbove, leafBelow, fun value =>
        (tree.mem_route live body found).trans (same value)⟩

end Traversal

-----------------------------------------------------------------------------------------
-- The textbook conditions
-----------------------------------------------------------------------------------------

/-- A B+Tree with `minKeys` to `maxKeys` keys in every node but the root, and all leaves
`depth` links below the root.
-/
structure IsBPlusTree [LinearOrder K] (heap : A → Node A K V) (root : A)
    (depth minKeys maxKeys : Nat)
    : Prop where
  leaves
    : ∀ {level node}, At heap root level node
      → ((∃ entries, (heap node).body = .leaf entries) ↔ level = depth)
  shallow : ∀ {level node}, At heap root level node → level ≤ depth
  increasing
    : ∀ {level node}, At heap root level node → (heap node).body.keys.Pairwise (· < ·)
  arity
    : ∀ {level node keys children}, At heap root level node
      → (heap node).body = .inner keys children → children.length = keys.length + 1
  separators
    : ∀ {level node keys children index separator left right}, At heap root level node
      → (heap node).body = .inner keys children
      → keys[index]? = some separator
      → children[index]? = some left
      → children[index + 1]? = some right
      → (∀ key ∈ keysBelow heap (depth - level - 1) left, key < separator)
        ∧ IsLeast {key | key ∈ keysBelow heap (depth - level - 1) right} separator
  fill
    : ∀ {level node}, At heap root level node → node ≠ root
      → minKeys ≤ (heap node).body.keys.length
  room
    : ∀ {level node}, At heap root level node → (heap node).body.keys.length ≤ maxKeys
  parents
    : ∀ {level node child}, At heap root level node → child ∈ (heap node).body.children
      → (heap child).parent = some node
  orphan
    : ∀ {level node}, At heap root level node → ((heap node).parent = none ↔ node = root)
  sorted : (keysBelow heap depth root).Pairwise (· < ·)

section Conditions

variable [LinearOrder K] {heap : A → Node A K V} {spans : A → Option (Span K)}
  {root node : A} {top : Nat}

/-- Every node reached by child links is live at the matching height. -/
theorem Tree.at_live (tree : Tree heap spans root top) {level : Nat}
    (reached : At heap root level node)
    : ∃ span, spans node = some span ∧ span.height + level = top := by
  induction reached with
  | root => exact ⟨_, tree.rootSpan, rfl⟩
  | child above lists ih =>
      obtain ⟨span, live, level⟩ := ih
      obtain ⟨childSpan, childLive, step, _⟩ := (tree.nodes _ span live).child lists
      exact ⟨childSpan, childLive, by omega⟩

/-- A tree whose live nodes are filled within bounds is a B+Tree. -/
theorem Tree.isBPlusTree (tree : Tree heap spans root top) {minKeys maxKeys : Nat}
    (filled
      : ∀ node span, spans node = some span → node ≠ root
        → minKeys ≤ (heap node).body.keys.length)
    (room
      : ∀ node span, spans node = some span → (heap node).body.keys.length ≤ maxKeys)
    : IsBPlusTree heap root top minKeys maxKeys := by
  refine {
    leaves := ?_
    shallow := ?_
    increasing := ?_
    arity := ?_
    separators := ?_
    fill := ?_
    room := ?_
    parents := ?_
    orphan := ?_
    sorted := (tree.fits_traverse tree.rootSpan).sorted
  }
  · intro level node reached
    obtain ⟨⟨height, low, high⟩, live, sum⟩ := tree.at_live reached
    cases height with
    | zero =>
        obtain ⟨entries, body, _⟩ := (tree.nodes node _ live).leaf_body
        exact iff_of_true ⟨entries, body⟩ (by simpa using sum)
    | succ height =>
        obtain ⟨keys, children, body, _⟩ := (tree.nodes node _ live).inner_body
        refine iff_of_false ?_ ?_
        · rintro ⟨entries, leaf⟩
          simp [body] at leaf
        · simp only at sum
          omega
  · intro level node reached
    obtain ⟨span, _, sum⟩ := tree.at_live reached
    omega
  · intro level node reached
    obtain ⟨⟨height, low, high⟩, live, _⟩ := tree.at_live reached
    cases height with
    | zero =>
        obtain ⟨entries, body, fits⟩ := (tree.nodes node _ live).leaf_body
        simpa [body, Body.keys] using fits.sorted
    | succ height =>
        obtain ⟨keys, children, body, sorted, _⟩ := (tree.nodes node _ live).inner_body
        simpa [body, Body.keys] using sorted
  · intro level node keys children reached body
    obtain ⟨⟨height, low, high⟩, live, _⟩ := tree.at_live reached
    cases tree.nodes node _ live with
    | leaf shape fits => simp [shape] at body
    | inner shape sorted inside chain parents =>
        obtain ⟨rfl, rfl⟩ := Body.inner.inj (body.symm.trans shape)
        exact chain.length
  · intro level node keys children index separator left right reached body middle first second
    obtain ⟨⟨height, low, high⟩, live, sum⟩ := tree.at_live reached
    cases tree.nodes node _ live with
    | leaf shape fits => simp [shape] at body
    | @inner keys' children' childHeight _ _ shape sorted inside chain parents =>
        obtain ⟨rfl, rfl⟩ := Body.inner.inj (body.symm.trans shape)
        obtain ⟨⟨start, leftLive⟩, ⟨stop, rightLive⟩⟩ := chain.neighbours middle first second
        have depth : top - level - 1 = childHeight := by
          simp only at sum
          omega
        have leftFits := tree.fits_traverse leftLive
        have rightFits := tree.fits_traverse rightLive
        rw [depth]
        refine ⟨?_, ?_, ?_⟩
        · intro key member
          exact WithTop.coe_lt_coe.mp (leftFits.inside key member).2
        · exact List.mem_of_head? (rightFits.least separator rfl)
        · intro key member
          exact WithBot.coe_le_coe.mp (rightFits.inside key member).1
  · intro level node reached notRoot
    obtain ⟨span, live, _⟩ := tree.at_live reached
    exact filled node span live notRoot
  · intro level node reached
    obtain ⟨span, live, _⟩ := tree.at_live reached
    exact room node span live
  · intro level node child reached lists
    obtain ⟨span, live, _⟩ := tree.at_live reached
    obtain ⟨_, _, _, pointer⟩ := (tree.nodes node span live).child lists
    exact pointer
  · intro level node reached
    constructor
    · intro none
      by_contra notRoot
      obtain ⟨span, live, _⟩ := tree.at_live reached
      obtain ⟨parent, _, pointer, _⟩ := tree.listed node span live notRoot
      simp [none] at pointer
    · rintro rfl
      exact tree.rootParent

end Conditions

end SearchTree
