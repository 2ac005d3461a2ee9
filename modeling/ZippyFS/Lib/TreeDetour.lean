import ZippyFS.Lib.TreeTraversal

/-! Descents that look for a key between neighbouring separators, both of them excluded. Where
the key is itself a separator none of the gaps holds it, and the descent falls back to the second
child: right for the first separator, and a detour for all later ones.
-/

namespace SearchTree

variable {A K V : Type} [LinearOrder K]

/-- The child that such a descent takes. -/
def gapRoute (keys : List K) (key : K) : Nat :=
  if key ∈ keys.tail then 1 else route keys key

/-- On its route the key meets a node of which it is a separator, but not the first. -/
def Misled (heap : A → Node A K V) (key : K) : Nat → A → Prop
  | 0, _ => False
  | fuel + 1, node =>
      match (heap node).body with
      | .leaf _ => False
      | .inner keys children =>
          key ∈ keys.tail
            ∨ ∃ child ∈ children[route keys key]?, Misled heap key fuel child

/-- A key between two separators, both included. -/
def Enclosed (keys : List K) (key : K) : Prop :=
  2 ≤ keys.length ∧ (∃ low ∈ keys, low ≤ key) ∧ ∃ high ∈ keys, key ≤ high

/-- On its route the key meets a node with the key between two of the node's separators. -/
def Squeezed (heap : A → Node A K V) (key : K) : Nat → A → Prop
  | 0, _ => False
  | fuel + 1, node =>
      match (heap node).body with
      | .leaf _ => False
      | .inner keys children =>
          Enclosed keys key
            ∨ ∃ child ∈ children[route keys key]?, Squeezed heap key fuel child

/-- A leaf misleads no key. -/
theorem misled_leaf {heap : A → Node A K V} {key : K} {node : A} {entries : List (K × V)}
    (body : (heap node).body = .leaf entries) (fuel : Nat)
    : ¬ Misled heap key fuel node := by
  cases fuel <;> simp [Misled, body]

/-- An inner node misleads its later separators, and the keys that its children mislead. -/
theorem misled_inner {heap : A → Node A K V} {key : K} {node child : A} {keys : List K}
    {children : List A} (body : (heap node).body = .inner keys children)
    (taken : children[route keys key]? = some child) (fuel : Nat)
    : Misled heap key (fuel + 1) node ↔ key ∈ keys.tail ∨ Misled heap key fuel child := by
  simp [Misled, body, taken]

/-- A leaf squeezes no key. -/
theorem squeezed_leaf {heap : A → Node A K V} {key : K} {node : A} {entries : List (K × V)}
    (body : (heap node).body = .leaf entries) (fuel : Nat)
    : ¬ Squeezed heap key fuel node := by
  cases fuel <;> simp [Squeezed, body]

/-- An inner node squeezes the keys between its separators, and the keys that its children
squeeze.
-/
theorem squeezed_inner {heap : A → Node A K V} {key : K} {node child : A} {keys : List K}
    {children : List A} (body : (heap node).body = .inner keys children)
    (taken : children[route keys key]? = some child) (fuel : Nat)
    : Squeezed heap key (fuel + 1) node ↔ Enclosed keys key ∨ Squeezed heap key fuel child := by
  simp [Squeezed, body, taken]

/-- Increasing keys enclose what lies between the first and the last of them. -/
theorem enclosed_iff {keys : List K} {key first last : K} (sorted : keys.Pairwise (· < ·))
    (head : keys.head? = some first) (end_ : keys.getLast? = some last)
    : Enclosed keys key ↔ 2 ≤ keys.length ∧ first ≤ key ∧ key ≤ last := by
  have least : ∀ other ∈ keys, first ≤ other := by
    obtain ⟨rest, rfl⟩ := List.head?_eq_some_iff.mp head
    obtain ⟨later, _⟩ := List.pairwise_cons.mp sorted
    exact List.forall_mem_cons.mpr ⟨le_refl _, fun other member => (later other member).le⟩
  have greatest : ∀ other ∈ keys, other ≤ last := by
    obtain ⟨before, rfl⟩ := List.getLast?_eq_some_iff.mp end_
    obtain ⟨_, _, earlier⟩ := List.pairwise_append.mp sorted
    intro other member
    rcases List.mem_append.mp member with inside | same
    · exact (earlier other inside last (by simp)).le
    · exact (List.mem_singleton.mp same).le
  refine and_congr_right fun _ => and_congr ?_ ?_
  · constructor
    · rintro ⟨low, member, under⟩
      exact (least low member).trans under
    · exact fun under => ⟨first, List.mem_of_head? head, under⟩
  · constructor
    · rintro ⟨high, member, above⟩
      exact above.trans (greatest high member)
    · exact fun above => ⟨last, List.mem_of_getLast? end_, above⟩

section Chain

variable {spans : A → Option (Span K)} {height : Nat}

/-- The second child of a chain ends at or below every later separator. -/
theorem Chain.second_child {low : WithBot K} {keys : List K} {children : List A}
    {high : WithTop K} {key : K} (chain : Chain spans height low keys children high)
    (sorted : keys.Pairwise (· < ·)) (later : key ∈ keys.tail)
    : ∃ child span, children[1]? = some child ∧ spans child = some span
        ∧ span.height = height ∧ span.high ≤ key := by
  match keys, children, chain with
  | first :: second :: rest, _ :: child :: _, ⟨_, known, _⟩ =>
      refine ⟨child, _, rfl, known, rfl, ?_⟩
      rcases List.mem_cons.mp later with rfl | behind
      · exact le_refl _
      · obtain ⟨least, _⟩ := List.pairwise_cons.mp (List.pairwise_cons.mp sorted).2
        exact WithTop.coe_le_coe.mpr (least key behind).le

end Chain

section Descent

variable {heap : A → Node A K V} {spans : A → Option (Span K)} {root node : A} {top : Nat}

/-- Below a span the key cannot be met again: a descent through such nodes ends in a leaf that
lies below the key too, by induction on the height.
-/
theorem Tree.follow_below (tree : Tree heap spans root top) {R : Type} {follow : Nat → A → R}
    {arrive : A → R} {key : K}
    (atLeaf
      : ∀ fuel node span, spans node = some span → span.height = 0
        → follow (fuel + 1) node = arrive node)
    (atInner
      : ∀ fuel node span keys children child, spans node = some span
        → (heap node).body = .inner keys children
        → children[gapRoute keys key]? = some child
        → follow (fuel + 1) node = follow fuel child)
    {height fuel : Nat} {low : WithBot K} {high : WithTop K}
    (live : spans node = some ⟨height, low, high⟩) (behind : high ≤ key)
    (enough : height < fuel)
    : ∃ leaf low' high',
        follow fuel node = arrive leaf
        ∧ spans leaf = some ⟨0, low', high'⟩
        ∧ high' ≤ key := by
  induction height generalizing fuel node low high with
  | zero =>
      obtain ⟨fuel, rfl⟩ := Nat.exists_eq_add_of_lt enough
      exact ⟨node, low, high, atLeaf _ node _ live rfl, live, behind⟩
  | succ height ih =>
      obtain ⟨keys, children, body, _, inside, chain, _⟩ := (tree.nodes node _ live).inner_body
      obtain ⟨fuel, rfl⟩ := Nat.exists_eq_add_of_lt enough
      have routed : gapRoute keys key < children.length := by
        have notLater : key ∉ keys.tail := by
          intro later
          have under := (inside key (List.mem_of_mem_tail later)).2
          exact absurd (under.trans_le behind) (lt_irrefl _)
        have within : route keys key ≤ keys.length := (List.takeWhile_sublist _).length_le
        rw [gapRoute, if_neg notLater, chain.length]
        omega
      have member := List.getElem_mem routed
      obtain ⟨⟨childHeight, childLow, childHigh⟩, childLive, level⟩ := chain.child_span member
      obtain rfl : childHeight = height := level
      have ends := chain.le_high (fun key member => (inside key member).2) member childLive
      rw [atInner _ node _ keys children _ live body (List.getElem?_eq_getElem routed)]
      exact ih childLive (ends.trans behind) (by omega)

/-- A descent between gaps ends in the leaf that answers for the key, or, if it is misled, in one
that lies below the key, by induction on the height.
-/
theorem Tree.follow_gaps (tree : Tree heap spans root top) {R : Type} {follow : Nat → A → R}
    {arrive : A → R} {key : K}
    (atLeaf
      : ∀ fuel node span, spans node = some span → span.height = 0
        → follow (fuel + 1) node = arrive node)
    (atInner
      : ∀ fuel node span keys children child, spans node = some span
        → (heap node).body = .inner keys children
        → children[gapRoute keys key]? = some child
        → follow (fuel + 1) node = follow fuel child)
    {height fuel : Nat} {low : WithBot K} {high : WithTop K}
    (live : spans node = some ⟨height, low, high⟩) (above : low ≤ key)
    (below : (key : WithTop K) < high) (enough : height < fuel)
    : ∃ leaf low' high',
        follow fuel node = arrive leaf
        ∧ spans leaf = some ⟨0, low', high'⟩
        ∧ (Misled heap key fuel node → high' ≤ key)
        ∧ (¬ Misled heap key fuel node → ∀ value : V,
          (key, value) ∈ traverse heap height node ↔ (key, value) ∈ traverse heap 0 leaf) := by
  induction height generalizing fuel node low high with
  | zero =>
      obtain ⟨entries, body, _⟩ := (tree.nodes node _ live).leaf_body
      obtain ⟨fuel, rfl⟩ := Nat.exists_eq_add_of_lt enough
      exact ⟨node, low, high, atLeaf _ node _ live rfl, live,
        fun misled => absurd misled (misled_leaf body _), fun _ _ => Iff.rfl⟩
  | succ height ih =>
      obtain ⟨keys, children, body, sorted, _, chain, _⟩ := (tree.nodes node _ live).inner_body
      obtain ⟨fuel, rfl⟩ := Nat.exists_eq_add_of_lt enough
      obtain ⟨child, ⟨childHeight, childLow, childHigh⟩, found, childLive, level, holds⟩ :=
        chain.route_child above below
      obtain rfl : childHeight = height := level
      rw [misled_inner body found]
      by_cases later : key ∈ keys.tail
      · obtain ⟨second, ⟨secondHeight, secondLow, secondHigh⟩, taken, secondLive, level, ends⟩ :=
          chain.second_child sorted later
        obtain rfl : secondHeight = childHeight := level
        rw [atInner _ node _ keys children second live body
          (by rw [gapRoute, if_pos later]; exact taken)]
        obtain ⟨leaf, low', high', arrived, leafLive, behind⟩ :=
          tree.follow_below atLeaf atInner secondLive ends
            (show secondHeight < secondHeight + 1 + fuel by omega)
        exact ⟨leaf, low', high', arrived, leafLive, fun _ => behind,
          fun straight => absurd (Or.inl later) straight⟩
      · rw [atInner _ node _ keys children child live body
          (by rw [gapRoute, if_neg later]; exact found)]
        obtain ⟨leaf, low', high', arrived, leafLive, behind, same⟩ :=
          ih childLive holds.1 holds.2 (show childHeight < childHeight + 1 + fuel by omega)
        refine ⟨leaf, low', high', arrived, leafLive,
          fun either => behind (either.resolve_left later), fun straight value => ?_⟩
        exact (tree.mem_route live body found).trans
          (same (fun misled => straight (Or.inr misled)) value)

/-- A misled key is a separator of some node, by induction on the steps of the way down. -/
theorem Tree.separator_of_misled (tree : Tree heap spans root top) {fuel : Nat} {span : Span K}
    {key : K} (live : spans node = some span) (misled : Misled heap key fuel node)
    : ∃ place span keys children,
        spans place = some span ∧ (heap place).body = .inner keys children ∧ key ∈ keys := by
  induction fuel generalizing node span with
  | zero => exact absurd misled id
  | succ fuel ih =>
      cases body : (heap node).body with
      | leaf entries => exact absurd misled (misled_leaf body _)
      | inner keys children =>
          simp only [Misled, body] at misled
          rcases misled with later | ⟨child, taken, onward⟩
          · exact ⟨node, span, keys, children, live, body, List.mem_of_mem_tail later⟩
          · have member : child ∈ (heap node).body.children := by
              rw [body]
              exact List.mem_of_getElem? taken
            obtain ⟨childSpan, childLive, _⟩ := (tree.nodes node span live).child member
            exact ih childLive onward

/-- The route of a key leads from a live inner node to a live child. -/
theorem Tree.routed (tree : Tree heap spans root top) {height : Nat} {low : WithBot K}
    {high : WithTop K} (live : spans node = some ⟨height + 1, low, high⟩) (key : K)
    : ∃ keys children child low' high',
        (heap node).body = .inner keys children
        ∧ keys.Pairwise (· < ·)
        ∧ children[route keys key]? = some child
        ∧ spans child = some ⟨height, low', high'⟩ := by
  obtain ⟨keys, children, body, sorted, _, chain, _⟩ := (tree.nodes node _ live).inner_body
  have within : route keys key ≤ keys.length := (List.takeWhile_sublist _).length_le
  have inside : route keys key < children.length := by
    rw [chain.length]
    omega
  obtain ⟨⟨childHeight, low', high'⟩, childLive, level⟩ :=
    chain.child_span (List.getElem_mem inside)
  obtain rfl : childHeight = height := level
  exact ⟨keys, children, _, low', high', body, sorted, List.getElem?_eq_getElem inside, childLive⟩

/-- Which keys are squeezed depends on the live nodes only, by induction on the height. -/
theorem Tree.squeezed_congr (tree : Tree heap spans root top) {next : A → Node A K V} {key : K}
    (same : ∀ node span, spans node = some span → next node = heap node) {height fuel : Nat}
    {low : WithBot K} {high : WithTop K} (live : spans node = some ⟨height, low, high⟩)
    : Squeezed next key fuel node ↔ Squeezed heap key fuel node := by
  have view := same node _ live
  induction height generalizing node fuel low high with
  | zero =>
      obtain ⟨entries, body, _⟩ := (tree.nodes node _ live).leaf_body
      exact iff_of_false (squeezed_leaf (by rw [view, body]) fuel) (squeezed_leaf body fuel)
  | succ height ih =>
      obtain ⟨keys, children, child, low', high', body, _, taken, childLive⟩ :=
        tree.routed live key
      cases fuel with
      | zero => exact Iff.rfl
      | succ fuel =>
          rw [squeezed_inner body taken, squeezed_inner (by rw [view, body]) taken]
          exact or_congr_right (ih childLive (same child _ childLive))

/-- The keys between separators of a child have their route through it. -/
theorem Tree.route_to_child (tree : Tree heap spans root top) {span : Span K}
    (live : spans node = some span) {keys below : List K} {children lower : List A}
    (body : (heap node).body = .inner keys children) {child : A} (member : child ∈ children)
    (under : (heap child).body = .inner below lower) {key first last : K} (low : first ∈ below)
    (high : last ∈ below) (above : first ≤ key) (notBeyond : key ≤ last)
    : children[route keys key]? = some child := by
  cases tree.nodes node span live with
  | leaf leaf _ => simp [leaf] at body
  | inner shape sorted inside chain _ =>
      obtain ⟨rfl, rfl⟩ := Body.inner.inj (body.symm.trans shape)
      obtain ⟨⟨height, start, stop⟩, childLive, _⟩ := chain.child_span member
      cases tree.nodes child _ childLive with
      | leaf leaf _ => simp [leaf] at under
      | inner same _ held _ _ =>
          obtain ⟨rfl, rfl⟩ := Body.inner.inj (under.symm.trans same)
          have from_ : start ≤ key := (held first low).1.le.trans (WithBot.coe_le_coe.mpr above)
          have until_ : (key : WithTop K) < stop :=
            (WithTop.coe_le_coe.mpr notBeyond).trans_lt (held last high).2
          exact chain.route_unique sorted (fun key member => (inside key member).1) member
            childLive ⟨from_, until_⟩

/-- A later separator of a child is misled from the node above it: its route leads there. -/
theorem Tree.misled_of_child (tree : Tree heap spans root top) {span : Span K}
    (live : spans node = some span) {keys below : List K} {children lower : List A}
    (body : (heap node).body = .inner keys children) {child : A} (member : child ∈ children)
    (under : (heap child).body = .inner below lower) {key : K} (later : key ∈ below.tail)
    (fuel : Nat)
    : Misled heap key (fuel + 2) node := by
  have own := List.mem_of_mem_tail later
  have taken := tree.route_to_child live body member under own own le_rfl le_rfl
  rw [misled_inner body taken]
  right
  simp [Misled, under, later]

/-- A key between separators of a child is squeezed from the node above it. -/
theorem Tree.squeezed_of_child (tree : Tree heap spans root top) {span : Span K}
    (live : spans node = some span) {keys below : List K} {children lower : List A}
    (body : (heap node).body = .inner keys children) {child : A} (member : child ∈ children)
    (under : (heap child).body = .inner below lower) {key : K} (enclosed : Enclosed below key)
    (fuel : Nat)
    : Squeezed heap key (fuel + 2) node := by
  obtain ⟨first, low, above⟩ := enclosed.2.1
  obtain ⟨last, high, notBeyond⟩ := enclosed.2.2
  have taken := tree.route_to_child live body member under low high above notBeyond
  rw [squeezed_inner body taken]
  right
  simp only [Squeezed, under]
  exact Or.inl enclosed

/-- A tree that holds more entries than two full leaves has a node with two separators: the root,
or one of its children.
-/
theorem Tree.exists_wide (tree : Tree heap spans root top) {most : Nat}
    (filled
      : ∀ node span, spans node = some span → node ≠ root → 2 ≤ (heap node).body.keys.length)
    (full : ∀ node span, spans node = some span → (heap node).body.keys.length ≤ most)
    (many : 2 * most < (traverse heap top root).length)
    : ∃ node span keys children above beside,
        spans node = some span
        ∧ (heap node).body = .inner keys children
        ∧ 2 ≤ keys.length
        ∧ (heap root).body = .inner above beside
        ∧ 0 < top
        ∧ (node = root ∨ node ∈ beside) := by
  have leafLength : ∀ node span, spans node = some span → span.height = 0
      → (traverse heap 0 node).length ≤ most := by
    rintro node ⟨height, low, high⟩ live rfl
    obtain ⟨entries, body, _⟩ := (tree.nodes node _ live).leaf_body
    have fits := full node _ live
    simpa [traverse_leaf body, body, Body.keys] using fits
  cases top with
  | zero =>
      have fits := leafLength root _ tree.rootSpan rfl
      omega
  | succ top =>
      obtain ⟨keys, children, body, sorted, _, chain, _⟩ :=
        (tree.nodes root _ tree.rootSpan).inner_body
      by_cases two : 2 ≤ keys.length
      · exact ⟨root, _, keys, children, keys, children, tree.rootSpan, body, two, body,
          Nat.succ_pos top, Or.inl rfl⟩
      · have arity := chain.length
        obtain ⟨child, member⟩ := List.exists_mem_of_length_pos (show 0 < children.length by omega)
        obtain ⟨⟨height, low, high⟩, childLive, level⟩ := chain.child_span member
        obtain rfl : height = top := level
        cases height with
        | zero =>
            have each : ∀ leaf ∈ children, (traverse heap 0 leaf).length ≤ most := by
              intro leaf inside
              obtain ⟨span, leafLive, atZero⟩ := chain.child_span inside
              exact leafLength leaf span leafLive atZero
            have pair : children.length ≤ 2 := by omega
            rw [Nat.zero_add, traverse_inner body] at many
            rcases children with _ | ⟨left, _ | ⟨right, _ | ⟨third, rest⟩⟩⟩
            · simp at many
            · have one := each left (by simp)
              simp only [List.flatMap_cons, List.flatMap_nil, List.append_nil] at many
              omega
            · have one := each left (by simp)
              have other := each right (by simp)
              simp only [List.flatMap_cons, List.flatMap_nil, List.append_nil,
                List.length_append] at many
              omega
            · simp at pair
        | succ height =>
            have notRoot : child ≠ root := by
              rintro rfl
              have same := Option.some.inj (childLive.symm.trans tree.rootSpan)
              simp at same
            obtain ⟨below, lower, under, _⟩ := (tree.nodes child _ childLive).inner_body
            have wide := filled child _ childLive notRoot
            rw [under] at wide
            exact ⟨child, _, below, lower, keys, children, childLive, under, wide, body,
              Nat.succ_pos _, Or.inr member⟩

/-- Such a tree misleads one of its separators. -/
theorem Tree.exists_misled (tree : Tree heap spans root top) {most fuel : Nat}
    (filled
      : ∀ node span, spans node = some span → node ≠ root → 2 ≤ (heap node).body.keys.length)
    (full : ∀ node span, spans node = some span → (heap node).body.keys.length ≤ most)
    (many : 2 * most < (traverse heap top root).length) (enough : top < fuel)
    : ∃ node span keys children key,
        spans node = some span
        ∧ (heap node).body = .inner keys children
        ∧ key ∈ keys
        ∧ Misled heap key fuel root := by
  obtain ⟨node, span, keys, children, above, beside, live, body, two, atRoot, positive, place⟩ :=
    tree.exists_wide filled full many
  have second : ∃ key, key ∈ keys.tail := by
    match keys, two with
    | _ :: key :: _, _ => exact ⟨key, by simp⟩
  obtain ⟨key, later⟩ := second
  refine ⟨node, span, keys, children, key, live, body, List.mem_of_mem_tail later, ?_⟩
  obtain ⟨fuel, rfl⟩ : ∃ rest, fuel = rest + 2 := ⟨fuel - 2, by omega⟩
  rcases place with rfl | member
  · simp [Misled, body, later]
  · exact tree.misled_of_child tree.rootSpan atRoot member body later _

/-- Such a tree squeezes all keys between two of its separators. -/
theorem Tree.exists_squeezed (tree : Tree heap spans root top) {most fuel : Nat}
    (filled
      : ∀ node span, spans node = some span → node ≠ root → 2 ≤ (heap node).body.keys.length)
    (full : ∀ node span, spans node = some span → (heap node).body.keys.length ≤ most)
    (many : 2 * most < (traverse heap top root).length) (enough : top < fuel)
    : ∃ node span keys children first second,
        spans node = some span
        ∧ (heap node).body = .inner keys children
        ∧ first ∈ keys ∧ second ∈ keys ∧ first < second
        ∧ ∀ key, first ≤ key → key ≤ second → Squeezed heap key fuel root := by
  obtain ⟨node, span, keys, children, above, beside, live, body, two, atRoot, positive, place⟩ :=
    tree.exists_wide filled full many
  have sorted : keys.Pairwise (· < ·) := by
    cases tree.nodes node span live with
    | leaf leaf _ => simp [leaf] at body
    | inner shape sorted _ _ _ =>
        obtain ⟨rfl, rfl⟩ := Body.inner.inj (body.symm.trans shape)
        exact sorted
  match keys, two with
  | first :: second :: rest, two =>
      have less : first < second := (List.pairwise_cons.mp sorted).1 second (by simp)
      refine ⟨node, span, _, children, first, second, live, body, by simp, by simp, less,
        fun key low high => ?_⟩
      have enclosed : Enclosed (first :: second :: rest) key :=
        ⟨two, ⟨first, by simp, low⟩, second, by simp, high⟩
      obtain ⟨fuel, rfl⟩ : ∃ rest, fuel = rest + 2 := ⟨fuel - 2, by omega⟩
      rcases place with rfl | member
      · simp only [Squeezed, body]
        exact Or.inl enclosed
      · exact tree.squeezed_of_child tree.rootSpan atRoot member body enclosed _

end Descent

end SearchTree
