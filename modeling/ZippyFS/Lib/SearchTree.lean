import ZippyFS.Lib.SeparatorChain

/-! Search trees kept as linked nodes in a heap, with parent pointers. A ghost table of
spans says which nodes are live and which keys each of them answers for. Every local
condition speaks about one node, so a step needs to be checked only where it writes.
-/

namespace SearchTree

/-- A leaf holds entries; an inner node holds separators and children. -/
inductive Body (A K V : Type) where
  | leaf (entries : List (K × V))
  | inner (keys : List K) (children : List A)

/-- A linked node. -/
structure Node (A K V : Type) where
  parent : Option A
  body : Body A K V

variable {A K V : Type}

/-- The keys a node shows. -/
def Body.keys : Body A K V → List K
  | .leaf entries => entries.map Prod.fst
  | .inner keys _ => keys

/-- The children a node lists. -/
def Body.children : Body A K V → List A
  | .leaf _ => []
  | .inner _ children => children

/-- Increasing keys inside a span; a span with a lower end has that end as its least key. -/
structure Fits [LinearOrder K] (keys : List K) (low : WithBot K) (high : WithTop K)
    : Prop where
  sorted : keys.Pairwise (· < ·)
  inside : ∀ key ∈ keys, low ≤ key ∧ (key : WithTop K) < high
  least : ∀ key : K, low = key → keys.head? = some key

/-- The local condition on a node that answers for a span. -/
inductive NodeOk [LinearOrder K] (heap : A → Node A K V) (spans : A → Option (Span K))
    (node : A)
    : Span K → Prop
  | leaf {entries : List (K × V)} {low : WithBot K} {high : WithTop K}
    (body : (heap node).body = .leaf entries)
    (fits : Fits (entries.map Prod.fst) low high)
    : NodeOk heap spans node ⟨0, low, high⟩
  | inner {keys : List K} {children : List A} {height : Nat} {low : WithBot K}
    {high : WithTop K} (body : (heap node).body = .inner keys children)
    (sorted : keys.Pairwise (· < ·))
    (inside : ∀ key ∈ keys, low < key ∧ (key : WithTop K) < high)
    (chain : Chain spans height low keys children high)
    (parents : ∀ child ∈ children, (heap child).parent = some node)
    : NodeOk heap spans node ⟨height + 1, low, high⟩

/-- The node's parent pointer leads to a live node one level up that lists it. -/
def Listed (heap : A → Node A K V) (spans : A → Option (Span K)) (node : A)
    (height : Nat)
    : Prop :=
  ∃ parent span,
    (heap node).parent = some parent
    ∧ spans parent = some span
    ∧ span.height = height + 1
    ∧ node ∈ (heap parent).body.children

/-- The live nodes form one search tree of height `top` below `root`. -/
structure Tree [LinearOrder K] (heap : A → Node A K V) (spans : A → Option (Span K))
    (root : A) (top : Nat)
    : Prop where
  rootSpan : spans root = some ⟨top, ⊥, ⊤⟩
  rootParent : (heap root).parent = none
  nodes : ∀ node span, spans node = some span → NodeOk heap spans node span
  listed
    : ∀ node span, spans node = some span → node ≠ root → Listed heap spans node span.height
  below : ∀ node span, spans node = some span → node ≠ root → span.height < top

section Local

variable [LinearOrder K] {heap next : A → Node A K V} {spans other : A → Option (Span K)}

/-- A node's condition carries over when its body, its children's spans and its children's
parent pointers do.
-/
theorem NodeOk.transport {node : A} {span : Span K} (ok : NodeOk heap spans node span)
    (body : (next node).body = (heap node).body)
    (children
      : ∀ child ∈ (heap node).body.children,
          other child = spans child ∧ (next child).parent = (heap child).parent)
    : NodeOk next other node span := by
  cases ok with
  | leaf shape fits => exact .leaf (body.trans shape) fits
  | inner shape sorted inside chain parents =>
      rw [shape] at children
      refine .inner (body.trans shape) sorted inside ?_ ?_
      · exact chain.congr (fun child member => (children child member).1)
      · intro child member
        exact (children child member).2.trans (parents child member)

/-- Children of a live node are live, one level down, and point back. -/
theorem NodeOk.child {node child : A} {span : Span K} (ok : NodeOk heap spans node span)
    (member : child ∈ (heap node).body.children)
    : ∃ childSpan, spans child = some childSpan ∧ childSpan.height + 1 = span.height
        ∧ (heap child).parent = some node := by
  cases ok with
  | leaf shape fits => simp [shape, Body.children] at member
  | inner shape sorted inside chain parents =>
      simp only [shape, Body.children] at member
      obtain ⟨childSpan, known, level⟩ := chain.child_span member
      exact ⟨childSpan, known, by simp [level], parents child member⟩

/-- A node at height zero is a leaf. -/
theorem NodeOk.leaf_body {node : A} {low : WithBot K} {high : WithTop K}
    (ok : NodeOk heap spans node ⟨0, low, high⟩)
    : ∃ entries, (heap node).body = .leaf entries ∧ Fits (entries.map Prod.fst) low high := by
  cases ok with
  | leaf shape fits => exact ⟨_, shape, fits⟩

/-- A node at a positive height is an inner node. -/
theorem NodeOk.inner_body {node : A} {height : Nat} {low : WithBot K} {high : WithTop K}
    (ok : NodeOk heap spans node ⟨height + 1, low, high⟩)
    : ∃ keys children,
        (heap node).body = .inner keys children
        ∧ keys.Pairwise (· < ·)
        ∧ (∀ key ∈ keys, low < key ∧ (key : WithTop K) < high)
        ∧ Chain spans height low keys children high
        ∧ ∀ child ∈ children, (heap child).parent = some node := by
  cases ok with
  | inner shape sorted inside chain parents =>
      exact ⟨_, _, shape, sorted, inside, chain, parents⟩

/-- A tree depends only on its live nodes. -/
theorem Tree.congr {root : A} {top : Nat} (tree : Tree heap spans root top)
    (same : ∀ node span, spans node = some span → next node = heap node)
    : Tree next spans root top where
  rootSpan := tree.rootSpan
  rootParent := by rw [same root _ tree.rootSpan, tree.rootParent]
  nodes := by
    intro node span live
    apply (tree.nodes node span live).transport (by rw [same node span live])
    intro child member
    obtain ⟨childSpan, childLive, _, _⟩ := (tree.nodes node span live).child member
    exact ⟨rfl, by rw [same child childSpan childLive]⟩
  listed := by
    intro node span live notRoot
    obtain ⟨parent, parentSpan, pointer, parentLive, level, lists⟩ :=
      tree.listed node span live notRoot
    refine ⟨parent, parentSpan, ?_, parentLive, level, ?_⟩
    · rw [same node span live, pointer]
    · rw [same parent parentSpan parentLive]
      exact lists
  below := tree.below

end Local

-----------------------------------------------------------------------------------------
-- Inserting an entry into a leaf
-----------------------------------------------------------------------------------------

section Insert

variable [LinearOrder K] {heap next : A → Node A K V} {spans : A → Option (Span K)}
  {root node : A} {top : Nat}

/-- A new key between the smaller and the larger ones keeps the keys fitting. -/
theorem Fits.insert {before after : List K} {low : WithBot K} {high : WithTop K} {key : K}
    (fits : Fits (before ++ after) low high) (above : low ≤ key)
    (stop : (key : WithTop K) < high) (smaller : ∀ old ∈ before, old < key)
    (larger : ∀ old ∈ after, key < old)
    : Fits (before ++ key :: after) low high := by
  obtain ⟨beforeSorted, afterSorted, across⟩ := List.pairwise_append.mp fits.sorted
  refine ⟨?_, ?_, ?_⟩
  · refine List.pairwise_append.mpr ⟨beforeSorted, ?_, ?_⟩
    · exact List.pairwise_cons.mpr ⟨larger, afterSorted⟩
    · intro old inside new member
      rcases List.mem_cons.mp member with same | later
      · exact same ▸ smaller old inside
      · exact across old inside new later
  · intro old member
    rcases List.mem_append.mp member with inside | inside
    · exact fits.inside old (List.mem_append_left _ inside)
    · rcases List.mem_cons.mp inside with same | later
      · exact same ▸ ⟨above, stop⟩
      · exact fits.inside old (List.mem_append_right _ later)
  · intro least same
    have first := fits.least least same
    cases before with
    | nil =>
        -- The least key would lie above the new one, yet the span starts at it.
        cases after with
        | nil => simp at first
        | cons head tail =>
            have equal : head = least := by simpa using first
            have start : least ≤ key := WithBot.coe_le_coe.mp (same ▸ above)
            exact absurd (larger head (by simp)) (not_lt.mpr (equal ▸ start))
    | cons head tail => simpa using first

/-- Inserting a new key into the leaf that answers for it preserves the tree. -/
theorem Tree.insertLeaf (tree : Tree heap spans root top) {low : WithBot K}
    {high : WithTop K} {before after : List (K × V)} {key : K} {value : V}
    (known : spans node = some ⟨0, low, high⟩)
    (body : (heap node).body = .leaf (before ++ after))
    (above : low ≤ key) (stop : (key : WithTop K) < high)
    (smaller : ∀ entry ∈ before, entry.1 < key)
    (larger : ∀ entry ∈ after, key < entry.1)
    (written : next node = ⟨(heap node).parent, .leaf (before ++ (key, value) :: after)⟩)
    (same : ∀ other span, spans other = some span → other ≠ node → next other = heap other)
    : Tree next spans root top := by
  have parents : ∀ other span, spans other = some span
      → (next other).parent = (heap other).parent := by
    intro other span live
    by_cases here : other = node
    · rw [here, written]
    · rw [same other span live here]
  obtain ⟨entries, shape, fits⟩ := (tree.nodes node _ known).leaf_body
  obtain rfl : before ++ after = entries := Body.leaf.inj (body.symm.trans shape)
  refine {
    rootSpan := tree.rootSpan
    rootParent := (parents root _ tree.rootSpan).trans tree.rootParent
    nodes := ?_
    listed := ?_
    below := tree.below
  }
  · intro other span live
    by_cases here : other = node
    · subst here
      obtain rfl := Option.some.inj (known.symm.trans live)
      refine .leaf (by rw [written]) ?_
      rw [List.map_append, List.map_cons]
      rw [List.map_append] at fits
      refine fits.insert above stop ?_ ?_
      · intro old member
        obtain ⟨entry, inside, rfl⟩ := List.mem_map.mp member
        exact smaller entry inside
      · intro old member
        obtain ⟨entry, inside, rfl⟩ := List.mem_map.mp member
        exact larger entry inside
    · apply (tree.nodes other span live).transport
      · rw [same other span live here]
      · intro child member
        obtain ⟨childSpan, childLive, _, _⟩ := (tree.nodes other span live).child member
        exact ⟨rfl, parents child childSpan childLive⟩
  · intro other span live notRoot
    obtain ⟨parent, parentSpan, pointer, parentLive, level, lists⟩ :=
      tree.listed other span live notRoot
    refine ⟨parent, parentSpan, (parents other span live).trans pointer, parentLive, level, ?_⟩
    have away : parent ≠ node := by
      rintro rfl
      simp [body, Body.children] at lists
    rw [same parent parentSpan parentLive away]
    exact lists

end Insert

-----------------------------------------------------------------------------------------
-- A node that was cut in two while its parent still lists only the left half
-----------------------------------------------------------------------------------------

section Split

variable [DecidableEq A]

/-- The spans once `left` has been cut at `separator` and `right` has taken the upper part. -/
def narrowed (spans : A → Option (Span K)) (left right : A) (separator : K)
    : A → Option (Span K) :=
  fun node =>
    if node = right then
      (spans left).map (fun span => { span with low := separator })
    else if node = left then
      (spans left).map (fun span => { span with high := separator })
    else spans node

theorem narrowed_right (spans : A → Option (Span K)) (left right : A) (separator : K)
    : narrowed spans left right separator right
      = (spans left).map (fun span => { span with low := separator }) := by
  simp [narrowed]

theorem narrowed_left (spans : A → Option (Span K)) {left right : A} (separator : K)
    (distinct : left ≠ right)
    : narrowed spans left right separator left
      = (spans left).map (fun span => { span with high := separator }) := by
  simp [narrowed, distinct]

theorem narrowed_other (spans : A → Option (Span K)) {left right node : A} (separator : K)
    (notLeft : node ≠ left) (notRight : node ≠ right)
    : narrowed spans left right separator node = spans node := by
  simp [narrowed, notLeft, notRight]

variable [LinearOrder K]

/-- A tree in which `right` holds the upper part of `left` but is not listed yet. Parents
still count on `spans`; the nodes themselves answer for the narrowed spans.
-/
structure Split (heap : A → Node A K V) (spans : A → Option (Span K)) (root : A)
    (top : Nat) (left right : A) (separator : K)
    : Prop where
  rootSpan : spans root = some ⟨top, ⊥, ⊤⟩
  rootParent : (heap root).parent = none
  fresh : spans right = none
  cut : ∃ span, spans left = some span ∧ span.low < separator
    ∧ (separator : WithTop K) < span.high
  nodes
    : ∀ node span, narrowed spans left right separator node = some span
      → NodeOk heap spans node span
  listed
    : ∀ node span, spans node = some span → node ≠ root
      → Listed heap (narrowed spans left right separator) node span.height
  below : ∀ node span, spans node = some span → node ≠ root → span.height < top

variable {heap next : A → Node A K V} {spans : A → Option (Span K)}
  {root node left right : A} {top : Nat} {separator : K}

/-- The two halves of a split node are different nodes. -/
theorem Split.distinct (split : Split heap spans root top left right separator)
    : left ≠ right := by
  rintro rfl
  obtain ⟨span, known, _⟩ := split.cut
  simp [split.fresh] at known

/-- Narrowing keeps every live node live at its height. -/
theorem Split.narrowed_live (split : Split heap spans root top left right separator)
    {span : Span K} (live : spans node = some span)
    : ∃ small, narrowed spans left right separator node = some small
        ∧ small.height = span.height := by
  by_cases here : node = left
  · subst here
    refine ⟨{ span with high := separator }, ?_, rfl⟩
    rw [narrowed_left spans separator split.distinct, live]
    rfl
  · have away : node ≠ right := by
      rintro rfl
      simp [split.fresh] at live
    exact ⟨span, by rw [narrowed_other spans separator here away, live], rfl⟩

/-- A node that is live after narrowing was live at that height before, or is the new half. -/
theorem Split.live_of_narrowed (split : Split heap spans root top left right separator)
    {span : Span K} (live : narrowed spans left right separator node = some span)
    : (∃ wide, spans node = some wide ∧ wide.height = span.height) ∨ node = right := by
  by_cases fresh : node = right
  · exact Or.inr fresh
  · left
    by_cases here : node = left
    · subst here
      rw [narrowed_left spans separator split.distinct] at live
      obtain ⟨wide, known, rfl⟩ := Option.map_eq_some_iff.mp live
      exact ⟨wide, known, rfl⟩
    · rw [narrowed_other spans separator here fresh] at live
      exact ⟨span, live, rfl⟩

end Split

end SearchTree
