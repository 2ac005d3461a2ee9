import ZippyFS.Lib.SearchTree

/-! The steps of an insertion that overflows: cutting a leaf or an inner node in two, listing
the new half in the parent, and growing a new root. Each step states the heap it produces
by its effect on live nodes, so any memory with that effect qualifies.
-/

namespace SearchTree

variable {A K V : Type} [DecidableEq A] [LinearOrder K] {heap next : A → Node A K V}
  {spans : A → Option (Span K)} {root node left right : A} {top : Nat} {separator : K}

/-- The keys before a cut, with the cut as upper end. -/
theorem Fits.lower {before after : List K} {low : WithBot K} {high : WithTop K} {key : K}
    (fits : Fits (before ++ key :: after) low high) (nonempty : before ≠ [])
    : Fits before low key := by
  obtain ⟨beforeSorted, _, across⟩ := List.pairwise_append.mp fits.sorted
  refine ⟨beforeSorted, ?_, ?_⟩
  · intro old member
    exact ⟨(fits.inside old (List.mem_append_left _ member)).1,
      WithTop.coe_lt_coe.mpr (across old member key (by simp))⟩
  · intro least same
    have first := fits.least least same
    cases before with
    | nil => exact absurd rfl nonempty
    | cons head tail => simpa using first

/-- The keys from a cut on, with the cut as lower end. -/
theorem Fits.upper {before after : List K} {low : WithBot K} {high : WithTop K} {key : K}
    (fits : Fits (before ++ key :: after) low high)
    : Fits (key :: after) key high := by
  obtain ⟨_, sorted, _⟩ := List.pairwise_append.mp fits.sorted
  refine ⟨sorted, ?_, ?_⟩
  · intro old member
    refine ⟨?_, (fits.inside old (List.mem_append_right _ member)).2⟩
    rcases List.mem_cons.mp member with same | later
    · simp [same]
    · exact WithBot.coe_le_coe.mpr (le_of_lt ((List.pairwise_cons.mp sorted).1 old later))
  · intro least same
    simpa using same

/-- A separator of a fitting list with keys before it lies strictly above the lower end. -/
theorem Fits.cut_above {before after : List K} {low : WithBot K} {high : WithTop K} {key : K}
    (fits : Fits (before ++ key :: after) low high) (nonempty : before ≠ [])
    : low < key := by
  obtain ⟨first, rest, rfl⟩ := List.exists_cons_of_ne_nil nonempty
  have start := (fits.inside first (by simp)).1
  have smaller : first < key :=
    (List.pairwise_append.mp fits.sorted).2.2 first (by simp) key (by simp)
  exact lt_of_le_of_lt start (WithBot.coe_lt_coe.mpr smaller)

/-- Cutting a leaf before a later entry leaves its upper part pending in a fresh node. -/
theorem Tree.splitLeaf (tree : Tree heap spans root top) {low : WithBot K}
    {high : WithTop K} {before after : List (K × V)} {value : V}
    (known : spans node = some ⟨0, low, high⟩) (fresh : spans right = none)
    (body : (heap node).body = .leaf (before ++ (separator, value) :: after))
    (nonempty : before ≠ [])
    (leftWritten : next node = ⟨(heap node).parent, .leaf before⟩)
    (rightWritten : (next right).body = .leaf ((separator, value) :: after))
    (same : ∀ other span, spans other = some span → other ≠ node → next other = heap other)
    : Split next spans root top node right separator := by
  have parents : ∀ other span, spans other = some span
      → (next other).parent = (heap other).parent := by
    intro other span live
    by_cases here : other = node
    · rw [here, leftWritten]
    · rw [same other span live here]
  have distinct : node ≠ right := by
    rintro rfl
    simp [fresh] at known
  obtain ⟨entries, shape, fits⟩ := (tree.nodes node _ known).leaf_body
  obtain rfl : before ++ (separator, value) :: after = entries :=
    Body.leaf.inj (body.symm.trans shape)
  rw [List.map_append, List.map_cons] at fits
  have mapped : before.map Prod.fst ≠ [] := by simpa using nonempty
  refine {
    rootSpan := tree.rootSpan
    rootParent := (parents root _ tree.rootSpan).trans tree.rootParent
    fresh := fresh
    cut := ⟨_, known, fits.cut_above mapped, (fits.inside separator (by simp)).2⟩
    nodes := ?_
    listed := ?_
    below := tree.below
  }
  · intro other span live
    by_cases isRight : other = right
    · subst isRight
      rw [narrowed_right, known] at live
      obtain rfl := Option.some.inj live
      exact .leaf rightWritten fits.upper
    · by_cases isLeft : other = node
      · subst isLeft
        rw [narrowed_left spans separator distinct, known] at live
        obtain rfl := Option.some.inj live
        exact .leaf (by rw [leftWritten]) (fits.lower mapped)
      · rw [narrowed_other spans separator isLeft isRight] at live
        apply (tree.nodes other span live).transport
        · rw [same other span live isLeft]
        · intro child member
          obtain ⟨childSpan, childLive, _, _⟩ := (tree.nodes other span live).child member
          exact ⟨rfl, parents child childSpan childLive⟩
  · intro other span live notRoot
    obtain ⟨parent, parentSpan, pointer, parentLive, level, lists⟩ :=
      tree.listed other span live notRoot
    have away : parent ≠ node := by
      rintro rfl
      simp [body, Body.children] at lists
    have notRight : parent ≠ right := by
      rintro rfl
      simp [fresh] at parentLive
    refine ⟨parent, parentSpan, (parents other span live).trans pointer, ?_, level, ?_⟩
    · rw [narrowed_other spans separator away notRight, parentLive]
    · rw [same parent parentSpan parentLive away]
      exact lists

/-- Cutting an inner node at one of its separators leaves the upper children pending in a
fresh node, which becomes their parent.
-/
theorem Tree.splitInner (tree : Tree heap spans root top) {height : Nat} {low : WithBot K}
    {high : WithTop K} {lowKeys highKeys : List K} {before after : List A}
    (known : spans node = some ⟨height + 1, low, high⟩) (fresh : spans right = none)
    (body
      : (heap node).body
        = .inner (lowKeys ++ separator :: highKeys) (before ++ after))
    (sizes : before.length = lowKeys.length + 1)
    (leftWritten : next node = ⟨(heap node).parent, .inner lowKeys before⟩)
    (rightWritten : (next right).body = .inner highKeys after)
    (moved : ∀ child ∈ after, next child = ⟨some right, (heap child).body⟩)
    (same
      : ∀ other span, spans other = some span → other ≠ node → other ∉ after
        → next other = heap other)
    : Split next spans root top node right separator := by
  obtain ⟨keys, children, shape, sorted, inside, chain, parents⟩ :=
    (tree.nodes node _ known).inner_body
  obtain ⟨rfl, rfl⟩ : lowKeys ++ separator :: highKeys = keys ∧ before ++ after = children :=
    Body.inner.inj (body.symm.trans shape)
  have distinct : node ≠ right := by
    rintro rfl
    simp [fresh] at known
  have allDistinct := chain.nodup sorted (fun key member => (inside key member).1)
  obtain ⟨lowSorted, highSorted, across⟩ := List.pairwise_append.mp sorted
  obtain ⟨lowChain, highChain⟩ := (chain_append_iff sizes).mp chain
  have childLive : ∀ child ∈ before ++ after, ∃ span, spans child = some span
      ∧ span.height = height := fun child member => chain.child_span member
  have notSelf : node ∉ before ++ after := by
    intro member
    obtain ⟨span, live, level⟩ := childLive node member
    obtain rfl := Option.some.inj (known.symm.trans live)
    simp at level
  have bodies : ∀ other span, spans other = some span → other ≠ node
      → (next other).body = (heap other).body := by
    intro other span live away
    by_cases lower : other ∈ after
    · rw [moved other lower]
    · rw [same other span live away lower]
  have kept : ∀ other span, spans other = some span → other ∉ after
      → (next other).parent = (heap other).parent := by
    intro other span live stays
    by_cases here : other = node
    · rw [here, leftWritten]
    · rw [same other span live here stays]
  -- A moved child was listed by `node` alone: its parent pointer says so.
  have onlyNode : ∀ other span child, spans other = some span
      → child ∈ (heap other).body.children → child ∈ after → other = node := by
    intro other span child live member lower
    obtain ⟨_, _, _, pointer⟩ := (tree.nodes other span live).child member
    have back := parents child (List.mem_append_right _ lower)
    exact Option.some.inj (pointer.symm.trans back)
  have rootStays : root ∉ after := by
    intro member
    have back := parents root (List.mem_append_right _ member)
    simp [tree.rootParent] at back
  refine {
    rootSpan := tree.rootSpan
    rootParent := (kept root _ tree.rootSpan rootStays).trans tree.rootParent
    fresh := fresh
    cut := ⟨_, known, (inside separator (by simp)).1, (inside separator (by simp)).2⟩
    nodes := ?_
    listed := ?_
    below := tree.below
  }
  · intro other span live
    by_cases isRight : other = right
    · subst isRight
      rw [narrowed_right, known] at live
      obtain rfl := Option.some.inj live
      refine .inner rightWritten (List.pairwise_cons.mp highSorted).2 ?_ highChain ?_
      · intro key member
        exact ⟨WithBot.coe_lt_coe.mpr ((List.pairwise_cons.mp highSorted).1 key member),
          (inside key (by simp [member])).2⟩
      · intro child member
        rw [moved child member]
    · by_cases isLeft : other = node
      · subst isLeft
        rw [narrowed_left spans separator distinct, known] at live
        obtain rfl := Option.some.inj live
        refine .inner (by rw [leftWritten]) lowSorted ?_ lowChain ?_
        · intro key member
          exact ⟨(inside key (by simp [member])).1,
            WithTop.coe_lt_coe.mpr (across key member separator (by simp))⟩
        · intro child member
          have whole : child ∈ before ++ after := List.mem_append_left _ member
          obtain ⟨childSpan, live, _⟩ := childLive child whole
          have stays : child ∉ after := fun again =>
            (List.nodup_append.mp allDistinct).2.2 child member child again rfl
          exact (kept child childSpan live stays).trans (parents child whole)
      · rw [narrowed_other spans separator isLeft isRight] at live
        apply (tree.nodes other span live).transport (bodies other span live isLeft)
        intro child member
        obtain ⟨childSpan, live', _, _⟩ := (tree.nodes other span live).child member
        refine ⟨rfl, kept child childSpan live' ?_⟩
        exact fun lower => isLeft (onlyNode other span child live member lower)
  · intro other span live notRoot
    by_cases lower : other ∈ after
    · refine ⟨right, ⟨height + 1, separator, high⟩, by rw [moved other lower], ?_, ?_, ?_⟩
      · rw [narrowed_right, known]
        rfl
      · obtain ⟨childSpan, live', level⟩ := childLive other (List.mem_append_right _ lower)
        obtain rfl := Option.some.inj (live.symm.trans live')
        simp [level]
      · rw [rightWritten]
        exact lower
    · obtain ⟨parent, parentSpan, pointer, parentLive, level, lists⟩ :=
        tree.listed other span live notRoot
      have back := (kept other span live lower).trans pointer
      by_cases here : parent = node
      · subst here
        obtain rfl := Option.some.inj (known.symm.trans parentLive)
        refine ⟨parent, ⟨height + 1, low, separator⟩, back, ?_, level, ?_⟩
        · rw [narrowed_left spans separator distinct, known]
          rfl
        · simp only [body, Body.children, List.mem_append] at lists
          rw [leftWritten]
          exact lists.resolve_right lower
      · have notRight : parent ≠ right := by
          rintro rfl
          simp [fresh] at parentLive
        refine ⟨parent, parentSpan, back, ?_, level, ?_⟩
        · rw [narrowed_other spans separator here notRight, parentLive]
        · rw [bodies parent parentSpan parentLive here]
          exact lists

-----------------------------------------------------------------------------------------
-- Listing the pending half
-----------------------------------------------------------------------------------------

/-- The parent of a split node: where its separators and children leave room for the
pending half, and the chain that results there.
-/
theorem Split.parent (split : Split heap spans root top left right separator)
    (notRoot : left ≠ root)
    : ∃ parent height low high lowKeys highKeys before after,
        (heap left).parent = some parent
        ∧ spans parent = some ⟨height + 1, low, high⟩
        ∧ parent ≠ left
        ∧ parent ≠ right
        ∧ (heap parent).body = .inner (lowKeys ++ highKeys) (before ++ left :: after)
        ∧ before.length = lowKeys.length
        ∧ (∀ key ∈ lowKeys, key < separator)
        ∧ (∀ key ∈ highKeys, separator < key)
        ∧ (low < separator ∧ (separator : WithTop K) < high)
        ∧ Chain (narrowed spans left right separator) height low
            (lowKeys ++ separator :: highKeys) (before ++ left :: right :: after) high := by
  obtain ⟨leftSpan, known, start, stop⟩ := split.cut
  obtain ⟨parent, parentSpan, pointer, parentLive, level, lists⟩ :=
    split.listed left leftSpan known notRoot
  have away : parent ≠ left := by
    rintro rfl
    obtain ⟨small, live, same⟩ := split.narrowed_live known
    obtain rfl := Option.some.inj (live.symm.trans parentLive)
    omega
  have notRight : parent ≠ right := by
    rintro rfl
    rw [narrowed_right, known] at parentLive
    obtain rfl := Option.some.inj parentLive
    simp at level
  rw [narrowed_other spans separator away notRight] at parentLive
  obtain ⟨height, low, high⟩ := parentSpan
  simp only at level
  subst level
  have ok := split.nodes parent _
    ((narrowed_other spans separator away notRight).trans parentLive)
  obtain ⟨keys, children, shape, sorted, inside, chain, parents⟩ := ok.inner_body
  have member : left ∈ children := by simpa [shape, Body.children] using lists
  have leftNext : narrowed spans left right separator left
      = some { leftSpan with high := separator } := by
    rw [narrowed_left spans separator split.distinct, known]
    rfl
  have rightNext : narrowed spans left right separator right
      = some { leftSpan with low := separator } := by
    rw [narrowed_right, known]
    rfl
  obtain ⟨lowKeys, highKeys, before, after, rfl, rfl, sizes, under, exceeds, settled⟩ :=
    chain.settle sorted (fun key member => (inside key member).1) member known start stop
      leftNext rightNext
      (fun child inside away => by
        obtain ⟨childSpan, live, _⟩ := chain.child_span inside
        refine narrowed_other spans separator away ?_
        rintro rfl
        simp [split.fresh] at live)
  -- The separator lies inside the left node's span, which lies inside the parent's.
  have floor := chain.low_le sorted (fun key member => (inside key member).1) member known
  have ceiling := chain.le_high (fun key member => (inside key member).2) member known
  exact ⟨parent, leftSpan.height, low, high, lowKeys, highKeys, before, after, pointer,
    parentLive, away, notRight, shape, sizes, under, exceeds,
    ⟨lt_of_le_of_lt floor start, lt_of_lt_of_le stop ceiling⟩, settled⟩

/-- Listing the pending half behind its left part restores the tree. -/
theorem Split.settle (split : Split heap spans root top left right separator)
    {parent : A} {height : Nat} {low : WithBot K} {high : WithTop K}
    {lowKeys highKeys : List K} {before after : List A}
    (known : spans parent = some ⟨height + 1, low, high⟩)
    (away : parent ≠ left) (notRight : parent ≠ right)
    (body : (heap parent).body = .inner (lowKeys ++ highKeys) (before ++ left :: after))
    (under : ∀ key ∈ lowKeys, key < separator) (exceeds : ∀ key ∈ highKeys, separator < key)
    (between : low < separator ∧ (separator : WithTop K) < high)
    (chain
      : Chain (narrowed spans left right separator) height low
          (lowKeys ++ separator :: highKeys) (before ++ left :: right :: after) high)
    (parentWritten
      : next parent
        = ⟨(heap parent).parent,
            .inner (lowKeys ++ separator :: highKeys) (before ++ left :: right :: after)⟩)
    (rightWritten : next right = ⟨some parent, (heap right).body⟩)
    (same : ∀ other span, spans other = some span → other ≠ parent → next other = heap other)
    : Tree next (narrowed spans left right separator) root top := by
  have parents : ∀ other span, spans other = some span
      → (next other).parent = (heap other).parent := by
    intro other span live
    by_cases here : other = parent
    · rw [here, parentWritten]
    · rw [same other span live here]
  have stillParent := (narrowed_other spans separator away notRight).trans known
  obtain ⟨keys, children, shape, sorted, inside, _, pointers⟩ :=
    (split.nodes parent _ stillParent).inner_body
  obtain ⟨rfl, rfl⟩ : lowKeys ++ highKeys = keys ∧ before ++ left :: after = children :=
    Body.inner.inj (body.symm.trans shape)
  obtain ⟨lowSorted, highSorted, across⟩ := List.pairwise_append.mp sorted
  refine {
    rootSpan := ?_
    rootParent := (parents root _ split.rootSpan).trans split.rootParent
    nodes := ?_
    listed := ?_
    below := ?_
  }
  · have notLeft : root ≠ left := by
      rintro rfl
      have back := pointers root (by simp)
      simp [split.rootParent] at back
    have notFresh : root ≠ right := by
      rintro rfl
      have live := split.rootSpan
      simp [split.fresh] at live
    rw [narrowed_other spans separator notLeft notFresh]
    exact split.rootSpan
  · intro other span live
    by_cases here : other = parent
    · subst here
      obtain rfl := Option.some.inj (stillParent.symm.trans live)
      refine .inner (by rw [parentWritten]) ?_ ?_ chain ?_
      · refine List.pairwise_append.mpr ⟨lowSorted,
          List.pairwise_cons.mpr ⟨exceeds, highSorted⟩, ?_⟩
        intro key member old inside'
        rcases List.mem_cons.mp inside' with equal | later
        · exact equal ▸ under key member
        · exact across key member old later
      · intro key member
        rcases List.mem_append.mp member with lower | upper
        · exact inside key (by simp [lower])
        · rcases List.mem_cons.mp upper with equal | later
          · exact equal ▸ between
          · exact inside key (by simp [later])
      · intro child member
        by_cases isRight : child = right
        · rw [isRight, rightWritten]
        · have old : child ∈ before ++ left :: after := by
            simp only [List.mem_append, List.mem_cons] at member ⊢
            tauto
          obtain ⟨childSpan, childLive, _, pointer⟩ :=
            (split.nodes other _ live).child (by simpa [body, Body.children] using old)
          exact (parents child childSpan childLive).trans pointer
    · by_cases isRight : other = right
      · subst isRight
        apply (split.nodes other span live).transport
        · rw [rightWritten]
        · intro child member
          obtain ⟨childSpan, childLive, level, pointer⟩ :=
            (split.nodes other span live).child member
          obtain ⟨small, narrow, _⟩ := split.narrowed_live childLive
          refine ⟨?_, parents child childSpan childLive⟩
          have notLeft : child ≠ left := by
            rintro rfl
            exact notRight (Option.some.inj ((pointers child (by simp)).symm.trans pointer))
          have notFresh : child ≠ other := by
            rintro rfl
            simp [split.fresh] at childLive
          exact narrowed_other spans separator notLeft notFresh
      · obtain ⟨wide, liveWide, _⟩ := (split.live_of_narrowed live).resolve_right isRight
        apply (split.nodes other span live).transport
        · rw [same other wide liveWide here]
        · intro child member
          obtain ⟨childSpan, childLive, _, pointer⟩ :=
            (split.nodes other span live).child member
          refine ⟨?_, parents child childSpan childLive⟩
          have notLeft : child ≠ left := by
            rintro rfl
            exact here (Option.some.inj (pointer.symm.trans (pointers child (by simp))))
          have notFresh : child ≠ right := by
            rintro rfl
            simp [split.fresh] at childLive
          exact narrowed_other spans separator notLeft notFresh
  · intro other span live notRoot
    rcases split.live_of_narrowed live with ⟨wide, liveWide, level⟩ | isRight
    · obtain ⟨owner, ownerSpan, pointer, ownerLive, step, lists⟩ :=
        split.listed other wide liveWide notRoot
      refine ⟨owner, ownerSpan, (parents other wide liveWide).trans pointer, ownerLive,
        by rw [step, level], ?_⟩
      by_cases here : owner = parent
      · subst here
        simp only [body, Body.children, List.mem_append, List.mem_cons] at lists
        simp only [parentWritten, Body.children, List.mem_append, List.mem_cons]
        tauto
      · by_cases isRight : owner = right
        · subst isRight
          rw [rightWritten]
          exact lists
        · obtain ⟨ownerWide, ownerLive', _⟩ :=
            (split.live_of_narrowed ownerLive).resolve_right isRight
          rw [same owner ownerWide ownerLive' here]
          exact lists
    · subst isRight
      obtain ⟨leftSpan, leftKnown, _⟩ := split.cut
      rw [narrowed_right, leftKnown] at live
      obtain rfl := Option.some.inj live
      obtain ⟨memberSpan, memberLive, memberLevel⟩ :=
        chain.child_span (show other ∈ before ++ left :: other :: after by simp)
      rw [narrowed_right, leftKnown] at memberLive
      obtain rfl := Option.some.inj memberLive
      refine ⟨parent, _, by rw [rightWritten], stillParent, ?_, ?_⟩
      · simpa using memberLevel.symm
      · simp [parentWritten, Body.children]
  · intro other span live notRoot
    rcases split.live_of_narrowed live with ⟨wide, liveWide, level⟩ | isRight
    · rw [← level]
      exact split.below other wide liveWide notRoot
    · subst isRight
      obtain ⟨leftSpan, leftKnown, _⟩ := split.cut
      have leftNotRoot : left ≠ root := by
        rintro rfl
        have back := pointers left (by simp)
        simp [split.rootParent] at back
      rw [narrowed_right, leftKnown] at live
      obtain rfl := Option.some.inj live
      exact split.below left leftSpan leftKnown leftNotRoot

/-- When the root itself was cut, a fresh root above both halves restores the tree. -/
theorem Split.newRoot (split : Split heap spans root top root right separator) {grown : A}
    (fresh : spans grown = none) (notRight : grown ≠ right)
    (grownWritten : next grown = ⟨none, .inner [separator] [root, right]⟩)
    (rootWritten : next root = ⟨some grown, (heap root).body⟩)
    (rightWritten : next right = ⟨some grown, (heap right).body⟩)
    (same : ∀ other span, spans other = some span → other ≠ root → next other = heap other)
    : Tree next
        (Function.update (narrowed spans root right separator) grown
          (some ⟨top + 1, ⊥, ⊤⟩))
        grown (top + 1) := by
  have distinct := split.distinct
  have notRoot : grown ≠ root := by
    rintro rfl
    have live := split.rootSpan
    simp [fresh] at live
  have grownNarrow : narrowed spans root right separator grown = none := by
    rw [narrowed_other spans separator notRoot notRight, fresh]
  have rootNarrow : narrowed spans root right separator root
      = some ⟨top, ⊥, separator⟩ := by
    rw [narrowed_left spans separator distinct, split.rootSpan]
    rfl
  have rightNarrow : narrowed spans root right separator right
      = some ⟨top, separator, ⊤⟩ := by
    rw [narrowed_right, split.rootSpan]
    rfl
  have bodies : ∀ other span, narrowed spans root right separator other = some span
      → (next other).body = (heap other).body := by
    intro other span live
    by_cases isRoot : other = root
    · rw [isRoot, rootWritten]
    · rcases split.live_of_narrowed live with ⟨wide, liveWide, _⟩ | isRight
      · rw [same other wide liveWide isRoot]
      · rw [isRight, rightWritten]
  -- No node lists the old root, the fresh half or the new root as its child.
  have ordinary : ∀ other span child, narrowed spans root right separator other = some span
      → child ∈ (heap other).body.children
      → child ≠ grown ∧ child ≠ root ∧ child ≠ right := by
    intro other span child live member
    obtain ⟨childSpan, childLive, _, pointer⟩ := (split.nodes other span live).child member
    refine ⟨?_, ?_, ?_⟩
    · rintro rfl
      simp [fresh] at childLive
    · rintro rfl
      simp [split.rootParent] at pointer
    · rintro rfl
      simp [split.fresh] at childLive
  refine {
    rootSpan := by simp
    rootParent := by rw [grownWritten]
    nodes := ?_
    listed := ?_
    below := ?_
  }
  · intro other span live
    by_cases here : other = grown
    · subst here
      simp only [Function.update_self, Option.some.injEq] at live
      subst live
      refine .inner (by rw [grownWritten]) (by simp) ?_ ?_ ?_
      · intro key _
        exact ⟨WithBot.bot_lt_coe key, WithTop.coe_lt_top key⟩
      · refine ⟨?_, ?_⟩
        · simp [Function.update, Ne.symm notRoot, rootNarrow]
        · simp [Chain, Function.update, Ne.symm notRight, rightNarrow]
      · intro child member
        simp only [List.mem_cons, List.not_mem_nil, or_false] at member
        rcases member with isRoot | isRight
        · rw [isRoot, rootWritten]
        · rw [isRight, rightWritten]
    · rw [Function.update_of_ne here] at live
      apply (split.nodes other span live).transport (bodies other span live)
      intro child member
      obtain ⟨notGrown, notOld, notHalf⟩ := ordinary other span child live member
      obtain ⟨childSpan, childLive, _, _⟩ := (split.nodes other span live).child member
      refine ⟨?_, by rw [same child childSpan childLive notOld]⟩
      rw [Function.update_of_ne notGrown, narrowed_other spans separator notOld notHalf]
  · intro other span live notGrown
    rw [Function.update_of_ne notGrown] at live
    by_cases isRoot : other = root
    · subst isRoot
      obtain rfl := Option.some.inj (rootNarrow.symm.trans live)
      exact ⟨grown, ⟨top + 1, ⊥, ⊤⟩, by rw [rootWritten], by simp, rfl,
        by simp [grownWritten, Body.children]⟩
    · rcases split.live_of_narrowed live with ⟨wide, liveWide, level⟩ | isRight
      · obtain ⟨owner, ownerSpan, pointer, ownerLive, step, lists⟩ :=
          split.listed other wide liveWide isRoot
        have ownerOld : owner ≠ grown := by
          rintro rfl
          simp [grownNarrow] at ownerLive
        refine ⟨owner, ownerSpan, ?_, ?_, by rw [step, level], ?_⟩
        · rw [same other wide liveWide isRoot, pointer]
        · rw [Function.update_of_ne ownerOld, ownerLive]
        · rw [bodies owner ownerSpan ownerLive]
          exact lists
      · subst isRight
        obtain rfl := Option.some.inj (rightNarrow.symm.trans live)
        exact ⟨grown, ⟨top + 1, ⊥, ⊤⟩, by rw [rightWritten], by simp, rfl,
          by simp [grownWritten, Body.children]⟩
  · intro other span live notGrown
    rw [Function.update_of_ne notGrown] at live
    by_cases isRoot : other = root
    · subst isRoot
      obtain rfl := Option.some.inj (rootNarrow.symm.trans live)
      simp
    · rcases split.live_of_narrowed live with ⟨wide, liveWide, level⟩ | isRight
      · have under := split.below other wide liveWide isRoot
        omega
      · subst isRight
        obtain rfl := Option.some.inj (rightNarrow.symm.trans live)
        simp

end SearchTree
