import ZippyFS.Lib.TreeContents
import ZippyFS.Lib.TreeSplit

/-! Insertions into nodes without room. The heap between the insertion and the cut, in which
one node is too full, exists only in the proof: both steps apply to it in turn.
-/

namespace SearchTree

variable {A K V : Type} [DecidableEq A] [LinearOrder K] {heap next : A → Node A K V}
  {spans : A → Option (Span K)} {root node left right : A} {top : Nat} {separator : K}

/-- Inserting an entry into a leaf and cutting the leaf in two. -/
theorem Tree.insertSplitLeaf (tree : Tree heap spans root top) {low : WithBot K}
    {high : WithTop K} {before after lower upper : List (K × V)} {key : K} {value last : V}
    (known : spans node = some ⟨0, low, high⟩) (fresh : spans right = none)
    (body : (heap node).body = .leaf (before ++ after))
    (above : low ≤ key) (stop : (key : WithTop K) < high)
    (smaller : ∀ entry ∈ before, entry.1 < key)
    (larger : ∀ entry ∈ after, key < entry.1)
    (cut : before ++ (key, value) :: after = lower ++ (separator, last) :: upper)
    (nonempty : lower ≠ [])
    (leftWritten : next node = ⟨(heap node).parent, .leaf lower⟩)
    (rightWritten : (next right).body = .leaf ((separator, last) :: upper))
    (same : ∀ other span, spans other = some span → other ≠ node → next other = heap other)
    : Split next spans root top node right separator
      ∧ ∀ entry, Stored next (narrowed spans node right separator) entry
        ↔ entry = (key, value) ∨ Stored heap spans entry := by
  let full := Function.update heap node
    ⟨(heap node).parent, .leaf (before ++ (key, value) :: after)⟩
  have fullNode : full node = ⟨(heap node).parent, .leaf (before ++ (key, value) :: after)⟩ :=
    Function.update_self _ _ _
  have fullOther : ∀ other, other ≠ node → full other = heap other :=
    fun other away => Function.update_of_ne away _ _
  have fullTree : Tree full spans root top :=
    tree.insertLeaf known body above stop smaller larger fullNode
      (fun other _ _ away => fullOther other away)
  have fullBody : (full node).body = .leaf (lower ++ (separator, last) :: upper) := by
    rw [fullNode, cut]
  have unchanged : ∀ other span, spans other = some span → other ≠ node
      → next other = full other := by
    intro other span live away
    rw [same other span live away, fullOther other away]
  have leftFull : next node = ⟨(full node).parent, .leaf lower⟩ := by
    rw [leftWritten, fullNode]
  refine ⟨fullTree.splitLeaf known fresh fullBody nonempty leftFull rightWritten unchanged, ?_⟩
  intro entry
  rw [stored_cutLeaf known fresh fullBody (by rw [leftWritten]) rightWritten
    (fun other span live away => by rw [unchanged other span live away])]
  exact stored_insert known body (by rw [fullNode])
    (fun other span live away => by rw [fullOther other away]) entry

/-- Listing a pending half in its parent and cutting the parent in two. -/
theorem Split.overflow (split : Split heap spans root top left right separator)
    {parent grown : A} {height : Nat} {low : WithBot K} {high : WithTop K} {middle : K}
    {lowKeys highKeys lowerKeys upperKeys : List K}
    {before after lowerChildren upperChildren : List A}
    (known : spans parent = some ⟨height + 1, low, high⟩)
    (away : parent ≠ left) (notRight : parent ≠ right)
    (fresh : spans grown = none) (grownRight : grown ≠ right)
    (body : (heap parent).body = .inner (lowKeys ++ highKeys) (before ++ left :: after))
    (under : ∀ key ∈ lowKeys, key < separator) (exceeds : ∀ key ∈ highKeys, separator < key)
    (between : low < separator ∧ (separator : WithTop K) < high)
    (chain
      : Chain (narrowed spans left right separator) height low
          (lowKeys ++ separator :: highKeys) (before ++ left :: right :: after) high)
    (cutKeys : lowKeys ++ separator :: highKeys = lowerKeys ++ middle :: upperKeys)
    (cutChildren : before ++ left :: right :: after = lowerChildren ++ upperChildren)
    (sizes : lowerChildren.length = lowerKeys.length + 1)
    (parentWritten : next parent = ⟨(heap parent).parent, .inner lowerKeys lowerChildren⟩)
    (grownWritten : (next grown).body = .inner upperKeys upperChildren)
    (rightKept : right ∉ upperChildren → next right = ⟨some parent, (heap right).body⟩)
    (moved : ∀ child ∈ upperChildren, next child = ⟨some grown, (heap child).body⟩)
    (same
      : ∀ other span, spans other = some span → other ≠ parent → other ∉ upperChildren
        → next other = heap other)
    : Split next (narrowed spans left right separator) root top parent grown middle
      ∧ ∀ entry,
        Stored next (narrowed (narrowed spans left right separator) parent grown middle) entry
          ↔ Stored heap (narrowed spans left right separator) entry := by
  let full := Function.update (Function.update heap parent ⟨(heap parent).parent,
    .inner (lowKeys ++ separator :: highKeys) (before ++ left :: right :: after)⟩) right
    ⟨some parent, (heap right).body⟩
  have fullParent : full parent = ⟨(heap parent).parent,
      .inner (lowKeys ++ separator :: highKeys) (before ++ left :: right :: after)⟩ := by
    simp [full, Function.update, notRight]
  have fullRight : full right = ⟨some parent, (heap right).body⟩ := by
    simp [full]
  have fullOther : ∀ other, other ≠ parent → other ≠ right → full other = heap other := by
    intro other notParent notNew
    simp [full, Function.update, notParent, notNew]
  have rightFresh := split.fresh
  have liveNotRight : ∀ other span, spans other = some span → other ≠ right := by
    rintro other span live rfl
    simp [rightFresh] at live
  have fullTree : Tree full (narrowed spans left right separator) root top :=
    split.settle known away notRight body under exceeds between chain fullParent fullRight
      (fun other span live notParent =>
        fullOther other notParent (liveNotRight other span live))
  obtain ⟨leftSpan, leftKnown, _⟩ := split.cut
  have liveIff := narrowed_live_iff right separator ⟨leftSpan, leftKnown⟩
  have stillParent := (narrowed_other spans separator away notRight).trans known
  have notLeft : grown ≠ left := by
    rintro rfl
    simp [leftKnown] at fresh
  have stillFresh : narrowed spans left right separator grown = none := by
    rw [narrowed_other spans separator notLeft grownRight, fresh]
  have fullBody : (full parent).body
      = .inner (lowerKeys ++ middle :: upperKeys) (lowerChildren ++ upperChildren) := by
    rw [fullParent, cutKeys, cutChildren]
  have ok := fullTree.nodes parent _ stillParent
  have upperListed : ∀ child ∈ upperChildren, child ∈ (full parent).body.children := by
    intro child member
    rw [fullBody]
    exact List.mem_append_right _ member
  have upperNotParent : ∀ child ∈ upperChildren, child ≠ parent := by
    rintro child member rfl
    obtain ⟨childSpan, live, level, _⟩ := ok.child (upperListed child member)
    obtain rfl := Option.some.inj (live.symm.trans stillParent)
    simp at level
  have unchanged : ∀ other span, narrowed spans left right separator other = some span
      → other ≠ parent → other ∉ upperChildren → next other = full other := by
    intro other span live notParent stays
    rcases (liveIff other).mp ⟨span, live⟩ with rfl | ⟨wide, liveWide⟩
    · rw [rightKept stays, fullRight]
    · rw [same other wide liveWide notParent stays,
        fullOther other notParent (liveNotRight other wide liveWide)]
  have movedFull : ∀ child ∈ upperChildren, next child = ⟨some grown, (full child).body⟩ := by
    intro child member
    rw [moved child member]
    by_cases isRight : child = right
    · rw [isRight, fullRight]
    · rw [fullOther child (upperNotParent child member) isRight]
  refine ⟨fullTree.splitInner stillParent stillFresh fullBody sizes
    (by rw [parentWritten, fullParent]) grownWritten movedFull unchanged, ?_⟩
  intro entry
  rw [stored_cutInner ⟨_, stillParent⟩ stillFresh fullBody (by rw [parentWritten]) grownWritten
    (fun other span live notParent => ?_)]
  · apply stored_congr
    intro place entries
    by_cases here : place = parent
    · subst here
      simp [fullParent, body]
    · by_cases isRight : place = right
      · rw [isRight, fullRight]
      · rw [fullOther place here isRight]
  · by_cases upper : other ∈ upperChildren
    · rw [movedFull other upper]
    · rw [unchanged other span live notParent upper]

end SearchTree
