import ZippyFS.Lib.TreeTraversal

/-! The entries a linked search tree stores: those of its live leaves. Insertions add one
entry; cutting nodes and listing the halves moves entries but loses and adds none.
-/

namespace SearchTree

variable {A K V : Type} {heap next : A → Node A K V} {spans other : A → Option (Span K)}

/-- The entry lies in a live leaf. -/
def Stored (heap : A → Node A K V) (spans : A → Option (Span K)) (entry : K × V) : Prop :=
  ∃ node span entries,
    spans node = some span ∧ (heap node).body = .leaf entries ∧ entry ∈ entries

/-- Heaps with the same live leaves store the same entries. -/
theorem stored_congr
    (same
      : ∀ node entries,
        ((∃ span, other node = some span) ∧ (next node).body = .leaf entries)
          ↔ ((∃ span, spans node = some span) ∧ (heap node).body = .leaf entries))
    (entry : K × V)
    : Stored next other entry ↔ Stored heap spans entry := by
  constructor
  · rintro ⟨node, span, entries, live, body, member⟩
    obtain ⟨⟨old, oldLive⟩, oldBody⟩ := (same node entries).mp ⟨⟨span, live⟩, body⟩
    exact ⟨node, old, entries, oldLive, oldBody, member⟩
  · rintro ⟨node, span, entries, live, body, member⟩
    obtain ⟨⟨new, newLive⟩, newBody⟩ := (same node entries).mpr ⟨⟨span, live⟩, body⟩
    exact ⟨node, new, entries, newLive, newBody, member⟩

/-- Inserting into a live leaf stores one entry more. -/
theorem stored_insert {node : A} {span : Span K} {before after : List (K × V)}
    {new : K × V} (known : spans node = some span)
    (body : (heap node).body = .leaf (before ++ after))
    (written : (next node).body = .leaf (before ++ new :: after))
    (same
      : ∀ other span, spans other = some span → other ≠ node
        → (next other).body = (heap other).body)
    (entry : K × V)
    : Stored next spans entry ↔ entry = new ∨ Stored heap spans entry := by
  constructor
  · rintro ⟨place, span', entries, live, shape, member⟩
    by_cases here : place = node
    · subst here
      obtain rfl := Body.leaf.inj (written.symm.trans shape)
      by_cases isNew : entry = new
      · exact Or.inl isNew
      · right
        refine ⟨place, span', before ++ after, live, body, ?_⟩
        simp only [List.mem_append, List.mem_cons, isNew, false_or] at member ⊢
        exact member
    · exact Or.inr ⟨place, span', entries, live, (same place span' live here) ▸ shape, member⟩
  · rintro (rfl | ⟨place, span', entries, live, shape, member⟩)
    · exact ⟨node, span, _, known, written, by simp⟩
    · by_cases here : place = node
      · subst here
        obtain rfl := Body.leaf.inj (body.symm.trans shape)
        refine ⟨place, span', _, live, written, ?_⟩
        simp only [List.mem_append, List.mem_cons] at member ⊢
        tauto
      · exact ⟨place, span', entries, live, (same place span' live here).trans shape, member⟩

/-- Narrowing adds the fresh half to the live nodes. -/
theorem narrowed_live_iff [DecidableEq A] {left : A} (right : A) (separator : K)
    (known : ∃ span, spans left = some span) (node : A)
    : (∃ span, narrowed spans left right separator node = some span)
      ↔ node = right ∨ ∃ span, spans node = some span := by
  obtain ⟨span, known⟩ := known
  unfold narrowed
  by_cases isRight : node = right
  · simp [isRight, known]
  · by_cases isLeft : node = left
    · subst isLeft
      simp [isRight, known]
    · simp [isRight, isLeft]

section Cut

variable {node right : A} {separator : K} [DecidableEq A]

/-- Cutting a leaf in two moves its entries. -/
theorem stored_cutLeaf {span : Span K} {before after : List (K × V)}
    (known : spans node = some span) (fresh : spans right = none)
    (body : (heap node).body = .leaf (before ++ after))
    (leftWritten : (next node).body = .leaf before)
    (rightWritten : (next right).body = .leaf after)
    (same
      : ∀ other span, spans other = some span → other ≠ node
        → (next other).body = (heap other).body)
    (entry : K × V)
    : Stored next (narrowed spans node right separator) entry ↔ Stored heap spans entry := by
  have liveIff := narrowed_live_iff right separator ⟨span, known⟩
  constructor
  · rintro ⟨place, span', entries, live, shape, member⟩
    rcases (liveIff place).mp ⟨span', live⟩ with rfl | ⟨old, oldLive⟩
    · obtain rfl := Body.leaf.inj (rightWritten.symm.trans shape)
      exact ⟨node, span, _, known, body, List.mem_append_right _ member⟩
    · by_cases here : place = node
      · subst here
        obtain rfl := Body.leaf.inj (leftWritten.symm.trans shape)
        exact ⟨place, span, _, known, body, List.mem_append_left _ member⟩
      · exact ⟨place, old, entries, oldLive, (same place old oldLive here) ▸ shape, member⟩
  · rintro ⟨place, span', entries, live, shape, member⟩
    by_cases here : place = node
    · subst here
      obtain rfl := Body.leaf.inj (body.symm.trans shape)
      rcases List.mem_append.mp member with lower | upper
      · obtain ⟨small, newLive⟩ := (liveIff place).mpr (Or.inr ⟨span', live⟩)
        exact ⟨place, small, _, newLive, leftWritten, lower⟩
      · obtain ⟨small, newLive⟩ := (liveIff right).mpr (Or.inl rfl)
        exact ⟨right, small, _, newLive, rightWritten, upper⟩
    · obtain ⟨small, newLive⟩ := (liveIff place).mpr (Or.inr ⟨span', live⟩)
      exact ⟨place, small, entries, newLive, (same place span' live here).trans shape, member⟩

/-- Cutting an inner node in two moves no entries. -/
theorem stored_cutInner (known : ∃ span, spans node = some span)
    (fresh : spans right = none) {keys lowKeys highKeys : List K}
    {children before after : List A}
    (body : (heap node).body = .inner keys children)
    (leftWritten : (next node).body = .inner lowKeys before)
    (rightWritten : (next right).body = .inner highKeys after)
    (same
      : ∀ other span, spans other = some span → other ≠ node
        → (next other).body = (heap other).body)
    (entry : K × V)
    : Stored next (narrowed spans node right separator) entry ↔ Stored heap spans entry := by
  apply stored_congr
  intro place entries
  rw [narrowed_live_iff right separator known]
  by_cases isRight : place = right
  · subst isRight
    simp [rightWritten, fresh]
  · by_cases here : place = node
    · subst here
      simp [leftWritten, body]
    · constructor
      · rintro ⟨live, shape⟩
        obtain ⟨span, live⟩ := live.resolve_left isRight
        exact ⟨⟨span, live⟩, (same place span live here) ▸ shape⟩
      · rintro ⟨⟨span, live⟩, shape⟩
        exact ⟨Or.inr ⟨span, live⟩, (same place span live here).trans shape⟩

/-- Listing a pending half in a parent with room, or in a new root, moves no entries. -/
theorem stored_listed
    (live
      : ∀ place, (∃ span, other place = some span)
        ↔ place = node ∨ ∃ span, spans place = some span)
    {keys : List K} {children : List A}
    (written : (next node).body = .inner keys children)
    (inner : ∀ entries, spans node ≠ none → (heap node).body ≠ .leaf entries)
    (same
      : ∀ place span, spans place = some span → place ≠ node
        → (next place).body = (heap place).body)
    (entry : K × V)
    : Stored next other entry ↔ Stored heap spans entry := by
  apply stored_congr
  intro place entries
  rw [live place]
  by_cases here : place = node
  · subst here
    simp only [written, reduceCtorEq, and_false, false_iff, not_and]
    rintro ⟨span, known⟩
    exact inner entries (by simp [known])
  · constructor
    · rintro ⟨alive, shape⟩
      obtain ⟨span, known⟩ := alive.resolve_left here
      exact ⟨⟨span, known⟩, (same place span known here) ▸ shape⟩
    · rintro ⟨⟨span, known⟩, shape⟩
      exact ⟨Or.inr ⟨span, known⟩, (same place span known here).trans shape⟩

end Cut

section Order

variable [LinearOrder K] {root : A} {top : Nat}

/-- Entries below a live node lie in live leaves, by induction on the height. -/
theorem Tree.stored_of_mem (tree : Tree heap spans root top) {node : A} {span : Span K}
    (live : spans node = some span) {entry : K × V}
    (member : entry ∈ traverse heap span.height node)
    : Stored heap spans entry := by
  obtain ⟨height, low, high⟩ := span
  induction height generalizing node low high with
  | zero =>
      obtain ⟨entries, body, _⟩ := (tree.nodes node _ live).leaf_body
      rw [traverse_leaf body] at member
      exact ⟨node, _, entries, live, body, member⟩
  | succ height ih =>
      obtain ⟨keys, children, body, _, _, chain, _⟩ := (tree.nodes node _ live).inner_body
      rw [traverse_inner body] at member
      obtain ⟨child, lists, inside⟩ := List.mem_flatMap.mp member
      obtain ⟨⟨childHeight, childLow, childHigh⟩, childLive, level⟩ := chain.child_span lists
      simp only at level
      subst level
      exact ih _ _ childLive inside

/-- The traversal of the whole tree lists exactly the stored entries. -/
theorem Tree.mem_traverse_iff (tree : Tree heap spans root top) (entry : K × V)
    : entry ∈ traverse heap top root ↔ Stored heap spans entry := by
  constructor
  · exact fun member => tree.stored_of_mem tree.rootSpan member
  · rintro ⟨node, ⟨height, low, high⟩, entries, live, body, member⟩
    cases height with
    | zero =>
        apply tree.mem_traverse_root live
        simp only [traverse, body]
        exact member
    | succ height =>
        obtain ⟨keys, children, shape, _⟩ := (tree.nodes node _ live).inner_body
        simp [shape] at body

end Order

end SearchTree
