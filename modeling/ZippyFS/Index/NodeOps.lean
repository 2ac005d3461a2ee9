import ZippyFS.Index.BPlusIndex

/-! What the array loops of the index do to the live parts of a node: an insertion inserts
into the lists of live keys, values and children, and a split cuts these lists.
-/

namespace ZippyFS

open CellMemory StructLayout

namespace IndexNode

/-- The live keys, in order. -/
def liveKeys (node : IndexNode) : List Int := (List.range node.numKeys).map node.key

/-- The live values, in order. -/
def liveValues (node : IndexNode) : List Int := (List.range node.numKeys).map node.value

/-- The live children, in order. -/
def liveChildren (node : IndexNode) : List Nat :=
  (List.range (node.numKeys + 1)).map node.child

/-- Keys below the count are live. -/
theorem key_mem_liveKeys {node : IndexNode} {index : Nat} (inside : index < node.numKeys)
    : node.key index ∈ node.liveKeys :=
  List.mem_map.mpr ⟨index, List.mem_range.mpr inside, rfl⟩

@[simp] theorem length_liveKeys (node : IndexNode)
    : node.liveKeys.length = node.numKeys := by
  simp [liveKeys]

@[simp] theorem length_liveValues (node : IndexNode)
    : node.liveValues.length = node.numKeys := by
  simp [liveValues]

@[simp] theorem length_liveChildren (node : IndexNode)
    : node.liveChildren.length = node.numKeys + 1 := by
  simp [liveChildren]

-----------------------------------------------------------------------------------------
-- Single assignments
-----------------------------------------------------------------------------------------

section Assignments

variable (node : IndexNode) (index other : Nat)

theorem key_setKey (key : Int) (inside : index < ORDER - 1)
    : (node.setKey index key).key other = if other = index then key else node.key other := by
  unfold IndexNode.key setKey
  by_cases same : other = index
  · simp [same, inside]
  · by_cases live : other < ORDER - 1
    · simp [live, same, Ne.symm same]
    · simp [live, same]

theorem child_setChild (child : Nat) (inside : index < ORDER)
    : (node.setChild index child).child other
      = if other = index then child else node.child other := by
  unfold IndexNode.child setChild
  by_cases same : other = index
  · simp [same, inside]
  · simp [same, Ne.symm same]

theorem value_setValue (value : Int) (inside : index < ORDER - 1)
    : (node.setValue index value).value other
      = if other = index then value else node.value other := by
  unfold IndexNode.value setValue
  by_cases same : other = index
  · simp [same, inside]
  · simp [same, Ne.symm same]

variable (number : Int) (offset : Nat)

@[simp] theorem setKey_numKeys : (node.setKey index number).numKeys = node.numKeys := rfl
@[simp] theorem setKey_isLeaf : (node.setKey index number).isLeaf = node.isLeaf := rfl
@[simp] theorem setKey_parent : (node.setKey index number).parent = node.parent := rfl
@[simp] theorem setKey_child : (node.setKey index number).child other = node.child other := rfl
@[simp] theorem setKey_value : (node.setKey index number).value other = node.value other := rfl

@[simp] theorem setChild_numKeys : (node.setChild index offset).numKeys = node.numKeys := rfl
@[simp] theorem setChild_isLeaf : (node.setChild index offset).isLeaf = node.isLeaf := rfl
@[simp] theorem setChild_parent : (node.setChild index offset).parent = node.parent := rfl
@[simp] theorem setChild_key : (node.setChild index offset).key other = node.key other := rfl
@[simp] theorem setChild_value : (node.setChild index offset).value other = node.value other := rfl

@[simp] theorem setValue_numKeys : (node.setValue index number).numKeys = node.numKeys := rfl
@[simp] theorem setValue_isLeaf : (node.setValue index number).isLeaf = node.isLeaf := rfl
@[simp] theorem setValue_parent : (node.setValue index number).parent = node.parent := rfl
@[simp] theorem setValue_key : (node.setValue index number).key other = node.key other := rfl
@[simp] theorem setValue_child : (node.setValue index number).child other = node.child other := rfl

@[simp] theorem setNumKeys_numKeys : (node.setNumKeys index).numKeys = index := rfl
@[simp] theorem setNumKeys_isLeaf : (node.setNumKeys index).isLeaf = node.isLeaf := rfl
@[simp] theorem setNumKeys_parent : (node.setNumKeys index).parent = node.parent := rfl
@[simp] theorem setNumKeys_child : (node.setNumKeys index).child other = node.child other := rfl
@[simp] theorem setNumKeys_value : (node.setNumKeys index).value other = node.value other := rfl

end Assignments

/-- Changing the parent, the kind or the count keeps keys inside the array, children and
values.
-/
theorem key_congr {left right : IndexNode} (same : left.keys = right.keys) {index : Nat}
    (inside : index < ORDER - 1)
    : left.key index = right.key index := by
  simp [IndexNode.key, inside, same]

/-- The count of keys is no key inside the array. -/
theorem key_setNumKeys (node : IndexNode) (count : Nat) {index : Nat}
    (inside : index < ORDER - 1)
    : (node.setNumKeys count).key index = node.key index := by
  simp [IndexNode.key, inside, setNumKeys]

-----------------------------------------------------------------------------------------
-- Moving up and inserting
-----------------------------------------------------------------------------------------

/-- The pointwise effect of the move loop, by induction on its steps. -/
theorem moveUp_spec (temp node : IndexNode) (steps ii : Nat)
    (room : ii + steps < ORDER - 1)
    : (∀ j, (moveUp temp steps ii node).key j
        = if ii < j ∧ j ≤ ii + steps then temp.key (j - 1) else node.key j)
      ∧ (∀ j, (moveUp temp steps ii node).value j
        = if ii < j ∧ j ≤ ii + steps then temp.value (j - 1) else node.value j)
      ∧ (∀ j, (moveUp temp steps ii node).child j
        = if ii < j ∧ j ≤ ii + steps + 1 then temp.child (j - 1) else node.child j)
      ∧ (moveUp temp steps ii node).numKeys = node.numKeys
      ∧ (moveUp temp steps ii node).isLeaf = node.isLeaf
      ∧ (moveUp temp steps ii node).parent = node.parent := by
  induction steps generalizing ii node with
  | zero =>
      have inside : ii + 1 < ORDER := by
        unfold ORDER at *
        omega
      refine ⟨?_, ?_, ?_, rfl, rfl, rfl⟩
      · intro j
        rw [if_neg (by omega)]
        rfl
      · intro j
        rw [if_neg (by omega)]
        rfl
      · intro j
        rw [moveUp, child_setChild _ _ _ _ inside]
        by_cases here : j = ii + 1
        · subst here
          rw [if_pos rfl, if_pos (by omega)]
          rfl
        · rw [if_neg here, if_neg (by omega)]
  | succ steps ih =>
      have insideKey : ii + 1 < ORDER - 1 := by omega
      have insideChild : ii + 1 < ORDER := by
        unfold ORDER at *
        omega
      obtain ⟨keys, values, children, count, kind, parent⟩ := ih
        (((node.setKey (ii + 1) (temp.key ii)).setChild (ii + 1) (temp.child ii)).setValue
          (ii + 1) (temp.value ii)) (ii + 1) (by omega)
      refine ⟨?_, ?_, ?_, count, kind, parent⟩
      · intro j
        rw [moveUp, keys]
        simp only [setValue_key, setChild_key]
        rw [key_setKey _ _ _ _ insideKey]
        by_cases here : j = ii + 1
        · subst here
          simp
        · rw [if_neg here]
          split_ifs <;> first | rfl | omega
      · intro j
        rw [moveUp, values, value_setValue _ _ _ _ insideKey]
        simp only [setChild_value, setKey_value]
        by_cases here : j = ii + 1
        · subst here
          simp
        · rw [if_neg here]
          split_ifs <;> first | rfl | omega
      · intro j
        rw [moveUp, children]
        simp only [setValue_child]
        rw [child_setChild _ _ _ _ insideChild]
        simp only [setKey_child]
        by_cases here : j = ii + 1
        · subst here
          simp
        · rw [if_neg here]
          split_ifs <;> first | rfl | omega

/-- Reading a table with one new place behind `position` gives the old list with the new
element inserted there.
-/
theorem map_range_insert {α : Type} (table : Nat → α) (element : α) {count position : Nat}
    (inside : position ≤ count)
    : (List.range (count + 1)).map
          (fun j => if j = position then element
            else if position < j then table (j - 1) else table j)
      = ((List.range count).map table).take position
        ++ element :: ((List.range count).map table).drop position := by
  apply List.ext_getElem?
  intro j
  have size : (((List.range count).map table).take position).length = position := by
    simp [inside]
  rcases Nat.lt_trichotomy j position with before | here | after
  · rw [List.getElem?_append_left (by omega)]
    have below : j < count := by omega
    simp [before, below, show j < count + 1 by omega,
      show ¬ j = position by omega, show ¬ position < j by omega]
  · subst here
    rw [List.getElem?_append_right (by omega), size]
    simp [show j < count + 1 by omega]
  · rw [List.getElem?_append_right (by omega), size]
    obtain ⟨gap, rfl⟩ : ∃ gap, j = position + gap + 1 := ⟨j - position - 1, by omega⟩
    rw [show position + gap + 1 - position = gap + 1 by omega, List.getElem?_cons_succ,
      List.getElem?_drop]
    by_cases live : position + gap < count
    · simp [live, show position + gap + 1 < count + 1 by omega,
        show ¬ position + gap + 1 = position by omega,
        show position < position + gap + 1 by omega]
    · simp [live, show ¬ position + gap + 1 < count + 1 by omega]

/-- Where `insert_into_node` puts a new key. -/
def positionOf (mem : Mem) (node : IndexNode) (k : Int) : Nat :=
  (insertPosition mem node k).getD node.numKeys

theorem positionOf_le (mem : Mem) (node : IndexNode) (k : Int)
    : positionOf mem node k ≤ node.numKeys := by
  unfold positionOf
  cases found : insertPosition mem node k with
  | none => exact le_refl _
  | some position =>
      have member := List.mem_of_find?_eq_some found
      exact le_of_lt (List.mem_range.mp member)

/-- The members that every insertion into a node with room leaves or sets alike. -/
theorem insertIntoCopy_members (mem : Mem) (node : IndexNode) (k v child : Int)
    (isleft : Bool) (room : node.numKeys < ORDER - 1)
    : (insertIntoCopy mem node k v isleft child).2.numKeys = node.numKeys + 1
      ∧ (insertIntoCopy mem node k v isleft child).2.isLeaf = node.isLeaf
      ∧ (insertIntoCopy mem node k v isleft child).2.parent = node.parent := by
  have kept : ∀ position, position ≤ node.numKeys →
      (moveUp node (node.numKeys - position) position node).numKeys = node.numKeys
      ∧ (moveUp node (node.numKeys - position) position node).isLeaf = node.isLeaf
      ∧ (moveUp node (node.numKeys - position) position node).parent = node.parent := by
    intro position inside
    exact (moveUp_spec node node _ position (by omega)).2.2.2
  have inside := positionOf_le mem node k
  unfold positionOf at inside
  unfold insertIntoCopy
  cases found : insertPosition mem node k with
  | none =>
      cases kind : node.isLeaf <;> simp [kind]
  | some position =>
      simp only [found, Option.getD_some] at inside
      obtain ⟨count, leaf, parent⟩ := kept position inside
      cases kind : node.isLeaf <;> simp [leaf, kind, count, parent]

/-- An insertion inserts the new key at its position among the live keys. -/
theorem insertIntoCopy_liveKeys (mem : Mem) (node : IndexNode) (k v child : Int)
    (isleft : Bool) (room : node.numKeys < ORDER - 1)
    : (insertIntoCopy mem node k v isleft child).2.liveKeys
      = node.liveKeys.take (positionOf mem node k)
        ++ k :: node.liveKeys.drop (positionOf mem node k) := by
  have inside := positionOf_le mem node k
  have pointwise : ∀ j < node.numKeys + 1,
      (insertIntoCopy mem node k v isleft child).2.key j
      = if j = positionOf mem node k then k
        else if positionOf mem node k < j then node.key (j - 1) else node.key j := by
    intro j live
    unfold positionOf at inside ⊢
    unfold insertIntoCopy
    cases found : insertPosition mem node k with
    | none =>
        have keys : ∀ n : IndexNode, n.keys = (node.setKey node.numKeys k).keys
            → n.key j = if j = node.numKeys then k else node.key j := by
          intro n same
          rw [key_congr same (by omega), key_setKey _ _ _ _ room]
        have skip : ¬ node.numKeys < j := by omega
        simp only [Option.getD_none, skip, if_false]
        cases kind : node.isLeaf <;> simp [kind] <;> exact keys _ rfl
    | some position =>
        simp only [found, Option.getD_some] at inside ⊢
        obtain ⟨moved, _, _, count, leaf, _⟩ :=
          moveUp_spec node node (node.numKeys - position) position (by omega)
        have keys : ∀ n : IndexNode,
            n.keys = ((moveUp node (node.numKeys - position) position node).setKey position
              k).keys
            → n.key j = if j = position then k
              else if position < j then node.key (j - 1) else node.key j := by
          intro n same
          rw [key_congr same (by omega), key_setKey _ _ _ _ (by omega), moved]
          split_ifs <;> first | rfl | omega
        cases kind : node.isLeaf <;> simp [leaf, kind] <;> exact keys _ rfl
  have count := (insertIntoCopy_members mem node k v child isleft room).1
  unfold liveKeys
  rw [count, ← map_range_insert node.key k inside]
  apply List.map_congr_left
  intro j member
  exact pointwise j (List.mem_range.mp member)

/-- An insertion into a leaf inserts the value beside its key. -/
theorem insertIntoCopy_liveValues (mem : Mem) (node : IndexNode) (k v child : Int)
    (isleft : Bool) (room : node.numKeys < ORDER - 1) (leaf : node.isLeaf = true)
    : (insertIntoCopy mem node k v isleft child).2.liveValues
      = node.liveValues.take (positionOf mem node k)
        ++ v :: node.liveValues.drop (positionOf mem node k) := by
  have inside := positionOf_le mem node k
  have pointwise : ∀ j < node.numKeys + 1,
      (insertIntoCopy mem node k v isleft child).2.value j
      = if j = positionOf mem node k then v
        else if positionOf mem node k < j then node.value (j - 1) else node.value j := by
    intro j live
    unfold positionOf at inside ⊢
    unfold insertIntoCopy
    cases found : insertPosition mem node k with
    | none =>
        have skip : ¬ node.numKeys < j := by omega
        simp [leaf, value_setValue _ _ _ _ room, skip]
    | some position =>
        simp only [found, Option.getD_some] at inside ⊢
        obtain ⟨_, moved, _, count, kind, _⟩ :=
          moveUp_spec node node (node.numKeys - position) position (by omega)
        simp only [setNumKeys_isLeaf, setKey_isLeaf, kind, leaf, if_true]
        rw [value_setValue _ _ _ _ (by omega)]
        have same : ∀ n : IndexNode,
            n.values = (moveUp node (node.numKeys - position) position node).values
            → n.value j = if position < j then node.value (j - 1) else node.value j := by
          intro n equal
          have agree : n.value j
              = (moveUp node (node.numKeys - position) position node).value j := by
            simp [IndexNode.value, equal]
          rw [agree, moved]
          split_ifs <;> first | rfl | omega
        by_cases here : j = position
        · simp [here]
        · rw [if_neg here, if_neg here]
          exact same _ rfl
  have count := (insertIntoCopy_members mem node k v child isleft room).1
  unfold liveValues
  rw [count, ← map_range_insert node.value v inside]
  apply List.map_congr_left
  intro j member
  exact pointwise j (List.mem_range.mp member)

/-- An insertion into an inner node inserts the child right behind the new key. -/
theorem insertIntoCopy_liveChildren (mem : Mem) (node : IndexNode) (k v child : Int)
    (room : node.numKeys < ORDER - 1) (inner : node.isLeaf = false)
    : (insertIntoCopy mem node k v false child).2.liveChildren
      = node.liveChildren.take (positionOf mem node k + 1)
        ++ child.toNat :: node.liveChildren.drop (positionOf mem node k + 1) := by
  have inside := positionOf_le mem node k
  have pointwise : ∀ j < node.numKeys + 1 + 1,
      (insertIntoCopy mem node k v false child).2.child j
      = if j = positionOf mem node k + 1 then child.toNat
        else if positionOf mem node k + 1 < j then node.child (j - 1) else node.child j := by
    intro j live
    have within : ∀ position ≤ node.numKeys, position + 1 < ORDER := by
      intro position bound
      unfold ORDER at *
      omega
    unfold positionOf at inside ⊢
    unfold insertIntoCopy
    cases found : insertPosition mem node k with
    | none =>
        have skip : ¬ node.numKeys + 1 < j := by omega
        simp [inner, child_setChild _ _ _ _ (within _ (le_refl _)), skip]
    | some position =>
        simp only [found, Option.getD_some] at inside ⊢
        obtain ⟨_, _, moved, count, kind, _⟩ :=
          moveUp_spec node node (node.numKeys - position) position (by omega)
        simp only [setNumKeys_isLeaf, setKey_isLeaf, kind, inner, Bool.not_false, if_true]
        simp only [Bool.false_eq_true, if_false]
        rw [child_setChild _ _ _ _ (within position inside)]
        have same : ∀ n : IndexNode,
            n.children = (moveUp node (node.numKeys - position) position node).children
            → n.child j = if position < j then node.child (j - 1) else node.child j := by
          intro n equal
          have agree : n.child j
              = (moveUp node (node.numKeys - position) position node).child j := by
            simp [IndexNode.child, equal]
          rw [agree, moved]
          split_ifs <;> first | rfl | omega
        by_cases here : j = position + 1
        · simp [here]
        · rw [if_neg here, if_neg here]
          refine (same _ rfl).trans ?_
          split_ifs <;> first | rfl | omega
  have count := (insertIntoCopy_members mem node k v child false room).1
  unfold liveChildren
  rw [count, ← map_range_insert node.child child.toNat (by omega)]
  apply List.map_congr_left
  intro j member
  exact pointwise j (List.mem_range.mp member)

-----------------------------------------------------------------------------------------
-- Splitting
-----------------------------------------------------------------------------------------

/-- The pointwise effect of the leaf loop, by induction on its steps. -/
theorem moveLeafHalf_spec (steps ii curIdx : Nat) (nnode right : IndexNode)
    (source : ii + steps ≤ ORDER - 1) (target : curIdx + steps ≤ ORDER - 1)
    : (∀ j < curIdx, (moveLeafHalf steps ii curIdx nnode right).2.key j = right.key j)
      ∧ (∀ j < curIdx, (moveLeafHalf steps ii curIdx nnode right).2.value j = right.value j)
      ∧ (∀ j < steps,
        (moveLeafHalf steps ii curIdx nnode right).2.key (curIdx + j) = nnode.key (ii + j))
      ∧ (∀ j < steps,
        (moveLeafHalf steps ii curIdx nnode right).2.value (curIdx + j)
          = nnode.value (ii + j))
      ∧ (moveLeafHalf steps ii curIdx nnode right).2.numKeys = right.numKeys + steps
      ∧ (moveLeafHalf steps ii curIdx nnode right).2.isLeaf = right.isLeaf
      ∧ (∀ j < ii, (moveLeafHalf steps ii curIdx nnode right).1.key j = nnode.key j)
      ∧ (moveLeafHalf steps ii curIdx nnode right).1.values = nnode.values
      ∧ (moveLeafHalf steps ii curIdx nnode right).1.isLeaf = nnode.isLeaf
      ∧ (moveLeafHalf steps ii curIdx nnode right).1.parent = nnode.parent := by
  induction steps generalizing ii curIdx nnode right with
  | zero => simp [moveLeafHalf]
  | succ steps ih =>
      have inKey : curIdx < ORDER - 1 := by omega
      have outKey : ii < ORDER - 1 := by omega
      have inChild : curIdx < ORDER := by
        unfold ORDER at *
        omega
      obtain ⟨keys, values, moved, movedValues, count, kind, left, leftValues, leftKind,
        parent⟩ := ih (ii + 1) (curIdx + 1) (nnode.setKey ii (-1))
          ((((right.setNumKeys (right.numKeys + 1)).setKey curIdx
            (nnode.key ii)).setChild curIdx (nnode.child ii)).setValue curIdx
              (nnode.value ii)) (by omega) (by omega)
      refine ⟨?_, ?_, ?_, ?_, ?_, kind, ?_, leftValues, leftKind, parent⟩
      · intro j before
        rw [moveLeafHalf, keys j (by omega)]
        simp only [setValue_key, setChild_key]
        rw [key_setKey _ _ _ _ inKey, if_neg (by omega),
          key_setNumKeys _ _ (by omega)]
      · intro j before
        rw [moveLeafHalf, values j (by omega), value_setValue _ _ _ _ inKey,
          if_neg (by omega)]
        rfl
      · intro j inside
        rw [moveLeafHalf]
        cases j with
        | zero =>
            rw [keys (curIdx + 0) (by omega)]
            simp only [setValue_key, setChild_key]
            rw [key_setKey _ _ _ _ inKey, if_pos (by omega)]
            rfl
        | succ j =>
            have next := moved j (by omega)
            rw [key_setKey _ _ _ _ outKey, if_neg (by omega)] at next
            rw [show curIdx + (j + 1) = curIdx + 1 + j by omega,
              show ii + (j + 1) = ii + 1 + j by omega]
            exact next
      · intro j inside
        rw [moveLeafHalf]
        cases j with
        | zero =>
            rw [values (curIdx + 0) (by omega), value_setValue _ _ _ _ inKey,
              if_pos (by omega)]
            rfl
        | succ j =>
            rw [show curIdx + (j + 1) = curIdx + 1 + j by omega,
              show ii + (j + 1) = ii + 1 + j by omega]
            exact movedValues j (by omega)
      · rw [moveLeafHalf, count]
        simp only [setValue_numKeys, setChild_numKeys, setKey_numKeys, setNumKeys_numKeys]
        omega
      · intro j before
        rw [moveLeafHalf, left j (by omega), key_setKey _ _ _ _ outKey, if_neg (by omega)]

/-- The pointwise effect of the inner loop on both halves, by induction on its steps. -/
theorem moveInnerHalf_spec (rightOffset steps ii curIdx : Nat) (nnode right : IndexNode)
    (mem : Mem) (source : ii + steps ≤ ORDER - 1) (target : curIdx + steps ≤ ORDER - 1)
    : (∀ j < curIdx,
        (moveInnerHalf rightOffset steps ii curIdx nnode right mem).2.1.key j = right.key j)
      ∧ (∀ j < curIdx,
        (moveInnerHalf rightOffset steps ii curIdx nnode right mem).2.1.child j
          = right.child j)
      ∧ (∀ j < steps,
        (moveInnerHalf rightOffset steps ii curIdx nnode right mem).2.1.key (curIdx + j)
          = nnode.key (ii + j))
      ∧ (∀ j < steps,
        (moveInnerHalf rightOffset steps ii curIdx nnode right mem).2.1.child (curIdx + j)
          = nnode.child (ii + j))
      ∧ (moveInnerHalf rightOffset steps ii curIdx nnode right mem).2.1.numKeys
          = right.numKeys + steps
      ∧ (∀ j < ii,
        (moveInnerHalf rightOffset steps ii curIdx nnode right mem).1.key j = nnode.key j)
      ∧ (moveInnerHalf rightOffset steps ii curIdx nnode right mem).1.children
          = nnode.children
      ∧ (moveInnerHalf rightOffset steps ii curIdx nnode right mem).1.numKeys
          = nnode.numKeys - steps
      ∧ (moveInnerHalf rightOffset steps ii curIdx nnode right mem).1.isLeaf = nnode.isLeaf
      ∧ (moveInnerHalf rightOffset steps ii curIdx nnode right mem).1.parent = nnode.parent
      ∧ (moveInnerHalf rightOffset steps ii curIdx nnode right mem).2.2
          = ((List.range' ii steps).map nnode.child).foldl
            (fun bytes child => setParent bytes child rightOffset) mem := by
  induction steps generalizing ii curIdx nnode right mem with
  | zero => simp [moveInnerHalf]
  | succ steps ih =>
      have inKey : curIdx < ORDER - 1 := by omega
      have outKey : ii < ORDER - 1 := by omega
      have inChild : curIdx < ORDER := by
        unfold ORDER at *
        omega
      obtain ⟨keys, children, moved, movedChildren, count, left, leftChildren, leftCount,
        leftKind, parent, bytes⟩ := ih (ii + 1) (curIdx + 1)
          ((nnode.setKey ii (-1)).setNumKeys (nnode.numKeys - 1))
          (((right.setNumKeys (right.numKeys + 1)).setKey curIdx
            (nnode.key ii)).setChild curIdx (nnode.child ii))
          (setParent mem (nnode.child ii) rightOffset) (by omega) (by omega)
      refine ⟨?_, ?_, ?_, ?_, ?_, ?_, leftChildren, ?_, leftKind, parent, ?_⟩
      · intro j before
        rw [moveInnerHalf, keys j (by omega)]
        simp only [setChild_key]
        rw [key_setKey _ _ _ _ inKey, if_neg (by omega),
          key_setNumKeys _ _ (by omega)]
      · intro j before
        rw [moveInnerHalf, children j (by omega), child_setChild _ _ _ _ inChild,
          if_neg (by omega)]
        rfl
      · intro j inside
        rw [moveInnerHalf]
        cases j with
        | zero =>
            rw [keys (curIdx + 0) (by omega)]
            simp only [setChild_key]
            rw [key_setKey _ _ _ _ inKey, if_pos (by omega)]
            rfl
        | succ j =>
            have next := moved j (by omega)
            rw [key_setNumKeys _ _ (by omega),
              key_setKey _ _ _ _ outKey, if_neg (by omega)] at next
            rw [show curIdx + (j + 1) = curIdx + 1 + j by omega,
              show ii + (j + 1) = ii + 1 + j by omega]
            exact next
      · intro j inside
        rw [moveInnerHalf]
        cases j with
        | zero =>
            rw [children (curIdx + 0) (by omega), child_setChild _ _ _ _ inChild,
              if_pos (by omega)]
            rfl
        | succ j =>
            rw [show curIdx + (j + 1) = curIdx + 1 + j by omega,
              show ii + (j + 1) = ii + 1 + j by omega]
            exact movedChildren j (by omega)
      · rw [moveInnerHalf, count]
        simp only [setChild_numKeys, setKey_numKeys, setNumKeys_numKeys]
        omega
      · intro j before
        rw [moveInnerHalf, left j (by omega),
          key_setNumKeys _ _ (by omega),
          key_setKey _ _ _ _ outKey, if_neg (by omega)]
      · rw [moveInnerHalf, leftCount, setNumKeys_numKeys]
        omega
      · rw [moveInnerHalf, bytes, List.range'_succ, List.map_cons, List.foldl_cons]
        rfl

/-- The first places of a table. -/
theorem map_range_take {α : Type} (table : Nat → α) {count cut : Nat} (inside : cut ≤ count)
    : ((List.range count).map table).take cut = (List.range cut).map table := by
  rw [← List.map_take, List.take_range, min_eq_left inside]

/-- The places of a table from a cut on. -/
theorem map_range_drop {α : Type} (table : Nat → α) (cut rest : Nat)
    : ((List.range (cut + rest)).map table).drop cut
      = (List.range rest).map (fun j => table (cut + j)) := by
  apply List.ext_getElem?
  intro j
  rw [List.getElem?_drop]
  by_cases inside : j < rest
  · simp [inside]
  · simp [inside]

/-- A full leaf is cut before its median. -/
theorem moveLeafHalf_live (nnode right : IndexNode) (full : nnode.numKeys = ORDER - 1)
    (fresh : right.numKeys = 0)
    : let halves := moveLeafHalf (ORDER - 1 - medIdx) medIdx 0 nnode right
      (halves.1.setNumKeys medIdx).liveKeys = nnode.liveKeys.take medIdx
      ∧ (halves.1.setNumKeys medIdx).liveValues = nnode.liveValues.take medIdx
      ∧ halves.2.liveKeys = nnode.liveKeys.drop medIdx
      ∧ halves.2.liveValues = nnode.liveValues.drop medIdx
      ∧ halves.2.numKeys = ORDER - 1 - medIdx := by
  obtain ⟨_, _, moved, movedValues, count, _, left, leftValues, _, _⟩ :=
    moveLeafHalf_spec (ORDER - 1 - medIdx) medIdx 0 nnode right (by decide) (by decide)
  have size : nnode.numKeys = medIdx + (ORDER - 1 - medIdx) := full.trans (by decide)
  have rightSize : (moveLeafHalf (ORDER - 1 - medIdx) medIdx 0 nnode right).2.numKeys
      = ORDER - 1 - medIdx := by rw [count, fresh, Nat.zero_add]
  refine ⟨?_, ?_, ?_, ?_, rightSize⟩
  · unfold liveKeys
    rw [map_range_take _ (by omega)]
    apply List.map_congr_left
    intro j member
    have inside := List.mem_range.mp member
    simp only [setNumKeys_numKeys] at inside
    rw [key_setNumKeys _ _ (inside.trans (by decide)), left j inside]
  · unfold liveValues
    rw [map_range_take _ (by omega)]
    apply List.map_congr_left
    intro j _
    simp [IndexNode.value, setNumKeys, leftValues]
  · unfold liveKeys
    rw [size, map_range_drop, rightSize]
    apply List.map_congr_left
    intro j member
    have inside := List.mem_range.mp member
    simpa using moved j inside
  · unfold liveValues
    rw [size, map_range_drop, rightSize]
    apply List.map_congr_left
    intro j member
    have inside := List.mem_range.mp member
    simpa using movedValues j inside

/-- The halves of a split inner node, before the carried-up key enters one of them. -/
def innerHalves (rightOffset : Nat) (nnode right : IndexNode) (mem : Mem)
    : IndexNode × IndexNode :=
  let steps := ORDER - 1 - (medIdx + 1)
  let halves := moveInnerHalf rightOffset steps (medIdx + 1) 0 nnode right mem
  ((halves.1.setKey medIdx (-1)).setNumKeys (halves.1.numKeys - 1),
    { halves.2.1.setChild steps (halves.1.child (ORDER - 1)) with isLeaf := false })

/-- A full inner node is cut around its median, which stays in neither half. -/
theorem innerHalves_live (rightOffset : Nat) (nnode right : IndexNode) (mem : Mem)
    (full : nnode.numKeys = ORDER - 1) (fresh : right.numKeys = 0)
    : let halves := innerHalves rightOffset nnode right mem
      halves.1.liveKeys = nnode.liveKeys.take medIdx
      ∧ halves.1.liveChildren = nnode.liveChildren.take (medIdx + 1)
      ∧ halves.2.liveKeys = nnode.liveKeys.drop (medIdx + 1)
      ∧ halves.2.liveChildren = nnode.liveChildren.drop (medIdx + 1)
      ∧ halves.1.numKeys = medIdx
      ∧ halves.2.numKeys = ORDER - 1 - (medIdx + 1)
      ∧ halves.1.isLeaf = nnode.isLeaf
      ∧ halves.2.isLeaf = false
      ∧ halves.1.parent = nnode.parent := by
  have spec := moveInnerHalf_spec rightOffset (ORDER - 1 - (medIdx + 1)) (medIdx + 1) 0 nnode
    right mem (by decide) (by decide)
  unfold innerHalves
  dsimp only
  generalize moveInnerHalf rightOffset (ORDER - 1 - (medIdx + 1)) (medIdx + 1) 0 nnode right
    mem = halves at spec ⊢
  obtain ⟨_, _, moved, movedChildren, count, left, leftChildren, leftCount, leaf, parent, _⟩ :=
    spec
  rw [fresh, Nat.zero_add] at count
  have leftSize : halves.1.numKeys - 1 = medIdx := by
    rw [leftCount, full]
    decide
  have size : nnode.numKeys = medIdx + 1 + (ORDER - 1 - (medIdx + 1)) := full.trans (by decide)
  refine ⟨?_, ?_, ?_, ?_, leftSize, count, leaf, rfl, parent⟩
  · unfold liveKeys
    rw [map_range_take _ (by omega), setNumKeys_numKeys, leftSize]
    apply List.map_congr_left
    intro j member
    have inside := List.mem_range.mp member
    rw [key_setNumKeys _ _ (inside.trans (by decide)), key_setKey _ _ _ _ (by decide),
      if_neg (by omega), left j (by omega)]
  · unfold liveChildren
    rw [map_range_take _ (by omega), setNumKeys_numKeys, leftSize]
    apply List.map_congr_left
    intro j _
    simp [IndexNode.child, setKey, setNumKeys, leftChildren]
  · unfold liveKeys
    rw [size, map_range_drop]
    simp only [setChild_numKeys, count]
    apply List.map_congr_left
    intro j member
    have inside := List.mem_range.mp member
    have here := moved j inside
    rw [Nat.zero_add] at here
    rw [← here]
    have smaller : ORDER - 1 - (medIdx + 1) < ORDER - 1 := by decide
    simp [IndexNode.key, setChild, inside.trans smaller]
  · unfold liveChildren
    rw [size, Nat.add_assoc, map_range_drop]
    simp only [setChild_numKeys, count]
    apply List.map_congr_left
    intro j member
    have inside := List.mem_range.mp member
    have step := child_setChild halves.2.1 (ORDER - 1 - (medIdx + 1)) j
      (halves.1.child (ORDER - 1)) (by decide)
    refine step.trans ?_
    split_ifs with last
    · rw [last]
      simp [IndexNode.child, leftChildren, ORDER, medIdx]
    · have here := movedChildren j (by omega)
      rwa [Nat.zero_add] at here

end IndexNode

end ZippyFS
