import ZippyFS.Index.NodeTable

/-! What a split of a full node leaves in memory: both halves, one of them with the new key,
the moved children under their new parent, and everything else as it was.
-/

namespace ZippyFS

open CellMemory StructLayout

section Split

variable {base : Nat}

/-- A node store followed by another: each place shows what was stored there last. -/
theorem load_store_pair (room : 608 ≤ base) {first second other : Nat}
    (placeFirst : NodePlace base first) (placeSecond : NodePlace base second)
    (placeOther : NodePlace base other) (distinct : second ≠ first) (mem : Mem)
    (one two : IndexNode)
    : nodeLayout.load (nodeLayout.store (nodeLayout.store mem first one) second two) other
      = if other = second then two else if other = first then one
        else nodeLayout.load mem other := by
  by_cases isSecond : other = second
  · subst isSecond
    simp
  · rw [load_store_other room placeSecond placeOther isSecond, if_neg isSecond]
    by_cases isFirst : other = first
    · subst isFirst
      simp
    · rw [load_store_other room placeFirst placeOther isFirst, if_neg isFirst]

/-- The halves of a split leaf, before the new pair enters one of them. -/
def leafHalves (mem : Mem) (nodeoffset rightOffset : Nat) : IndexNode × IndexNode :=
  let right := { nodeLayout.load mem rightOffset with isLeaf := true }
  let halves := moveLeafHalf (ORDER - 1 - medIdx) medIdx 0 (nodeLayout.load mem nodeoffset) right
  (halves.1.setNumKeys medIdx, halves.2)

/-- What a split leaf leaves in memory. -/
theorem splitLeafNode_loads (room : 608 ≤ base) {nodeoffset rightOffset : Nat}
    (placeLeft : NodePlace base nodeoffset) (placeRight : NodePlace base rightOffset)
    (distinct : rightOffset ≠ nodeoffset) (mem : Mem) (k v : Int) (leftofmed : Bool)
    : ∃ middle,
        SameRecords base mem middle
        ∧ SameRecords base mem (splitLeafNode mem nodeoffset rightOffset k v leftofmed)
        ∧ nodeLayout.load (splitLeafNode mem nodeoffset rightOffset k v leftofmed) nodeoffset
          = (if leftofmed then
              (insertIntoCopy middle (leafHalves mem nodeoffset rightOffset).1 k v false (-1)).2
            else (leafHalves mem nodeoffset rightOffset).1)
        ∧ nodeLayout.load (splitLeafNode mem nodeoffset rightOffset k v leftofmed) rightOffset
          = (if leftofmed then (leafHalves mem nodeoffset rightOffset).2
            else
              (insertIntoCopy middle (leafHalves mem nodeoffset rightOffset).2 k v false
                (-1)).2)
        ∧ ∀ other, NodePlace base other → other ≠ nodeoffset → other ≠ rightOffset
          → nodeLayout.load (splitLeafNode mem nodeoffset rightOffset k v leftofmed) other
            = nodeLayout.load mem other := by
  have shape : splitLeafNode mem nodeoffset rightOffset k v leftofmed
      = if leftofmed then
          (insertIntoNode (nodeLayout.store (nodeLayout.store mem nodeoffset
            (leafHalves mem nodeoffset rightOffset).1) rightOffset
            (leafHalves mem nodeoffset rightOffset).2) nodeoffset k v false (-1)).2
        else
          (insertIntoNode (nodeLayout.store (nodeLayout.store mem nodeoffset
            (leafHalves mem nodeoffset rightOffset).1) rightOffset
            (leafHalves mem nodeoffset rightOffset).2) rightOffset k v false (-1)).2 := rfl
  rw [shape]
  generalize leafHalves mem nodeoffset rightOffset = halves
  have loads := fun other (place : NodePlace base other) =>
    load_store_pair room placeLeft placeRight place distinct mem halves.1 halves.2
  have leftLoad := loads nodeoffset placeLeft
  have rightLoad := loads rightOffset placeRight
  rw [if_neg (Ne.symm distinct), if_pos rfl] at leftLoad
  rw [if_pos rfl] at rightLoad
  have kept : SameRecords base mem
      (nodeLayout.store (nodeLayout.store mem nodeoffset halves.1) rightOffset halves.2) :=
    (SameRecords.store room placeLeft mem _).trans (SameRecords.store room placeRight _ _)
  refine ⟨nodeLayout.store (nodeLayout.store mem nodeoffset halves.1) rightOffset halves.2,
    kept, ?_⟩
  generalize nodeLayout.store (nodeLayout.store mem nodeoffset halves.1) rightOffset halves.2
    = middle at *
  cases leftofmed with
  | true =>
      simp only [if_true, insertIntoNode, leftLoad]
      refine ⟨kept.trans (SameRecords.store room placeLeft _ _), by simp, ?_, ?_⟩
      · rw [load_store_other room placeLeft placeRight distinct, rightLoad]
      · intro other place notLeft notRight
        rw [load_store_other room placeLeft place notLeft, loads other place,
          if_neg notRight, if_neg notLeft]
  | false =>
      simp only [Bool.false_eq_true, if_false, insertIntoNode, rightLoad]
      refine ⟨kept.trans (SameRecords.store room placeRight _ _), ?_, by simp, ?_⟩
      · rw [load_store_other room placeRight placeLeft (Ne.symm distinct), leftLoad]
      · intro other place notLeft notRight
        rw [load_store_other room placeRight place notRight, loads other place,
          if_neg notRight, if_neg notLeft]

/-- The halves of a split inner node that lies in memory. -/
def innerHalvesAt (mem : Mem) (nodeoffset rightOffset : Nat) : IndexNode × IndexNode :=
  IndexNode.innerHalves rightOffset (nodeLayout.load mem nodeoffset)
    { nodeLayout.load mem rightOffset with isLeaf := true } mem

/-- The memory in which the children moved by a split have their new parent. -/
def movedChildren (mem : Mem) (nodeoffset rightOffset : Nat) : Mem :=
  ((nodeLayout.load mem nodeoffset).liveChildren.drop (medIdx + 1)).foldl
    (fun bytes child => setParent bytes child rightOffset) mem

/-- A split inner node in terms of its halves and its moved children. -/
theorem splitInnerNode_eq (mem : Mem) (nodeoffset rightOffset : Nat) (k v : Int)
    (leftofmed : Bool) (targetOffset : Nat)
    (full : (nodeLayout.load mem nodeoffset).numKeys = ORDER - 1)
    : splitInnerNode mem nodeoffset rightOffset k v leftofmed targetOffset
      = let middle := nodeLayout.store (nodeLayout.store
          (movedChildren mem nodeoffset rightOffset) nodeoffset
          (innerHalvesAt mem nodeoffset rightOffset).1) rightOffset
          (innerHalvesAt mem nodeoffset rightOffset).2
        if leftofmed then
          setParent (insertIntoNode middle nodeoffset k v false targetOffset).2 targetOffset
            nodeoffset
        else
          setParent (insertIntoNode middle rightOffset k v false targetOffset).2 targetOffset
            rightOffset := by
  have spec := IndexNode.moveInnerHalf_spec rightOffset (ORDER - 1 - (medIdx + 1)) (medIdx + 1)
    0 (nodeLayout.load mem nodeoffset) { nodeLayout.load mem rightOffset with isLeaf := true }
    mem (by decide) (by decide)
  unfold splitInnerNode innerHalvesAt IndexNode.innerHalves
  dsimp only
  generalize moveInnerHalf rightOffset (ORDER - 1 - (medIdx + 1)) (medIdx + 1) 0
    (nodeLayout.load mem nodeoffset) { nodeLayout.load mem rightOffset with isLeaf := true }
    mem = halves at spec ⊢
  obtain ⟨_, _, _, _, _, _, children, _, _, _, bytes⟩ := spec
  have lastChild : halves.1.child (ORDER - 1)
      = (nodeLayout.load mem nodeoffset).child (ORDER - 1) := by
    simp [IndexNode.child, children]
  -- The loop moves all but the last of the upper children.
  have moved : movedChildren mem nodeoffset rightOffset
      = setParent halves.2.2 (halves.1.child (ORDER - 1)) rightOffset := by
    have upper : (nodeLayout.load mem nodeoffset).liveChildren.drop (medIdx + 1)
        = (List.range' (medIdx + 1) (ORDER - 1 - (medIdx + 1))).map
            (nodeLayout.load mem nodeoffset).child
          ++ [(nodeLayout.load mem nodeoffset).child (ORDER - 1)] := by
      unfold IndexNode.liveChildren
      rw [full, ← List.map_drop, List.range_eq_range', List.drop_range', ← List.map_singleton,
        ← List.map_append]
      rfl
    rw [movedChildren, upper, List.foldl_append, ← bytes, lastChild]
    rfl
  rw [moved]

/-- What a split inner node leaves in memory. -/
theorem splitInnerNode_loads (room : 608 ≤ base) {nodeoffset rightOffset targetOffset : Nat}
    (placeLeft : NodePlace base nodeoffset) (placeRight : NodePlace base rightOffset)
    (placeTarget : NodePlace base targetOffset) (distinct : rightOffset ≠ nodeoffset)
    (targetLeft : targetOffset ≠ nodeoffset) (targetRight : targetOffset ≠ rightOffset)
    (mem : Mem) (k v : Int) (leftofmed : Bool)
    (full : (nodeLayout.load mem nodeoffset).numKeys = ORDER - 1)
    (places
      : ∀ child ∈ (nodeLayout.load mem nodeoffset).liveChildren, NodePlace base child)
    : ∃ middle,
        SameRecords base mem middle
        ∧ SameRecords base mem
          (splitInnerNode mem nodeoffset rightOffset k v leftofmed targetOffset)
        ∧ nodeLayout.load
            (splitInnerNode mem nodeoffset rightOffset k v leftofmed targetOffset) nodeoffset
          = (if leftofmed then
              (insertIntoCopy middle (innerHalvesAt mem nodeoffset rightOffset).1 k v false
                targetOffset).2
            else (innerHalvesAt mem nodeoffset rightOffset).1)
        ∧ nodeLayout.load
            (splitInnerNode mem nodeoffset rightOffset k v leftofmed targetOffset) rightOffset
          = (if leftofmed then (innerHalvesAt mem nodeoffset rightOffset).2
            else
              (insertIntoCopy middle (innerHalvesAt mem nodeoffset rightOffset).2 k v false
                targetOffset).2)
        ∧ (∃ parent, nodeLayout.load
            (splitInnerNode mem nodeoffset rightOffset k v leftofmed targetOffset) targetOffset
          = { nodeLayout.load mem targetOffset with parent := parent }
            ∧ parent = ((if leftofmed then nodeoffset else rightOffset : Nat) : Int))
        ∧ ∀ other, NodePlace base other → other ≠ nodeoffset → other ≠ rightOffset
          → other ≠ targetOffset
          → nodeLayout.load
              (splitInnerNode mem nodeoffset rightOffset k v leftofmed targetOffset) other
            = if other ∈ (nodeLayout.load mem nodeoffset).liveChildren.drop (medIdx + 1) then
                { nodeLayout.load mem other with parent := (rightOffset : Int) }
              else nodeLayout.load mem other := by
  rw [splitInnerNode_eq mem nodeoffset rightOffset k v leftofmed targetOffset full]
  dsimp only
  generalize innerHalvesAt mem nodeoffset rightOffset = halves
  have upperPlaces : ∀ child ∈ (nodeLayout.load mem nodeoffset).liveChildren.drop (medIdx + 1),
      NodePlace base child := fun child member => places child (List.mem_of_mem_drop member)
  have loads : ∀ other, NodePlace base other →
      nodeLayout.load (nodeLayout.store (nodeLayout.store
          (movedChildren mem nodeoffset rightOffset) nodeoffset halves.1) rightOffset halves.2)
        other
      = if other = rightOffset then halves.2 else if other = nodeoffset then halves.1
        else if other ∈ (nodeLayout.load mem nodeoffset).liveChildren.drop (medIdx + 1) then
          { nodeLayout.load mem other with parent := (rightOffset : Int) }
        else nodeLayout.load mem other := by
    intro other place
    rw [load_store_pair room placeLeft placeRight place distinct, movedChildren,
      load_setParents room place _ _ upperPlaces]
  have kept : SameRecords base mem (nodeLayout.store (nodeLayout.store
      (movedChildren mem nodeoffset rightOffset) nodeoffset halves.1) rightOffset halves.2) :=
    ((SameRecords.setParents room _ _ upperPlaces mem).trans
      (SameRecords.store room placeLeft _ _)).trans (SameRecords.store room placeRight _ _)
  refine ⟨_, kept, ?_⟩
  generalize nodeLayout.store (nodeLayout.store
    (movedChildren mem nodeoffset rightOffset) nodeoffset halves.1) rightOffset halves.2
    = middle at *
  have leftLoad := loads nodeoffset placeLeft
  have rightLoad := loads rightOffset placeRight
  have targetLoad := loads targetOffset placeTarget
  rw [if_neg (Ne.symm distinct), if_pos rfl] at leftLoad
  rw [if_pos rfl] at rightLoad
  rw [if_neg targetRight, if_neg targetLeft] at targetLoad
  have targetParent : ∀ parent : Int,
      ({ nodeLayout.load middle targetOffset with parent := parent } : IndexNode)
        = { nodeLayout.load mem targetOffset with parent := parent } := by
    intro parent
    rw [targetLoad]
    by_cases moved : targetOffset ∈
        (nodeLayout.load mem nodeoffset).liveChildren.drop (medIdx + 1)
    · rw [if_pos moved]
    · rw [if_neg moved]
  cases leftofmed with
  | true =>
      simp only [if_true, insertIntoNode, leftLoad]
      refine ⟨?_, ?_, ?_, ?_, ?_⟩
      · exact (kept.trans (SameRecords.store room placeLeft _ _)).trans
          (SameRecords.store room placeTarget _ _)
      · rw [load_setParent_other room placeTarget placeLeft (Ne.symm targetLeft)]
        simp
      · rw [load_setParent_other room placeTarget placeRight (Ne.symm targetRight),
          load_store_other room placeLeft placeRight distinct, rightLoad]
      · refine ⟨_, ?_, rfl⟩
        rw [load_setParent_same, load_store_other room placeLeft placeTarget targetLeft,
          targetParent]
      · intro other place notLeft notRight notTarget
        rw [load_setParent_other room placeTarget place notTarget,
          load_store_other room placeLeft place notLeft, loads other place,
          if_neg notRight, if_neg notLeft]
  | false =>
      simp only [Bool.false_eq_true, if_false, insertIntoNode, rightLoad]
      refine ⟨?_, ?_, ?_, ?_, ?_⟩
      · exact (kept.trans (SameRecords.store room placeRight _ _)).trans
          (SameRecords.store room placeTarget _ _)
      · rw [load_setParent_other room placeTarget placeLeft (Ne.symm targetLeft),
          load_store_other room placeRight placeLeft (Ne.symm distinct), leftLoad]
      · rw [load_setParent_other room placeTarget placeRight (Ne.symm targetRight)]
        simp
      · refine ⟨_, ?_, rfl⟩
        rw [load_setParent_same, load_store_other room placeRight placeTarget targetRight,
          targetParent]
      · intro other place notLeft notRight notTarget
        rw [load_setParent_other room placeTarget place notTarget,
          load_store_other room placeRight place notRight, loads other place,
          if_neg notRight, if_neg notLeft]

end Split

-----------------------------------------------------------------------------------------
-- The halves as search-tree nodes
-----------------------------------------------------------------------------------------

/-- A node after an insertion points to the new key and to keys it pointed to before. -/
theorem mem_liveKeys_insertIntoCopy {mem : Mem} {node : IndexNode} {k v child key : Int}
    {isleft : Bool} (room : node.numKeys < ORDER - 1)
    (member : key ∈ (insertIntoCopy mem node k v isleft child).2.liveKeys)
    : key = k ∨ key ∈ node.liveKeys := by
  rw [IndexNode.insertIntoCopy_liveKeys mem node k v child isleft room] at member
  rcases List.mem_append.mp member with lower | upper
  · exact Or.inr (List.mem_of_mem_take lower)
  · rcases List.mem_cons.mp upper with same | later
    · exact Or.inl same
    · exact Or.inr (List.mem_of_mem_drop later)

section Halves

variable (strings : Int → Bytes) (mem : Mem) (nodeoffset rightOffset : Nat)

/-- A full leaf is cut into its first entries and the ones from the median on. -/
theorem leafHalves_view {entries : List (Bytes × Int)}
    (body : (heapOf strings mem nodeoffset).body = .leaf entries)
    (full : (nodeLayout.load mem nodeoffset).numKeys = ORDER - 1)
    (fresh : (nodeLayout.load mem rightOffset).numKeys = 0)
    : viewNode strings (leafHalves mem nodeoffset rightOffset).1
        = ⟨(heapOf strings mem nodeoffset).parent, .leaf (entries.take medIdx)⟩
      ∧ (viewNode strings (leafHalves mem nodeoffset rightOffset).2).body
        = .leaf (entries.drop medIdx)
      ∧ (leafHalves mem nodeoffset rightOffset).1.liveKeys
        = (nodeLayout.load mem nodeoffset).liveKeys.take medIdx
      ∧ (leafHalves mem nodeoffset rightOffset).2.liveKeys
        = (nodeLayout.load mem nodeoffset).liveKeys.drop medIdx
      ∧ (leafHalves mem nodeoffset rightOffset).1.numKeys = medIdx
      ∧ (leafHalves mem nodeoffset rightOffset).2.numKeys = ORDER - 1 - medIdx := by
  unfold heapOf at body ⊢
  unfold leafHalves
  dsimp only
  generalize nodeLayout.load mem nodeoffset = node at *
  generalize nodeLayout.load mem rightOffset = right at *
  obtain ⟨leaf, rfl⟩ := viewNode_leaf strings body
  have live := IndexNode.moveLeafHalf_live node { right with isLeaf := true } full fresh
  have spec := IndexNode.moveLeafHalf_spec (ORDER - 1 - medIdx) medIdx 0 node
    { right with isLeaf := true } (by decide) (by decide)
  dsimp only at live
  generalize moveLeafHalf (ORDER - 1 - medIdx) medIdx 0 node { right with isLeaf := true }
    = halves at *
  obtain ⟨leftKeys, leftValues, rightKeys, rightValues, count⟩ := live
  obtain ⟨_, _, _, _, _, rightLeaf, _, _, leftLeaf, parent⟩ := spec
  refine ⟨?_, ?_, leftKeys, rightKeys, rfl, count⟩
  · unfold viewNode
    rw [leftKeys, leftValues]
    simp only [IndexNode.setNumKeys_parent, IndexNode.setNumKeys_isLeaf, leftLeaf, leaf, parent,
      if_true, List.map_take]
    rw [List.zip_eq_zipWith, List.zip_eq_zipWith, List.take_zipWith]
  · unfold viewNode
    rw [rightKeys, rightValues]
    simp only [rightLeaf, if_true, List.map_drop]
    rw [List.zip_eq_zipWith, List.zip_eq_zipWith, List.drop_zipWith]

/-- A full inner node is cut around its median. -/
theorem innerHalves_view {keys : List Bytes} {children : List Nat}
    (body : (heapOf strings mem nodeoffset).body = .inner keys children)
    (full : (nodeLayout.load mem nodeoffset).numKeys = ORDER - 1)
    (fresh : (nodeLayout.load mem rightOffset).numKeys = 0)
    : viewNode strings (innerHalvesAt mem nodeoffset rightOffset).1
        = ⟨(heapOf strings mem nodeoffset).parent,
            .inner (keys.take medIdx) (children.take (medIdx + 1))⟩
      ∧ (viewNode strings (innerHalvesAt mem nodeoffset rightOffset).2).body
        = .inner (keys.drop (medIdx + 1)) (children.drop (medIdx + 1))
      ∧ (innerHalvesAt mem nodeoffset rightOffset).1.liveKeys
        = (nodeLayout.load mem nodeoffset).liveKeys.take medIdx
      ∧ (innerHalvesAt mem nodeoffset rightOffset).2.liveKeys
        = (nodeLayout.load mem nodeoffset).liveKeys.drop (medIdx + 1)
      ∧ (innerHalvesAt mem nodeoffset rightOffset).1.numKeys = medIdx
      ∧ (innerHalvesAt mem nodeoffset rightOffset).2.numKeys = ORDER - 1 - (medIdx + 1) := by
  unfold heapOf at body ⊢
  unfold innerHalvesAt
  generalize nodeLayout.load mem nodeoffset = node at *
  generalize nodeLayout.load mem rightOffset = right at *
  obtain ⟨inner, rfl, rfl⟩ := viewNode_inner strings body
  have live := IndexNode.innerHalves_live rightOffset node { right with isLeaf := true } mem
    full fresh
  dsimp only at live
  generalize IndexNode.innerHalves rightOffset node { right with isLeaf := true } mem
    = halves at *
  obtain ⟨leftKeys, leftChildren, rightKeys, rightChildren, leftCount, rightCount, leftInner,
    rightInner, parent⟩ := live
  refine ⟨?_, ?_, leftKeys, rightKeys, leftCount, rightCount⟩
  · unfold viewNode
    rw [leftKeys, leftChildren, leftInner, inner, parent]
    simp only [Bool.false_eq_true, if_false, List.map_take]
  · unfold viewNode
    rw [rightKeys, rightChildren, rightInner]
    simp only [Bool.false_eq_true, if_false, List.map_drop]

end Halves

end ZippyFS
