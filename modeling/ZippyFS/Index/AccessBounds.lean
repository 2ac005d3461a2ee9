import ZippyFS.Index.NodeAccess
import ZippyFS.Index.NodeArena

/-! Where accesses to nodes stay in the arrays: everywhere but in the loop of the writer's descent,
which looks one key too far.
-/

namespace ZippyFS

open CellMemory StructLayout ByteOrder Outcomes Recorded

namespace Watched

-----------------------------------------------------------------------------------------
-- Single nodes
-----------------------------------------------------------------------------------------

section Node

variable {mem : Mem} {node cur : IndexNode} {key : Bytes}

/-- Accesses outside descents have only the arrays as their bounds. -/
theorem ok_plain_iff (array : NodeArray) (index : Nat)
    : Access.Ok ⟨array, index, none⟩ ↔ index < array.length := by
  simp [Access.Ok]

/-- The search of an insertion reads keys at the places it is given, by induction on them. -/
theorem insertPosition_ok (k : Int) {places : List Nat} (inside : ∀ ii ∈ places, ii < ORDER - 1)
    : (insertPosition mem node k places).All Access.Ok := by
  induction places with
  | nil => exact all_pure none
  | cons ii rest ih =>
      rw [insertPosition, readKey, all_event_bind, ok_plain_iff]
      refine ⟨inside ii (by simp), ?_⟩
      split
      · exact all_pure _
      · exact ih fun other member => inside other (by simp [member])

/-- The move loop ends with the last child, one place behind the last key, by induction on its
steps.
-/
theorem moveUp_ok {temp : IndexNode} {steps ii : Nat} (room : ii + steps < ORDER - 1)
    : (moveUp temp steps ii node).All Access.Ok := by
  have wide : ORDER = ORDER - 1 + 1 := rfl
  have next (place : Nat) : (place : Int) + 1 = ((place + 1 : Nat) : Int) := rfl
  induction steps generalizing ii node with
  | zero =>
      simp only [moveUp, readChild, writeChild, all_event_bind, all_event, next, ok_plain_iff,
        NodeArray.length]
      omega
  | succ steps ih =>
      simp only [moveUp, readKey, readChild, readValue, writeKey, writeChild, writeValue,
        all_event_bind, next, ok_plain_iff, NodeArray.length]
      exact ⟨by omega, by omega, by omega, by omega, by omega, by omega, ih (by omega)⟩

/-- Making room reaches one place behind the last key. -/
theorem makeRoom_ok {found : Option Nat} (room : node.numKeys < ORDER - 1)
    (live : ∀ curIdx ∈ found, curIdx < node.numKeys)
    : (makeRoom node found).All Access.Ok := by
  cases found with
  | none => exact all_pure _
  | some curIdx =>
      have inside := live curIdx rfl
      rw [makeRoom, all_bind_ok (moveUp_outcome _ _ _ _)]
      exact ⟨moveUp_ok (by omega), all_pure _⟩

/-- The new key's place is at most one behind the last key. -/
theorem makeRoom_position {found : Option Nat} {made : Nat × IndexNode}
    (live : ∀ curIdx ∈ found, curIdx < node.numKeys)
    (outcome : (makeRoom node found).outcome = .ok made)
    : made.1 ≤ node.numKeys := by
  cases found with
  | none =>
      obtain rfl := Except.ok.inj outcome
      exact le_refl _
  | some curIdx =>
      rw [makeRoom, outcome_bind, moveUp_outcome, ok_bind] at outcome
      obtain rfl := Except.ok.inj outcome
      exact le_of_lt (live curIdx rfl)

/-- An insertion into a node with room stays in its arrays. -/
theorem insertIntoCopy_ok (k v child : Int) (isleft : Bool) (room : node.numKeys < ORDER - 1)
    : (insertIntoCopy mem node k v isleft child).All Access.Ok := by
  have wide : ORDER = ORDER - 1 + 1 := rfl
  rw [insertIntoCopy, all_bind_ok (insertPosition_outcome _ _ _ _)]
  refine ⟨insertPosition_ok k fun ii member => ?_, ?_⟩
  · have inside := List.mem_range.mp member
    omega
  have live : ∀ curIdx ∈ (List.range node.numKeys).find?
        (fun ii => strcmp (keyAt mem k) (keyAt mem (node.key ii)) = .lt),
      curIdx < node.numKeys :=
    fun curIdx found => List.mem_range.mp (List.mem_of_find?_eq_some found)
  rw [all_bind_iff]
  refine ⟨makeRoom_ok room live, ?_⟩
  rintro ⟨curIdx, filled⟩ made
  have low : curIdx ≤ node.numKeys := makeRoom_position live made
  simp only [writeKey, all_event_bind, ok_plain_iff, NodeArray.length]
  refine ⟨by omega, ?_⟩
  split
  · simp only [writeValue, all_event_bind, ok_plain_iff, NodeArray.length, all_pure, and_true]
    omega
  · simp only [writeChild, all_event_bind, ok_plain_iff, NodeArray.length, all_pure, and_true]
    split <;> omega

/-- The same in memory. -/
theorem insertIntoNode_ok {nodeoffset : Nat} (k v child : Int) (isleft : Bool)
    (room : (nodeLayout.load mem nodeoffset).numKeys < ORDER - 1)
    : (insertIntoNode mem nodeoffset k v isleft child).All Access.Ok := by
  unfold insertIntoNode
  generalize nodeLayout.load mem nodeoffset = node at room
  rw [all_bind_iff]
  exact ⟨insertIntoCopy_ok k v child isleft room, fun _ _ => all_pure _⟩

/-- The copy loop of a split leaf stays in both nodes, by induction on its steps. -/
theorem moveLeafHalf_ok {steps ii curIdx : Nat} {nnode right : IndexNode}
    (source : ii + steps ≤ ORDER - 1) (target : curIdx + steps ≤ ORDER - 1)
    : (moveLeafHalf steps ii curIdx nnode right).All Access.Ok := by
  have wide : ORDER = ORDER - 1 + 1 := rfl
  induction steps generalizing ii curIdx nnode right with
  | zero => exact all_pure _
  | succ steps ih =>
      simp only [moveLeafHalf, readKey, readChild, readValue, writeKey, writeChild, writeValue,
        all_event_bind, ok_plain_iff, NodeArray.length]
      exact ⟨by omega, by omega, by omega, by omega, by omega, by omega, by omega,
        ih (by omega) (by omega)⟩

/-- The copy loop of a split parent stays in both nodes, by induction on its steps. -/
theorem moveInnerHalf_ok {rightOffset steps ii curIdx : Nat} {nnode right : IndexNode}
    (source : ii + steps ≤ ORDER - 1) (target : curIdx + steps ≤ ORDER - 1)
    : (moveInnerHalf rightOffset steps ii curIdx nnode right mem).All Access.Ok := by
  have wide : ORDER = ORDER - 1 + 1 := rfl
  induction steps generalizing ii curIdx nnode right mem with
  | zero => exact all_pure _
  | succ steps ih =>
      simp only [moveInnerHalf, readKey, readChild, writeKey, writeChild, all_event_bind,
        ok_plain_iff, NodeArray.length]
      exact ⟨by omega, by omega, by omega, by omega, by omega, by omega,
        ih (by omega) (by omega)⟩

end Node

-----------------------------------------------------------------------------------------
-- Splits
-----------------------------------------------------------------------------------------

section Split

variable {base nodeoffset rightOffset : Nat} {mem : Mem}

/-- An insertion into one of two nodes with room that were just stored. -/
theorem insertIntoHalf_ok (room : 608 ≤ base) (placeLeft : NodePlace base nodeoffset)
    (placeRight : NodePlace base rightOffset) (distinct : rightOffset ≠ nodeoffset)
    {left right : IndexNode} (lower : left.numKeys < ORDER - 1)
    (upper : right.numKeys < ORDER - 1) (k v child : Int) {half : Nat}
    (isHalf : half = nodeoffset ∨ half = rightOffset)
    : (insertIntoNode (nodeLayout.store (nodeLayout.store mem nodeoffset left) rightOffset right)
        half k v false child).All Access.Ok := by
  refine insertIntoNode_ok k v child false ?_
  rcases isHalf with rfl | rfl
  · rwa [load_store_other room placeRight placeLeft distinct.symm, Layout.load_store_same]
  · rwa [Layout.load_store_same]

/-- Splitting a full leaf stays in both nodes. -/
theorem splitLeafNode_ok (room : 608 ≤ base) (placeLeft : NodePlace base nodeoffset)
    (placeRight : NodePlace base rightOffset) (distinct : rightOffset ≠ nodeoffset)
    (lower : (leafHalves mem nodeoffset rightOffset).1.numKeys < ORDER - 1)
    (upper : (leafHalves mem nodeoffset rightOffset).2.numKeys < ORDER - 1) (k v : Int)
    (leftofmed : Bool)
    : (splitLeafNode mem nodeoffset rightOffset k v leftofmed).All Access.Ok := by
  dsimp only [leafHalves] at lower upper
  unfold splitLeafNode
  generalize nodeLayout.load mem nodeoffset = nnode at *
  generalize nodeLayout.load mem rightOffset = right at *
  rw [all_bind_ok (moveLeafHalf_outcome _ _ _ _ _)]
  refine ⟨moveLeafHalf_ok (by decide) (by decide), ?_⟩
  generalize ZippyFS.moveLeafHalf (ORDER - 1 - medIdx) medIdx 0 nnode
    { right with isLeaf := true } = halves at *
  cases leftofmed with
  | true =>
      simp only [if_true, all_bind_iff]
      exact ⟨insertIntoHalf_ok room placeLeft placeRight distinct lower upper k v _ (Or.inl rfl),
        fun _ _ => all_pure _⟩
  | false =>
      simp only [Bool.false_eq_true, if_false, all_bind_iff]
      exact ⟨insertIntoHalf_ok room placeLeft placeRight distinct lower upper k v _ (Or.inr rfl),
        fun _ _ => all_pure _⟩

/-- Splitting a full parent stays in both nodes. -/
theorem splitInnerNode_ok (room : 608 ≤ base) (placeLeft : NodePlace base nodeoffset)
    (placeRight : NodePlace base rightOffset) (distinct : rightOffset ≠ nodeoffset)
    (lower : (innerHalvesAt mem nodeoffset rightOffset).1.numKeys < ORDER - 1)
    (upper : (innerHalvesAt mem nodeoffset rightOffset).2.numKeys < ORDER - 1) (k v : Int)
    (leftofmed : Bool) (targetOffset : Nat)
    : (splitInnerNode mem nodeoffset rightOffset k v leftofmed targetOffset).All Access.Ok := by
  dsimp only [innerHalvesAt, IndexNode.innerHalves] at lower upper
  unfold splitInnerNode
  generalize nodeLayout.load mem nodeoffset = nnode at *
  generalize nodeLayout.load mem rightOffset = right at *
  rw [all_bind_ok (moveInnerHalf_outcome _ _ _ _ _ _ _)]
  refine ⟨moveInnerHalf_ok (by decide) (by decide), ?_⟩
  generalize ZippyFS.moveInnerHalf rightOffset (ORDER - 1 - (medIdx + 1)) (medIdx + 1) 0 nnode
    { right with isLeaf := true } mem = halves at *
  simp only [readChild, writeChild, writeKey, all_event_bind, ok_plain_iff, NodeArray.length,
    Int.toNat_natCast]
  refine ⟨by decide, by decide, by decide, by decide, ?_⟩
  cases leftofmed with
  | true =>
      simp only [if_true, all_bind_iff]
      refine ⟨insertIntoHalf_ok room placeLeft placeRight distinct ?_ ?_ k v _ (Or.inl rfl),
        fun _ _ => all_pure _⟩
      · exact lower
      · exact upper
  | false =>
      simp only [Bool.false_eq_true, if_false, all_bind_iff]
      refine ⟨insertIntoHalf_ok room placeLeft placeRight distinct ?_ ?_ k v _ (Or.inr rfl),
        fun _ _ => all_pure _⟩
      · exact lower
      · exact upper

end Split

section Index

variable {base offset : Nat} {index : BPLUSIndex}

/-- A new root has room for one key and two children. -/
theorem growRoot_ok (nodeoffset rightOffset : Nat) (nkey : Int)
    : (growRoot index nodeoffset rightOffset nkey).All Access.Ok := by
  unfold growRoot
  refine all_bind_iff.mpr ⟨all_plain _, fun nrootOffset _ => ?_⟩
  refine all_bind_iff.mpr ⟨all_plain _, fun headerOffset _ => ?_⟩
  simp only [writeKey, writeChild, all_event_bind]
  exact ⟨(ok_plain_iff .keys 0).mpr (by decide), (ok_plain_iff .children 0).mpr (by decide),
    (ok_plain_iff .children 1).mpr (by decide), all_pure _⟩

/-- Splitting a full node of an index in shape stays in both halves. -/
theorem splitHalves_ok {loose : Option Nat} {isparent : Bool} {targ : Int} (k v : Int)
    (shaped : Shaped base index loose) (job : Job base index offset isparent targ loose)
    (there : Allocated base index.mem.curSize offset)
    (full : (nodeLayout.load index.mem.mem offset).numKeys = ORDER - 1)
    : (splitHalves index offset k v isparent targ).All Access.Ok := by
  obtain ⟨count, frontier⟩ := shaped.frontier
  have placeRight : NodePlace base index.mem.curSize := Or.inr ⟨count, frontier⟩
  have distinct : index.mem.curSize ≠ offset := fun same => by
    have inside := there.2
    omega
  have kept := load_handedOut index.mem.mem there
  have zero : (nodeLayout.load (index.mem.mem.clear index.mem.curSize nodeLayout.size)
      index.mem.curSize).numKeys = 0 := by
    rw [load_allocated_zero, nodeLayout_zero_numKeys]
  have right := TireFire.getTire_getOffset_new index.mem nodeLayout.size
  have median : Access.Ok ⟨.keys, (medIdx : Nat), none⟩ :=
    (ok_plain_iff .keys medIdx).mpr (by decide)
  simp only [splitHalves, TireFire.getTire_index, right, all_plain_bind, readKey,
    all_event_bind, TireFire.getTire_mem]
  refine ⟨median, ?_⟩
  cases job with
  | leaf targ kind =>
      obtain ⟨_, _, lower, upper, _⟩ := leafHalves_bounded base (index.mem.curSize + 584)
        (by rw [kept, kind]) zero (by rw [kept, full])
      simp only [Bool.false_eq_true, if_false, all_bind_iff]
      exact ⟨splitLeafNode_ok shaped.room there.1 placeRight distinct lower upper _ _ _,
        fun _ _ => all_pure _⟩
  | inner kind _ _ _ _ =>
      have bounded : Bounded base index.mem.curSize
          (nodeLayout.load (index.mem.mem.clear index.mem.curSize nodeLayout.size) offset) := by
        rw [kept]
        exact shaped.bounded offset there
      obtain ⟨_, _, lower, upper, _⟩ :=
        innerHalves_bounded bounded (by rw [kept, kind]) zero (by rw [kept, full])
      simp only [if_true, all_bind_iff]
      exact ⟨all_plain _, fun target _ =>
        ⟨splitInnerNode_ok shaped.room there.1 placeRight distinct lower upper _ _ _ target,
          fun _ _ => all_pure _⟩⟩

/-- Splitting up to a node with room stays in all nodes, by induction on the fuel. -/
theorem splitInsertNode_ok {loose : Option Nat} {isparent : Bool} {targ k v : Int} {fuel : Nat}
    (shaped : Shaped base index loose) (job : Job base index offset isparent targ loose)
    (there : Allocated base index.mem.curSize offset)
    (full : (nodeLayout.load index.mem.mem offset).numKeys = ORDER - 1)
    : (splitInsertNode fuel index offset k v isparent targ).All Access.Ok := by
  induction fuel generalizing index offset k v isparent targ loose with
  | zero => exact all_plain _
  | succ fuel ih =>
      obtain ⟨medKeyOf, final, halves, shaped', _, _, right, upward⟩ :=
        shaped.split k v job there full
      have isFull : ¬ ((index.mem.load nodeLayout offset).numKeys ≠ ORDER - 1) :=
        fun other => other full
      rw [splitInsertNode, if_neg isFull,
        all_bind_ok ((splitHalves_outcome _ _ _ _ _ _).trans halves)]
      refine ⟨splitHalves_ok k v shaped job there full, ?_⟩
      simp only [listRight, readKey, all_event_bind]
      refine ⟨(ok_plain_iff .keys 0).mpr (by decide), ?_⟩
      cases upward with
      | root orphan =>
          rw [if_pos orphan]
          exact growRoot_ok _ _ _
      | parent paroff owner old kind below =>
          rw [owner, if_neg (by omega), Int.toNat_natCast]
          by_cases parentFull : ((withNode index final).mem.load nodeLayout paroff).numKeys
              = ORDER - 1
          · rw [if_pos parentFull, all_bind_iff]
            exact ⟨ih shaped' (.upward kind right below) old parentFull, fun _ _ => all_pure _⟩
          · have bounded := shaped'.bounded paroff old
            rw [if_neg parentFull, all_bind_iff]
            exact ⟨insertIntoNode_ok _ _ _ _ (lt_of_le_of_ne bounded.full parentFull),
              fun _ _ => all_pure _⟩

end Index

end Watched

end ZippyFS
