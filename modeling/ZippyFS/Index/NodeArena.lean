import ZippyFS.Index.AddInode
import ZippyFS.Lib.Outcomes

/-! The nodes of an index whatever its keys are: children and parents of a node are nodes again,
so insertions stay away from the header and the records even where keys repeat.
-/

namespace ZippyFS

open CellMemory StructLayout ByteOrder Outcomes

variable {base size larger : Nat} {mem next : Mem} {node : IndexNode} {offset : Nat}

/-- A node place inside the file. -/
def Allocated (base size offset : Nat) : Prop := NodePlace base offset ∧ offset + 584 ≤ size

/-- A node within its arrays whose children are nodes. -/
structure Bounded (base size : Nat) (node : IndexNode) : Prop where
  full : node.numKeys ≤ ORDER - 1
  nonempty : node.isLeaf = false → 0 < node.numKeys
  children : node.isLeaf = false → ∀ child ∈ node.liveChildren, Allocated base size child

/-- A node without a parent, or below an inner node. -/
def Linked (base size : Nat) (mem : Mem) (node : IndexNode) : Prop :=
  node.parent = -1
    ∨ ∃ place : Nat, node.parent = (place : Int) ∧ Allocated base size place
      ∧ (nodeLayout.load mem place).isLeaf = false

/-- All nodes are bounded, and all but the loose one are linked. -/
structure Arena (base size : Nat) (mem : Mem) (loose : Option Nat) : Prop where
  bounded : ∀ offset, Allocated base size offset → Bounded base size (nodeLayout.load mem offset)
  linked
    : ∀ offset, Allocated base size offset → some offset ≠ loose
      → Linked base size mem (nodeLayout.load mem offset)

/-- Nodes stay nodes of their kind. -/
structure Keeps (base size : Nat) (mem next : Mem) : Prop where
  kinds
    : ∀ offset, Allocated base size offset
      → (nodeLayout.load next offset).isLeaf = (nodeLayout.load mem offset).isLeaf

theorem withParent_self (node : IndexNode) : { node with parent := node.parent } = node := rfl

/-- The parent does not matter. -/
theorem Bounded.withParent (bounded : Bounded base size node) (parent : Int)
    : Bounded base size { node with parent := parent } :=
  ⟨bounded.full, bounded.nonempty, bounded.children⟩

/-- A node below an inner node. -/
theorem Linked.below {place : Nat} (node : IndexNode) (there : Allocated base size place)
    (inner : (nodeLayout.load mem place).isLeaf = false)
    : Linked base size mem { node with parent := (place : Int) } :=
  Or.inr ⟨place, rfl, there, inner⟩

theorem Linked.same {parent : Int} (linked : Linked base size mem node)
    (same : parent = node.parent)
    : Linked base size mem { node with parent := parent } := by
  rw [same]
  exact linked

/-- Only the parent matters. -/
theorem Linked.congr {other : IndexNode} (linked : Linked base size mem node)
    (same : other.parent = node.parent)
    : Linked base size mem other := by
  unfold Linked
  rwa [same]

theorem Allocated.mono (allocated : Allocated base size offset) (grows : size ≤ larger)
    : Allocated base larger offset :=
  ⟨allocated.1, allocated.2.trans grows⟩

theorem Bounded.mono (bounded : Bounded base size node) (grows : size ≤ larger)
    : Bounded base larger node :=
  ⟨bounded.full, bounded.nonempty,
    fun inner child member => (bounded.children inner child member).mono grows⟩

theorem Linked.mono (linked : Linked base size mem node) (grows : size ≤ larger)
    (keeps : Keeps base size mem next)
    : Linked base larger next node := by
  rcases linked with orphan | ⟨place, parent, there, inner⟩
  · exact Or.inl orphan
  · refine Or.inr ⟨place, parent, there.mono grows, ?_⟩
    rw [keeps.kinds place there, inner]

/-- One node more is in a file that grew by a node. -/
theorem Allocated.cases {count : Nat} (room : 608 ≤ base) (frontier : size = base + 584 * count)
    (allocated : Allocated base (size + 584) offset)
    : Allocated base size offset ∨ offset = size := by
  obtain ⟨place, inside⟩ := allocated
  rcases place with rfl | ⟨number, rfl⟩
  · exact Or.inl ⟨Or.inl rfl, by omega⟩
  · rcases Nat.lt_or_ge number count with earlier | later
    · exact Or.inl ⟨Or.inr ⟨number, rfl⟩, by omega⟩
    · exact Or.inr (by omega)

/-- A node with room takes a pair, or a child that is a node. -/
theorem Bounded.insert (bounded : Bounded base size node) (mem : Mem) (k v child : Int)
    (room : node.numKeys < ORDER - 1)
    (fits : node.isLeaf = false → Allocated base size child.toNat)
    : Bounded base size (insertIntoCopy mem node k v false child).2 := by
  obtain ⟨count, kind, _⟩ := IndexNode.insertIntoCopy_members mem node k v child false room
  refine ⟨by omega, fun _ => by omega, fun inner other member => ?_⟩
  rw [kind] at inner
  rw [IndexNode.insertIntoCopy_liveChildren mem node k v child room inner, List.mem_append,
    List.mem_cons] at member
  rcases member with lower | rfl | upper
  · exact bounded.children inner other (List.mem_of_mem_take lower)
  · exact fits inner
  · exact bounded.children inner other (List.mem_of_mem_drop upper)

-----------------------------------------------------------------------------------------
-- Splitting
-----------------------------------------------------------------------------------------

/-- The halves of a leaf are leaves. -/
theorem leafHalves_bounded (base size : Nat) {right : Nat}
    (leaf : (nodeLayout.load mem offset).isLeaf = true)
    (fresh : (nodeLayout.load mem right).numKeys = 0)
    (full : (nodeLayout.load mem offset).numKeys = ORDER - 1)
    : Bounded base size (leafHalves mem offset right).1
      ∧ Bounded base size (leafHalves mem offset right).2
      ∧ (leafHalves mem offset right).1.numKeys < ORDER - 1
      ∧ (leafHalves mem offset right).2.numKeys < ORDER - 1
      ∧ (leafHalves mem offset right).1.isLeaf = true
      ∧ (leafHalves mem offset right).2.isLeaf = true
      ∧ (leafHalves mem offset right).1.parent = (nodeLayout.load mem offset).parent := by
  unfold leafHalves
  generalize nodeLayout.load mem offset = node at *
  generalize nodeLayout.load mem right = blank at *
  have live := IndexNode.moveLeafHalf_live node { blank with isLeaf := true } full fresh
  have spec := IndexNode.moveLeafHalf_spec (ORDER - 1 - medIdx) medIdx 0 node
    { blank with isLeaf := true } (by decide) (by decide)
  dsimp only at live ⊢
  generalize moveLeafHalf (ORDER - 1 - medIdx) medIdx 0 node { blank with isLeaf := true }
    = halves at *
  obtain ⟨_, _, _, _, count⟩ := live
  obtain ⟨_, _, _, _, _, rightLeaf, _, _, leftLeaf, parent⟩ := spec
  have lower : (halves.1.setNumKeys medIdx).isLeaf = true := leftLeaf.trans leaf
  have upper : halves.2.isLeaf = true := rightLeaf
  have notInner {half : IndexNode} (leaf : half.isLeaf = true) {P : Prop}
      (inner : half.isLeaf = false) : P :=
    absurd (leaf.symm.trans inner) (by decide)
  refine ⟨⟨?_, notInner lower, notInner lower⟩, ⟨?_, notInner upper, notInner upper⟩, ?_, ?_,
    lower, upper, parent⟩
  · exact (show medIdx ≤ ORDER - 1 by decide)
  · rw [count]
    decide
  · exact (show medIdx < ORDER - 1 by decide)
  · rw [count]
    decide

/-- The halves of an inner node share its children. -/
theorem innerHalves_bounded {right : Nat} (bounded : Bounded base size (nodeLayout.load mem offset))
    (inner : (nodeLayout.load mem offset).isLeaf = false)
    (fresh : (nodeLayout.load mem right).numKeys = 0)
    (full : (nodeLayout.load mem offset).numKeys = ORDER - 1)
    : Bounded base size (innerHalvesAt mem offset right).1
      ∧ Bounded base size (innerHalvesAt mem offset right).2
      ∧ (innerHalvesAt mem offset right).1.numKeys < ORDER - 1
      ∧ (innerHalvesAt mem offset right).2.numKeys < ORDER - 1
      ∧ (innerHalvesAt mem offset right).1.isLeaf = false
      ∧ (innerHalvesAt mem offset right).2.isLeaf = false
      ∧ (innerHalvesAt mem offset right).1.parent = (nodeLayout.load mem offset).parent := by
  unfold innerHalvesAt
  generalize nodeLayout.load mem offset = node at *
  generalize nodeLayout.load mem right = blank at *
  obtain ⟨_, lower, _, upper, lowerCount, upperCount, leftInner, rightInner, parent⟩ :=
    IndexNode.innerHalves_live right node { blank with isLeaf := true } mem full fresh
  refine ⟨⟨?_, ?_, ?_⟩, ⟨?_, ?_, ?_⟩, ?_, ?_, leftInner.trans inner, rightInner, parent⟩
  · rw [lowerCount]
    decide
  · rw [lowerCount]
    exact fun _ => by decide
  · intro _ child member
    rw [lower] at member
    exact bounded.children inner child (List.mem_of_mem_take member)
  · rw [upperCount]
    decide
  · rw [upperCount]
    exact fun _ => by decide
  · intro _ child member
    rw [upper] at member
    exact bounded.children inner child (List.mem_of_mem_drop member)
  · rw [lowerCount]
    decide
  · rw [upperCount]
    decide

/-- A node as it is after a region for one more was handed out. -/
theorem load_handedOut (mem : Mem) (allocated : Allocated base size offset)
    : nodeLayout.load (mem.clear size nodeLayout.size) offset = nodeLayout.load mem offset := by
  apply Layout.load_congr
  intro address _ last
  apply Mem.clear_outside
  have inside := allocated.2
  simp only [nodeLayout_size] at last
  omega

theorem SameRecords.handedOut (mem : Mem) (room : 608 ≤ base) {count : Nat}
    (frontier : size = base + 584 * count)
    : SameRecords base mem (mem.clear size nodeLayout.size) := by
  intro address kept
  apply Mem.clear_outside
  omega

/-- What a split of a node leaves behind: a loose fresh node, and the left half under the old
parent.
-/
structure SplitArena (base size : Nat) (mem final : Mem) (offset : Nat) : Prop where
  arena : Arena base (size + 584) final (some size)
  records : SameRecords base mem final
  keeps : Keeps base size mem final
  kind : (nodeLayout.load final size).isLeaf = (nodeLayout.load mem offset).isLeaf
  parent : (nodeLayout.load final offset).parent = (nodeLayout.load mem offset).parent

/-- The other nodes keep their contents; some of them may now lie below one of the halves. -/
def Reparented (mem final : Mem) (offset size : Nat) (loose : Option Nat) (other : Nat) : Prop :=
  ∃ parent, nodeLayout.load final other = { nodeLayout.load mem other with parent := parent }
    ∧ ((parent = (nodeLayout.load mem other).parent ∧ some other ≠ loose)
      ∨ ((nodeLayout.load mem offset).isLeaf = false
        ∧ ∃ place : Nat, parent = (place : Int) ∧ (place = offset ∨ place = size)))

/-- A split leaves an arena behind if its halves are bounded. -/
theorem Arena.split {loose : Option Nat} {final : Mem} (arena : Arena base size mem loose)
    (room : 608 ≤ base) {count : Nat} (frontier : size = base + 584 * count)
    (left : Allocated base size offset) (fixed : some offset ≠ loose)
    (records : SameRecords base mem final)
    (boundedLeft : Bounded base (size + 584) (nodeLayout.load final offset))
    (leftKind : (nodeLayout.load final offset).isLeaf = (nodeLayout.load mem offset).isLeaf)
    (leftParent : (nodeLayout.load final offset).parent = (nodeLayout.load mem offset).parent)
    (boundedRight : Bounded base (size + 584) (nodeLayout.load final size))
    (rightKind : (nodeLayout.load final size).isLeaf = (nodeLayout.load mem offset).isLeaf)
    (others
      : ∀ other, Allocated base size other → other ≠ offset
        → Reparented mem final offset size loose other)
    : SplitArena base size mem final offset := by
  have grows : size ≤ size + 584 := Nat.le_add_right _ _
  have right : Allocated base (size + 584) size := ⟨Or.inr ⟨count, frontier⟩, le_refl _⟩
  have keeps : Keeps base size mem final := by
    constructor
    intro other there
    by_cases here : other = offset
    · rw [here, leftKind]
    · obtain ⟨parent, same, _⟩ := others other there here
      rw [same]
  refine ⟨⟨?_, ?_⟩, records, keeps, rightKind, leftParent⟩
  · intro other there
    rcases there.cases room frontier with old | rfl
    · by_cases here : other = offset
      · rw [here]
        exact boundedLeft
      · obtain ⟨parent, same, _⟩ := others other old here
        rw [same]
        exact ((arena.bounded other old).mono grows).withParent parent
    · exact boundedRight
  · intro other there tight
    rcases there.cases room frontier with old | rfl
    · by_cases here : other = offset
      · have linked := (arena.linked offset left fixed).mono grows keeps
        rw [here]
        exact linked.congr leftParent
      · obtain ⟨parent, same, cause⟩ := others other old here
        rw [same]
        rcases cause with ⟨unchanged, firm⟩ | ⟨inner, place, is, half⟩
        · have linked := (arena.linked other old firm).mono grows keeps
          exact linked.same unchanged
        · rw [is]
          rcases half with rfl | rfl
          · exact .below _ (left.mono grows) (leftKind.trans inner)
          · exact .below _ right (rightKind.trans inner)
    · exact absurd rfl tight

/-- Splitting a full leaf. -/
theorem Arena.splitLeaf (arena : Arena base size mem none) (room : 608 ≤ base) {count : Nat}
    (frontier : size = base + 584 * count) (left : Allocated base size offset)
    (leaf : (nodeLayout.load mem offset).isLeaf = true)
    (full : (nodeLayout.load mem offset).numKeys = ORDER - 1) (k v : Int) (leftofmed : Bool)
    : SplitArena base size mem
        (splitLeafNode (mem.clear size nodeLayout.size) offset size k v leftofmed) offset := by
  have placeRight : NodePlace base size := Or.inr ⟨count, frontier⟩
  have distinct : size ≠ offset := fun same => by
    have inside := left.2
    omega
  have kept {other : Nat} (there : Allocated base size other) :=
    load_handedOut mem there
  have records := SameRecords.handedOut mem room frontier
  have zero : (nodeLayout.load (mem.clear size nodeLayout.size) size).numKeys = 0 := by
    rw [load_allocated_zero, nodeLayout_zero_numKeys]
  generalize mem.clear size nodeLayout.size = cleared at *
  obtain ⟨middle, _, finalSame, leftLoad, rightLoad, otherLoad⟩ :=
    splitLeafNode_loads room left.1 placeRight distinct cleared k v leftofmed
  obtain ⟨lower, upper, roomLower, roomUpper, leftLeaf, rightLeaf, parent⟩ :=
    leafHalves_bounded base (size + 584) (by rw [kept left, leaf])
      zero (by rw [kept left, full])
  rw [kept left] at parent
  have unfilled {half : IndexNode} (isLeaf : half.isLeaf = true)
      : half.isLeaf = false → Allocated base (size + 584) (-1 : Int).toNat := fun inner =>
    absurd (isLeaf.symm.trans inner) (by decide)
  refine arena.split room frontier left (by simp) (records.trans finalSame) ?_ ?_ ?_ ?_ ?_ ?_
  · rw [leftLoad]
    split
    · exact lower.insert _ k v (-1) roomLower (unfilled leftLeaf)
    · exact lower
  · rw [leftLoad, leaf]
    split
    · rw [(IndexNode.insertIntoCopy_members _ _ k v (-1) false roomLower).2.1, leftLeaf]
    · exact leftLeaf
  · rw [leftLoad]
    split
    · rw [(IndexNode.insertIntoCopy_members _ _ k v (-1) false roomLower).2.2, parent]
    · exact parent
  · rw [rightLoad]
    split
    · exact upper
    · exact upper.insert _ k v (-1) roomUpper (unfilled rightLeaf)
  · rw [rightLoad, leaf]
    split
    · exact rightLeaf
    · rw [(IndexNode.insertIntoCopy_members _ _ k v (-1) false roomUpper).2.1, rightLeaf]
  · intro other there away
    have notRight : other ≠ size := fun same => by
      have inside := there.2
      omega
    refine ⟨_, Eq.trans ?_ (withParent_self _).symm, Or.inl ⟨rfl, by simp⟩⟩
    rw [otherLoad other there.1 away notRight, kept there]

/-- Splitting a full inner node and hanging the loose node below one of the halves. -/
theorem Arena.splitInner {target : Nat} (arena : Arena base size mem (some target))
    (room : 608 ≤ base) {count : Nat} (frontier : size = base + 584 * count)
    (left : Allocated base size offset) (there : Allocated base size target)
    (apart : target ≠ offset) (inner : (nodeLayout.load mem offset).isLeaf = false)
    (full : (nodeLayout.load mem offset).numKeys = ORDER - 1) (k v : Int) (leftofmed : Bool)
    : SplitArena base size mem
        (splitInnerNode (mem.clear size nodeLayout.size) offset size k v leftofmed target)
        offset := by
  have placeRight : NodePlace base size := Or.inr ⟨count, frontier⟩
  have distinct {other : Nat} (there : Allocated base size other) : other ≠ size := fun same => by
    have inside := there.2
    omega
  have kept {other : Nat} (there : Allocated base size other) :=
    load_handedOut mem there
  have records := SameRecords.handedOut mem room frontier
  have zero : (nodeLayout.load (mem.clear size nodeLayout.size) size).numKeys = 0 := by
    rw [load_allocated_zero, nodeLayout_zero_numKeys]
  generalize mem.clear size nodeLayout.size = cleared at *
  have boundedLeft : Bounded base size (nodeLayout.load cleared offset) := by
    rw [kept left]
    exact arena.bounded offset left
  obtain ⟨middle, _, finalSame, leftLoad, rightLoad, ⟨owner, targetLoad, ownerIs⟩, otherLoad⟩ :=
    splitInnerNode_loads room left.1 placeRight there.1 (distinct left).symm apart
      (distinct there) cleared k v leftofmed (by rw [kept left, full])
      (fun child member => by
        rw [kept left] at member
        exact ((arena.bounded offset left).children inner child member).1)
  obtain ⟨lower, upper, roomLower, roomUpper, leftInner, rightInner, parent⟩ :=
    innerHalves_bounded boundedLeft (by rw [kept left, inner]) zero
      (by rw [kept left, full])
  rw [kept left] at parent otherLoad
  generalize innerHalvesAt cleared offset size = halves at *
  have grows : size ≤ size + 584 := Nat.le_add_right _ _
  have hung {half : IndexNode} : half.isLeaf = false
      → Allocated base (size + 584) (target : Int).toNat := fun _ => there.mono grows
  refine arena.split room frontier left (by simpa using Ne.symm apart)
    (records.trans finalSame) ?_ ?_ ?_ ?_ ?_ ?_
  · rw [leftLoad]
    split
    · exact (lower.mono grows).insert _ k v target roomLower hung
    · exact lower.mono grows
  · rw [leftLoad, inner]
    split
    · rw [(IndexNode.insertIntoCopy_members _ _ k v target false roomLower).2.1, leftInner]
    · exact leftInner
  · rw [leftLoad]
    split
    · rw [(IndexNode.insertIntoCopy_members _ _ k v target false roomLower).2.2, parent]
    · exact parent
  · rw [rightLoad]
    split
    · exact upper.mono grows
    · exact (upper.mono grows).insert _ k v target roomUpper hung
  · rw [rightLoad, inner]
    split
    · exact rightInner
    · rw [(IndexNode.insertIntoCopy_members _ _ k v target false roomUpper).2.1, rightInner]
  · intro other old away
    by_cases isTarget : other = target
    · subst isTarget
      refine ⟨owner, by rw [targetLoad, kept old], Or.inr ⟨inner, _, ownerIs, ?_⟩⟩
      split
      · exact Or.inl rfl
      · exact Or.inr rfl
    · have load := otherLoad other old.1 away (distinct old) isTarget
      rw [kept old] at load
      split at load
      · exact ⟨_, load, Or.inr ⟨inner, size, rfl, Or.inr rfl⟩⟩
      · refine ⟨_, Eq.trans ?_ (withParent_self _).symm, Or.inl ⟨rfl, ?_⟩⟩
        · rw [load]
        · exact fun same => isTarget (Option.some.inj same)

-----------------------------------------------------------------------------------------
-- Listing the right half
-----------------------------------------------------------------------------------------

/-- An index whose nodes form an arena, with its header and its root. -/
structure Shaped (base : Nat) (index : BPLUSIndex) (loose : Option Nat) : Prop
    extends Arena base index.mem.curSize index.mem.mem loose where
  room : 608 ≤ base
  frontier : ∃ count, index.mem.curSize = base + 584 * count
  hasRoot : index.hasRoot = true
  header : index.mem.getOffset index.headerIdx = .ok 0
  headerOld : index.headerIdx < index.mem.latestIndex
  rooted
    : ∃ root, index.mem.getOffset index.rootIdx = .ok root
      ∧ Allocated base index.mem.curSize root
  rootOld : index.rootIdx < index.mem.latestIndex

/-- Every node of the new memory is one of the old memory, up to a parent that is linked. -/
theorem Arena.rewrite {loose : Option Nat} (arena : Arena base size mem loose)
    (nodes
      : ∀ offset, Allocated base size offset
        → Bounded base size (nodeLayout.load next offset)
          ∧ (nodeLayout.load next offset).isLeaf = (nodeLayout.load mem offset).isLeaf
          ∧ (((nodeLayout.load next offset).parent = (nodeLayout.load mem offset).parent
              ∧ some offset ≠ loose)
            ∨ Linked base size mem (nodeLayout.load next offset)))
    : Arena base size next none := by
  have keeps : Keeps base size mem next := ⟨fun offset there => (nodes offset there).2.1⟩
  refine ⟨fun offset there => (nodes offset there).1, fun offset there _ => ?_⟩
  rcases (nodes offset there).2.2 with ⟨same, firm⟩ | linked
  · have old := (arena.linked offset there firm).mono (le_refl _) keeps
    exact old.congr same
  · exact linked.mono (le_refl _) keeps

/-- Listing the loose node in a parent with room. -/
theorem Arena.list {right : Nat} (arena : Arena base size mem (some right)) (room : 608 ≤ base)
    (there : Allocated base size right) (parent : Allocated base size offset)
    (apart : right ≠ offset) (inner : (nodeLayout.load mem offset).isLeaf = false)
    (notFull : (nodeLayout.load mem offset).numKeys ≠ ORDER - 1) (k v : Int)
    : Arena base size
          (setParent (insertIntoNode mem offset k v false right).2 right (offset : Int)) none
      ∧ SameRecords base mem
          (setParent (insertIntoNode mem offset k v false right).2 right (offset : Int)) := by
  have bounded := arena.bounded offset parent
  have space : (nodeLayout.load mem offset).numKeys < ORDER - 1 :=
    lt_of_le_of_ne bounded.full notFull
  have listed := bounded.insert mem k v right space (fun _ => there)
  obtain ⟨_, kind, same⟩ :=
    IndexNode.insertIntoCopy_members mem (nodeLayout.load mem offset) k v right false space
  have stored : (insertIntoNode mem offset k v false right).2
      = nodeLayout.store mem offset
          (insertIntoCopy mem (nodeLayout.load mem offset) k v false right).2 := by
    simp only [insertIntoNode]
  rw [stored]
  generalize (insertIntoCopy mem (nodeLayout.load mem offset) k v false right).2 = filled at *
  refine ⟨arena.rewrite fun other old => ?_,
    (SameRecords.store room parent.1 _ _).trans (SameRecords.store room there.1 _ _)⟩
  by_cases isRight : other = right
  · subst isRight
    rw [load_setParent_same, load_store_other room parent.1 there.1 apart]
    have fits := arena.bounded other old
    have below (node : IndexNode) := Linked.below node parent inner
    generalize nodeLayout.load mem other = node at *
    exact ⟨fits.withParent _, rfl, Or.inr (below node)⟩
  · rw [load_setParent_other room there.1 old.1 isRight]
    have firm : some other ≠ some right := fun same => isRight (Option.some.inj same)
    by_cases here : other = offset
    · rw [here, Layout.load_store_same]
      exact ⟨listed, kind, Or.inl ⟨same, here ▸ firm⟩⟩
    · rw [load_store_other room parent.1 old.1 here]
      exact ⟨arena.bounded other old, rfl, Or.inl ⟨rfl, firm⟩⟩

section Insert

variable {index new : BPLUSIndex}

/-- A root grown above two nodes, the right one loose. -/
theorem Shaped.growRoot {left right : Nat} {result : Int × BPLUSIndex}
    (shaped : Shaped base index (some right)) (there : Allocated base index.mem.curSize left)
    (loose : Allocated base index.mem.curSize right) (distinct : left ≠ right) (nkey : Int)
    (outcome : index.growRoot left right nkey = .ok result)
    : Shaped base result.2 none ∧ Progress base index result.2 := by
  obtain ⟨count, frontier⟩ := shaped.frontier
  have placeGrown : NodePlace base index.mem.curSize := Or.inr ⟨count, frontier⟩
  have below {other : Nat} (old : Allocated base index.mem.curSize other)
      : other ≠ index.mem.curSize := fun same => by
    have inside := old.2
    omega
  have kept {other : Nat} (old : Allocated base index.mem.curSize other) :=
    load_handedOut index.mem.mem old
  have records := SameRecords.handedOut index.mem.mem shaped.room frontier
  rw [growRoot_eq index left right nkey shaped.header shaped.headerOld, Except.ok.injEq] at outcome
  subst outcome
  obtain ⟨cells, header, loads⟩ := grownImage_spec shaped.room placeGrown there.1 loose.1 distinct
    (below there) (below loose) (index.mem.mem.clear index.mem.curSize nodeLayout.size) nkey
  have regions := TireFire.Extends.getTire index.mem nodeLayout.size
  rw [records.header] at header
  generalize index.mem.mem.clear index.mem.curSize nodeLayout.size = cleared at *
  generalize grownImage cleared index.mem.curSize left right nkey = final at *
  have grows : index.mem.curSize ≤ index.mem.curSize + 584 := Nat.le_add_right _ _
  have top : Allocated base (index.mem.curSize + 584) index.mem.curSize :=
    ⟨placeGrown, le_refl _⟩
  have rootKind : (nodeLayout.load final index.mem.curSize).isLeaf = false := by
    rw [loads _ placeGrown, if_neg (below there).symm, if_neg (below loose).symm, if_pos rfl]
    rfl
  have pointed {other : Nat} (old : Allocated base index.mem.curSize other)
      (which : other = left ∨ other = right)
      : nodeLayout.load final other
        = { nodeLayout.load index.mem.mem other with parent := (index.mem.curSize : Int) } := by
    rw [loads other old.1, kept old]
    rcases which with isLeft | isRight
    · rw [if_pos isLeft]
    · rw [if_pos isRight, ite_self]
  have same {other : Nat} (old : Allocated base index.mem.curSize other)
      (neither : ¬ (other = left ∨ other = right))
      : nodeLayout.load final other = nodeLayout.load index.mem.mem other := by
    rw [loads other old.1, if_neg fun isLeft => neither (Or.inl isLeft),
      if_neg fun isRight => neither (Or.inr isRight), if_neg (below old), kept old]
  have keeps : Keeps base index.mem.curSize index.mem.mem final := by
    constructor
    intro other old
    by_cases which : other = left ∨ other = right
    · rw [pointed old which]
    · rw [same old which]
  refine ⟨?_, rfl, ⟨regions.grows, regions.kept⟩, ?_, ?_⟩
  · refine {
      bounded := ?_
      linked := ?_
      room := shaped.room
      frontier := ⟨count + 1, by
        have size : (withNode index final).mem.curSize = index.mem.curSize + 584 := rfl
        rw [size]
        omega⟩
      hasRoot := shaped.hasRoot
      header := (regions.kept _ shaped.headerOld).trans shaped.header
      headerOld := Nat.lt_succ_of_lt shaped.headerOld
      rooted := ⟨index.mem.curSize, TireFire.getTire_getOffset_new index.mem nodeLayout.size, top⟩
      rootOld := Nat.lt_succ_self _
    }
    · intro other allocated
      rcases Allocated.cases shaped.room frontier allocated with old | rfl
      · by_cases which : other = left ∨ other = right
        · have fits := (shaped.bounded other old).mono grows
          simp only [withNode_mem]
          rw [pointed old which]
          exact fits.withParent _
        · have fits := (shaped.bounded other old).mono grows
          simp only [withNode_mem]
          rw [same old which]
          exact fits
      · simp only [withNode_mem]
        rw [loads _ placeGrown, if_neg (below there).symm, if_neg (below loose).symm, if_pos rfl]
        refine ⟨(show 1 ≤ ORDER - 1 by decide), fun _ => Nat.one_pos, fun _ child member => ?_⟩
        rw [newRootNode_liveChildren] at member
        simp only [List.mem_cons, List.not_mem_nil, or_false] at member
        rcases member with rfl | rfl
        · exact there.mono grows
        · exact loose.mono grows
    · intro other allocated _
      rcases Allocated.cases shaped.room frontier allocated with old | rfl
      · by_cases which : other = left ∨ other = right
        · simp only [withNode_mem]
          rw [pointed old which]
          exact .below _ top rootKind
        · have firm : some other ≠ some right := fun equal =>
            which (Or.inr (Option.some.inj equal))
          have linked := (shaped.linked other old firm).mono grows keeps
          simp only [withNode_mem]
          rw [same old which]
          exact linked
      · simp only [withNode_mem]
        rw [loads _ placeGrown, if_neg (below there).symm, if_neg (below loose).symm, if_pos rfl]
        exact Or.inl rfl
  · intro address low high
    exact (cells address low high).trans (records address (Or.inr ⟨low, high⟩))
  · change headerLayout.load final 0
      = { headerLayout.load index.mem.mem 0 with root := (headerLayout.load final 0).root }
    rw [header]

/-- What a call of `split_insert_node` works on: a leaf, or an inner node that a loose node is to
be hung below.
-/
inductive Job (base : Nat) (index : BPLUSIndex) (offset : Nat) : Bool → Int → Option Nat → Prop
  | leaf (targ : Int) (kind : (nodeLayout.load index.mem.mem offset).isLeaf = true)
    : Job base index offset false targ none
  | inner {targ target : Nat} (kind : (nodeLayout.load index.mem.mem offset).isLeaf = false)
    (known : index.mem.getOffset targ = .ok target) (older : targ < index.mem.latestIndex)
    (there : Allocated base index.mem.curSize target) (apart : target ≠ offset)
    : Job base index offset true targ (some target)

/-- The node itself is not loose. -/
theorem Job.firm {loose : Option Nat} {isparent : Bool} {targ : Int}
    (job : Job base index offset isparent targ loose)
    : some offset ≠ loose := by
  cases job with
  | leaf => simp
  | inner _ _ _ _ apart => simpa using Ne.symm apart

/-- The halves are in the image, and the right one is loose. -/
theorem Shaped.splitHalves {loose : Option Nat} {isparent : Bool} {targ k v : Int}
    (shaped : Shaped base index loose) (job : Job base index offset isparent targ loose)
    (there : Allocated base index.mem.curSize offset)
    (full : (nodeLayout.load index.mem.mem offset).numKeys = ORDER - 1)
    : ∃ medKeyOf final,
        index.splitHalves offset k v isparent targ
          = .ok (index.mem.latestIndex, index.mem.curSize, medKeyOf, withNode index final)
        ∧ SplitArena base index.mem.curSize index.mem.mem final offset := by
  obtain ⟨count, frontier⟩ := shaped.frontier
  cases job with
  | leaf targ kind =>
      rw [splitHalves_leaf]
      exact ⟨_, _, rfl, shaped.toArena.splitLeaf shaped.room frontier there kind full _ _ _⟩
  | inner kind known older hung apart =>
      rw [splitHalves_inner index offset k v known older]
      exact ⟨_, _, rfl,
        shaped.toArena.splitInner shaped.room frontier there hung apart kind full _ _ _⟩

/-- An index with split halves is in shape, but for the loose half. -/
theorem SplitArena.shaped {loose : Option Nat} {final : Mem} (shaped : Shaped base index loose)
    (split : SplitArena base index.mem.curSize index.mem.mem final offset)
    : Shaped base (withNode index final) (some index.mem.curSize)
      ∧ Progress base index (withNode index final) := by
  obtain ⟨count, frontier⟩ := shaped.frontier
  obtain ⟨root, rooted, live⟩ := shaped.rooted
  have regions := TireFire.Extends.getTire index.mem nodeLayout.size
  have size : (withNode index final).mem.curSize = index.mem.curSize + 584 := rfl
  refine ⟨?_, IndexOk.progress split.records⟩
  exact {
    toArena := split.arena
    room := shaped.room
    frontier := ⟨count + 1, by
      rw [size]
      omega⟩
    hasRoot := shaped.hasRoot
    header := (regions.kept _ shaped.headerOld).trans shaped.header
    headerOld := Nat.lt_succ_of_lt shaped.headerOld
    rooted := ⟨root, (regions.kept _ shaped.rootOld).trans rooted,
      live.mono (Nat.le_add_right _ _)⟩
    rootOld := Nat.lt_succ_of_lt shaped.rootOld
  }

/-- New node bytes that form an arena keep the index in shape. -/
theorem Shaped.rewritten {loose : Option Nat} (shaped : Shaped base index loose)
    (arena : Arena base index.mem.curSize next none)
    (records : SameRecords base index.mem.mem next)
    : Shaped base (withBytes index next) none ∧ Progress base index (withBytes index next) :=
  ⟨{ toArena := arena
     room := shaped.room
     frontier := shaped.frontier
     hasRoot := shaped.hasRoot
     header := shaped.header
     headerOld := shaped.headerOld
     rooted := shaped.rooted
     rootOld := shaped.rootOld },
    Progress.ofRecords ⟨le_refl _, fun _ _ => rfl⟩ records⟩

/-- Where the right half of a split node is listed: below a new root, or in the left half's
parent.
-/
inductive Upward (base : Nat) (index : BPLUSIndex) (left right : Nat) : Prop
  | root (orphan : (index.mem.load nodeLayout left).parent = -1)
  | parent (paroff : Nat) (owner : (index.mem.load nodeLayout left).parent = (paroff : Int))
    (old : Allocated base index.mem.curSize paroff)
    (kind : (nodeLayout.load index.mem.mem paroff).isLeaf = false) (below : right ≠ paroff)

/-- A full node splits into halves that leave the index in shape, but for the right one. -/
theorem Shaped.split {loose : Option Nat} {isparent : Bool} {targ : Int} (k v : Int)
    (shaped : Shaped base index loose) (job : Job base index offset isparent targ loose)
    (there : Allocated base index.mem.curSize offset)
    (full : (nodeLayout.load index.mem.mem offset).numKeys = ORDER - 1)
    : ∃ medKeyOf final,
        index.splitHalves offset k v isparent targ
          = .ok (index.mem.latestIndex, index.mem.curSize, medKeyOf, withNode index final)
        ∧ Shaped base (withNode index final) (some index.mem.curSize)
        ∧ Progress base index (withNode index final)
        ∧ Allocated base (withNode index final).mem.curSize offset
        ∧ Allocated base (withNode index final).mem.curSize index.mem.curSize
        ∧ Upward base (withNode index final) offset index.mem.curSize := by
  obtain ⟨medKeyOf, final, halves, split⟩ := shaped.splitHalves (k := k) (v := v) job there full
  obtain ⟨shaped', progress⟩ := split.shaped shaped
  obtain ⟨count, frontier⟩ := shaped.frontier
  have grows : index.mem.curSize ≤ (withNode index final).mem.curSize := Nat.le_add_right _ _
  have parentIs : ((withNode index final).mem.load nodeLayout offset).parent
      = (nodeLayout.load index.mem.mem offset).parent := split.parent
  refine ⟨medKeyOf, final, halves, shaped', progress, there.mono grows,
    ⟨Or.inr ⟨count, frontier⟩, le_refl _⟩, ?_⟩
  rcases shaped.linked offset there job.firm with orphan | ⟨paroff, owner, old, inner⟩
  · exact .root (parentIs.trans orphan)
  · refine .parent paroff (parentIs.trans owner) (old.mono grows)
      ((split.keeps.kinds paroff old).trans inner) fun same => ?_
    have inside := old.2
    omega

/-- The right half of a split is hung below a full parent by splitting that one. -/
theorem Job.upward {final : Mem} {paroff : Nat}
    (kind : (nodeLayout.load (withNode index final).mem.mem paroff).isLeaf = false)
    (right : Allocated base (withNode index final).mem.curSize index.mem.curSize)
    (below : index.mem.curSize ≠ paroff)
    : Job base (withNode index final) paroff true (index.mem.latestIndex : Int)
        (some index.mem.curSize) :=
  .inner kind (TireFire.getTire_getOffset_new index.mem nodeLayout.size) (Nat.lt_succ_self _)
    right below

/-- Splitting full nodes up to one with room keeps the index in shape, by induction on the
fuel.
-/
theorem Shaped.splitInsertNode {loose : Option Nat} {isparent : Bool} {targ k v : Int}
    {fuel : Nat} {result : Int × BPLUSIndex} (shaped : Shaped base index loose)
    (job : Job base index offset isparent targ loose)
    (there : Allocated base index.mem.curSize offset)
    (full : (nodeLayout.load index.mem.mem offset).numKeys = ORDER - 1)
    (outcome : BPLUSIndex.splitInsertNode fuel index offset k v isparent targ = .ok result)
    : Shaped base result.2 none ∧ Progress base index result.2 := by
  induction fuel generalizing index offset k v isparent targ loose result with
  | zero => cases outcome
  | succ fuel ih =>
      obtain ⟨medKeyOf, final, halves, shaped', progress, left, right, upward⟩ :=
        shaped.split k v job there full
      have isFull : ¬ ((index.mem.load nodeLayout offset).numKeys ≠ ORDER - 1) :=
        fun other => other full
      rw [BPLUSIndex.splitInsertNode, if_neg isFull, halves, ok_bind] at outcome
      dsimp only at outcome
      unfold BPLUSIndex.listRight at outcome
      dsimp only at outcome
      cases upward with
      | root orphan =>
          -- The halves were the root.
          rw [if_pos orphan] at outcome
          have distinct : offset ≠ index.mem.curSize := fun same => by
            have inside := there.2
            omega
          obtain ⟨grown, more⟩ := shaped'.growRoot left right distinct _ outcome
          exact ⟨grown, progress.trans more⟩
      | parent paroff owner old kind below =>
          rw [owner, if_neg (by omega), Int.toNat_natCast] at outcome
          by_cases parentFull : ((withNode index final).mem.load nodeLayout paroff).numKeys
              = ORDER - 1
          · -- The parent has no room, either.
            rw [if_pos parentFull] at outcome
            obtain ⟨⟨index', more⟩, again, same⟩ := bind_eq_ok.mp outcome
            obtain rfl := Except.ok.inj same
            obtain ⟨done, further⟩ := ih shaped' (.upward kind right below) old parentFull again
            exact ⟨done, progress.trans further⟩
          · rw [if_neg parentFull] at outcome
            obtain rfl := Except.ok.inj outcome
            obtain ⟨arena, records⟩ := shaped'.toArena.list shaped.room right old below kind
              parentFull (if isparent then medKeyOf
                else ((withNode index final).mem.load nodeLayout index.mem.curSize).key 0) v
            obtain ⟨done, more⟩ := shaped'.rewritten arena records
            exact ⟨done, progress.trans more⟩

-----------------------------------------------------------------------------------------
-- Linking a key
-----------------------------------------------------------------------------------------

/-- A loop that keeps the last fitting element keeps one of the list, by induction on it. -/
theorem foldl_pick {A : Type} (P : A → Prop) [DecidablePred P] (values : List A) (start : A)
    : values.foldl (fun kept value => if P value then value else kept) start = start
      ∨ values.foldl (fun kept value => if P value then value else kept) start ∈ values := by
  induction values generalizing start with
  | nil => exact Or.inl rfl
  | cons head rest ih =>
      rw [List.foldl_cons]
      rcases ih (if P head then head else start) with same | member
      · rw [same]
        split
        · exact Or.inr (List.mem_cons_self ..)
        · exact Or.inl rfl
      · exact Or.inr (List.mem_cons_of_mem _ member)

/-- A descent ends in a leaf, by induction on the fuel. -/
theorem Arena.findNodeFrom {loose : Option Nat} {key : Bytes} {fuel leaf : Nat}
    (arena : Arena base size mem loose) (there : Allocated base size offset)
    (outcome : ZippyFS.findNodeFrom mem key fuel offset = .ok leaf)
    : Allocated base size leaf ∧ (nodeLayout.load mem leaf).isLeaf = true := by
  induction fuel generalizing offset with
  | zero => cases outcome
  | succ fuel ih =>
      rw [ZippyFS.findNodeFrom] at outcome
      by_cases kind : (nodeLayout.load mem offset).isLeaf = true
      · rw [if_pos kind] at outcome
        obtain rfl := Except.ok.inj outcome
        exact ⟨there, kind⟩
      · have inner : (nodeLayout.load mem offset).isLeaf = false := Bool.eq_false_iff.mpr kind
        have bounded := arena.bounded offset there
        have some := bounded.nonempty inner
        have live {index : Nat} (inside : index ≤ (nodeLayout.load mem offset).numKeys)
            : Allocated base size ((nodeLayout.load mem offset).child index) :=
          bounded.children inner _
            (List.mem_map.mpr ⟨index, List.mem_range.mpr (Nat.lt_succ_of_le inside), rfl⟩)
        rw [if_neg kind] at outcome
        split at outcome
        · exact ih (live (Nat.zero_le _)) outcome
        · split at outcome
          · exact ih (live (by omega)) outcome
          · refine ih (live ?_) outcome
            have picked := foldl_pick
              (fun ii => strcmp (keyAt mem ((nodeLayout.load mem offset).key ii)) key = .lt
                ∧ strcmp key (keyAt mem ((nodeLayout.load mem offset).key (ii + 1))) = .lt)
              (List.range' 1 ((nodeLayout.load mem offset).numKeys - 1)) 0
            rcases picked with none | member
            · rw [none]
              exact some
            · have bounds := List.mem_range'_1.mp member
              omega

/-- Linking a key keeps the index in shape. -/
theorem Shaped.insertKey {key : Bytes} {keyOf inodeOf : Int} (shaped : Shaped base index none)
    (outcome : index.insertKey key keyOf inodeOf = .ok new)
    : Shaped base new none ∧ Progress base index new := by
  obtain ⟨root, rooted, live⟩ := shaped.rooted
  unfold BPLUSIndex.insertKey at outcome
  obtain ⟨target, found, rest⟩ := bind_eq_ok.mp outcome
  rw [BPLUSIndex.findNodeToStore, shaped.hasRoot, if_neg (by decide), rooted, ok_bind] at found
  obtain ⟨there, leaf⟩ := shaped.toArena.findNodeFrom live found
  by_cases full : (index.mem.load nodeLayout target).numKeys = ORDER - 1
  · rw [if_pos full] at rest
    obtain ⟨result, split, same⟩ := bind_eq_ok.mp rest
    obtain rfl := Except.ok.inj same
    exact shaped.splitInsertNode (.leaf (-1) leaf) there full split
  · rw [if_neg full] at rest
    obtain rfl := Except.ok.inj rest
    have fits := shaped.bounded target there
    have space : (nodeLayout.load index.mem.mem target).numKeys < ORDER - 1 :=
      lt_of_le_of_ne fits.full full
    have filled := fits.insert index.mem.mem keyOf inodeOf (-1) space fun inner =>
      absurd (leaf.symm.trans inner) (by decide)
    obtain ⟨_, kind, parent⟩ := IndexNode.insertIntoCopy_members index.mem.mem
      (nodeLayout.load index.mem.mem target) keyOf inodeOf (-1) false space
    have stored : (insertIntoNode index.mem.mem target keyOf inodeOf false (-1)).2
        = nodeLayout.store index.mem.mem target (insertIntoCopy index.mem.mem
            (nodeLayout.load index.mem.mem target) keyOf inodeOf false (-1)).2 := by
      simp only [insertIntoNode]
    rw [stored]
    generalize (insertIntoCopy index.mem.mem (nodeLayout.load index.mem.mem target) keyOf inodeOf
      false (-1)).2 = node at *
    refine shaped.rewritten (shaped.toArena.rewrite fun other old => ?_)
      (SameRecords.store shaped.room there.1 _ _)
    by_cases here : other = target
    · rw [here, Layout.load_store_same]
      exact ⟨filled, kind, Or.inl ⟨parent, by simp⟩⟩
    · rw [load_store_other shaped.room there.1 old.1 here]
      exact ⟨shaped.bounded other old, rfl, Or.inl ⟨rfl, by simp⟩⟩

end Insert

end ZippyFS
