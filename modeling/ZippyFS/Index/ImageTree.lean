import ZippyFS.Index.NodeSplit
import ZippyFS.Lib.TreeOverflow

/-! The invariant of an index image between and inside insertions: live nodes lie at node
places, point to stored keys, and are filled within bounds.
-/

namespace ZippyFS

open CellMemory StructLayout ByteOrder SearchTree

/-- Later allocations keep the regions of earlier ones. -/
structure TireFire.Extends (old new : TireFire) : Prop where
  grows : old.latestIndex ≤ new.latestIndex
  kept : ∀ index < old.latestIndex, new.getOffset index = old.getOffset index

theorem TireFire.Extends.trans {first second third : TireFire}
    (left : TireFire.Extends first second) (right : TireFire.Extends second third)
    : TireFire.Extends first third :=
  ⟨left.grows.trans right.grows, fun index old =>
    (right.kept index (old.trans_le left.grows)).trans (left.kept index old)⟩

theorem TireFire.Extends.getTire (tires : TireFire) (size : Nat)
    : TireFire.Extends tires (tires.getTire size).2 :=
  ⟨Nat.le_succ _, fun index old =>
    TireFire.getTire_getOffset_old tires size index (Nat.ne_of_lt old)⟩

/-- The live nodes of an image. -/
structure NodesOk (base : Nat) (AtSlot : Int → Prop) (strings : Int → Bytes) (mem : Mem)
    (size : Nat) (spans : Nat → Option (Span Bytes)) (root : Nat)
    : Prop where
  room : 608 ≤ base
  frontier : ∃ count, size = base + 584 * count
  live : ∀ offset span, spans offset = some span → NodePlace base offset ∧ offset + 584 ≤ size
  within : ∀ key, AtSlot key → KeySlot base key
  known : ∀ key, AtSlot key → keyAt mem key = strings key
  slots
    : ∀ offset span, spans offset = some span → ∀ key ∈ (nodeLayout.load mem offset).liveKeys,
        AtSlot key
  full
    : ∀ offset span, spans offset = some span
      → (nodeLayout.load mem offset).numKeys ≤ ORDER - 1
  filled
    : ∀ offset span, spans offset = some span → offset ≠ root
      → medIdx ≤ (nodeLayout.load mem offset).numKeys
  nonempty
    : ∀ offset span, spans offset = some span → 0 < (nodeLayout.load mem offset).numKeys

/-- A whole index: its image, and the regions its members name. -/
structure IndexOk (base : Nat) (AtSlot : Int → Prop) (strings : Int → Bytes) (index : BPLUSIndex)
    (spans : Nat → Option (Span Bytes)) (root top : Nat)
    : Prop extends NodesOk base AtSlot strings index.mem.mem index.mem.curSize spans root where
  hasRoot : index.hasRoot = true
  header : index.mem.getOffset index.headerIdx = .ok 0
  rooted : index.mem.getOffset index.rootIdx = .ok root
  headerOld : index.headerIdx < index.mem.latestIndex
  rootOld : index.rootIdx < index.mem.latestIndex
  pointer : (headerLayout.load index.mem.mem 0).root = root
  tall : top + 7 ≤ index.mem.latestIndex
  sized : index.mem.latestIndex ≤ index.mem.curSize

/-- What every part of an insertion leaves alone. -/
structure Progress (base : Nat) (old new : BPLUSIndex) : Prop where
  cursors : new = { old with mem := new.mem, rootIdx := new.rootIdx }
  regions : TireFire.Extends old.mem new.mem
  records
    : ∀ address, 608 ≤ address → address < base
      → new.mem.mem.cell address = old.mem.mem.cell address
  header
    : headerLayout.load new.mem.mem 0
      = { headerLayout.load old.mem.mem 0 with
          root := (headerLayout.load new.mem.mem 0).root }

theorem Progress.trans {base : Nat} {first second third : BPLUSIndex}
    (left : Progress base first second) (right : Progress base second third)
    : Progress base first third := by
  refine ⟨?_, left.regions.trans right.regions, ?_, ?_⟩
  · rw [right.cursors, left.cursors]
  · exact fun address low high =>
      (right.records address low high).trans (left.records address low high)
  · rw [right.header, left.header]

/-- Changing only node bytes is progress. -/
theorem Progress.ofRecords {base : Nat} {old : BPLUSIndex} {mem : TireFire}
    (regions : TireFire.Extends old.mem mem) (same : SameRecords base old.mem.mem mem.mem)
    : Progress base old { old with mem := mem } := by
  refine ⟨rfl, regions, fun address low high => same address (Or.inr ⟨low, high⟩), ?_⟩
  simp only [same.header]

section Nodes

variable {base size root : Nat} {AtSlot : Int → Prop} {strings : Int → Bytes} {mem next : Mem}
  {spans : Nat → Option (Span Bytes)}

/-- The next node to be allocated lies at a node place, and no live node is there. -/
theorem NodesOk.fresh (ok : NodesOk base AtSlot strings mem size spans root)
    : NodePlace base size ∧ spans size = none := by
  obtain ⟨count, frontier⟩ := ok.frontier
  refine ⟨Or.inr ⟨count, frontier⟩, ?_⟩
  cases live : spans size with
  | none => rfl
  | some span =>
      have inside := (ok.live size span live).2
      omega

/-- The place of the next node is above the records. -/
theorem NodesOk.base_le (ok : NodesOk base AtSlot strings mem size spans root) : base ≤ size := by
  obtain ⟨count, frontier⟩ := ok.frontier
  omega

/-- Allocating a node changes no live node. -/
theorem NodesOk.load_allocated (ok : NodesOk base AtSlot strings mem size spans root) {offset : Nat}
    {span : Span Bytes} (live : spans offset = some span)
    : nodeLayout.load (mem.clear size nodeLayout.size) offset = nodeLayout.load mem offset := by
  apply Layout.load_congr
  intro address _ last
  apply Mem.clear_outside
  have inside := (ok.live offset span live).2
  simp only [nodeLayout_size] at last
  omega

/-- Allocating a node changes no record. -/
theorem NodesOk.records_allocated (ok : NodesOk base AtSlot strings mem size spans root)
    : SameRecords base mem (mem.clear size nodeLayout.size) := by
  intro address kept
  apply Mem.clear_outside
  have above := ok.base_le
  have room := ok.room
  omega

/-- An allocated node is empty. -/
theorem load_allocated_zero (mem : Mem) (size : Nat)
    : nodeLayout.load (mem.clear size nodeLayout.size) size = nodeLayout.zero :=
  Layout.load_clear_same nodeLayout mem size

/-- The strings behind the live keys of a live node are the ones its comparisons see. -/
theorem NodesOk.keyAt (ok : NodesOk base AtSlot strings mem size spans root) {offset : Nat}
    {span : Span Bytes} (live : spans offset = some span)
    (same : SameRecords base mem next)
    : ∀ key ∈ (nodeLayout.load mem offset).liveKeys, keyAt next key = strings key := by
  intro key member
  have slot := ok.slots offset span live key member
  exact (same.keyAt (ok.within key slot)).trans (ok.known key slot)

end Nodes

-----------------------------------------------------------------------------------------
-- Splitting a full leaf
-----------------------------------------------------------------------------------------

/-- The state after the halves were separated: the right half is not listed yet. -/
structure HalvesOk (base : Nat) (AtSlot : Int → Prop) (strings : Int → Bytes) (old new : BPLUSIndex)
    (spans : Nat → Option (Span Bytes)) (root top left rightidx right : Nat) (medKeyOf : Int)
    : Prop where
  slot : AtSlot medKeyOf
  ok : IndexOk base AtSlot strings new (narrowed spans left right (strings medKeyOf)) root top
  split
    : SearchTree.Split (heapOf strings new.mem.mem) spans root top left right
        (strings medKeyOf)
  leftFill : medIdx ≤ (nodeLayout.load new.mem.mem left).numKeys
  offset : new.mem.getOffset rightidx = .ok right
  older : rightidx < new.mem.latestIndex
  progress : Progress base old new

section Halves

variable {base root top : Nat} {AtSlot : Int → Prop} {strings : Int → Bytes} {index : BPLUSIndex}
  {spans : Nat → Option (Span Bytes)} {mem : Mem}

/-- The index with a fresh node allocated behind its image and new node bytes. -/
def withNode (index : BPLUSIndex) (mem : Mem) : BPLUSIndex :=
  { index with mem := (index.mem.getTire nodeLayout.size).2.withMem mem }

@[simp] theorem withNode_mem (index : BPLUSIndex) (mem : Mem)
    : (withNode index mem).mem.mem = mem := rfl

@[simp] theorem withNode_latestIndex (index : BPLUSIndex) (mem : Mem)
    : (withNode index mem).mem.latestIndex = index.mem.latestIndex + 1 := rfl

/-- Allocating a node and writing nodes is progress. -/
theorem IndexOk.progress (same : SameRecords base index.mem.mem mem)
    : Progress base index (withNode index mem) := by
  have regions := TireFire.Extends.getTire index.mem nodeLayout.size
  exact Progress.ofRecords ⟨regions.grows, regions.kept⟩ same

/-- Separated halves that are filled and point to keys keep the index intact. -/
theorem IndexOk.halves (ok : IndexOk base AtSlot strings index spans root top) {left : Nat}
    {span : Span Bytes} (separator : Bytes) (live : spans left = some span)
    (same : SameRecords base index.mem.mem mem)
    (leftSlots : ∀ key ∈ (nodeLayout.load mem left).liveKeys, AtSlot key)
    (rightSlots
      : ∀ key ∈ (nodeLayout.load mem index.mem.curSize).liveKeys, AtSlot key)
    (leftFill
      : medIdx ≤ (nodeLayout.load mem left).numKeys
        ∧ (nodeLayout.load mem left).numKeys ≤ ORDER - 1)
    (rightFill
      : medIdx ≤ (nodeLayout.load mem index.mem.curSize).numKeys
        ∧ (nodeLayout.load mem index.mem.curSize).numKeys ≤ ORDER - 1)
    (others
      : ∀ other span, spans other = some span → other ≠ left
        → (nodeLayout.load mem other).liveKeys
            = (nodeLayout.load index.mem.mem other).liveKeys)
    : IndexOk base AtSlot strings (withNode index mem)
        (narrowed spans left index.mem.curSize separator) root top := by
  have counts : ∀ other span, spans other = some span → other ≠ left
      → (nodeLayout.load mem other).numKeys = (nodeLayout.load index.mem.mem other).numKeys := by
    intro other span live away
    have sizes := congrArg List.length (others other span live away)
    simpa using sizes
  have liveIff := narrowed_live_iff index.mem.curSize separator ⟨span, live⟩
  have fresh := ok.fresh
  have regions := TireFire.Extends.getTire index.mem nodeLayout.size
  obtain ⟨count, frontier⟩ := ok.frontier
  refine {
    room := ok.room
    frontier := ⟨count + 1, ?_⟩
    live := ?_
    within := ok.within
    known := fun key slot => (same.keyAt (ok.within key slot)).trans (ok.known key slot)
    slots := ?_
    full := ?_
    filled := ?_
    nonempty := ?_
    hasRoot := ok.hasRoot
    header := (regions.kept _ ok.headerOld).trans ok.header
    rooted := (regions.kept _ ok.rootOld).trans ok.rooted
    headerOld := Nat.lt_succ_of_lt ok.headerOld
    rootOld := Nat.lt_succ_of_lt ok.rootOld
    pointer := ?_
    tall := Nat.le_succ_of_le ok.tall
    sized := ?_
  }
  · simp only [withNode, TireFire.withMem, TireFire.getTire_curSize, nodeLayout_size]
    omega
  · intro other span' live'
    simp only [withNode, TireFire.withMem, TireFire.getTire_curSize, nodeLayout_size]
    rcases (liveIff other).mp ⟨span', live'⟩ with rfl | ⟨old, oldLive⟩
    · exact ⟨fresh.1, le_refl _⟩
    · have inside := ok.live other old oldLive
      exact ⟨inside.1, by omega⟩
  · intro other span' live'
    rcases (liveIff other).mp ⟨span', live'⟩ with rfl | ⟨old, oldLive⟩
    · exact rightSlots
    · by_cases here : other = left
      · exact here ▸ leftSlots
      · simp only [withNode_mem]
        rw [others other old oldLive here]
        exact ok.slots other old oldLive
  · intro other span' live'
    rcases (liveIff other).mp ⟨span', live'⟩ with rfl | ⟨old, oldLive⟩
    · exact rightFill.2
    · by_cases here : other = left
      · exact here ▸ leftFill.2
      · simp only [withNode_mem]
        rw [counts other old oldLive here]
        exact ok.full other old oldLive
  · intro other span' live' notRoot
    rcases (liveIff other).mp ⟨span', live'⟩ with rfl | ⟨old, oldLive⟩
    · exact rightFill.1
    · by_cases here : other = left
      · exact here ▸ leftFill.1
      · simp only [withNode_mem]
        rw [counts other old oldLive here]
        exact ok.filled other old oldLive notRoot
  · intro other span' live'
    have some : 0 < medIdx := by decide
    rcases (liveIff other).mp ⟨span', live'⟩ with rfl | ⟨old, oldLive⟩
    · exact some.trans_le rightFill.1
    · by_cases here : other = left
      · exact here ▸ some.trans_le leftFill.1
      · simp only [withNode_mem]
        rw [counts other old oldLive here]
        exact ok.nonempty other old oldLive
  · simp only [withNode_mem]
    rw [same.header, ok.pointer]
  · have sized := ok.sized
    simp only [withNode, TireFire.withMem, TireFire.getTire_curSize,
      TireFire.getTire_latestIndex, nodeLayout_size]
    omega

/-- A leaf split ends with its two halves in memory. -/
theorem splitHalves_leaf (index : BPLUSIndex) (nodeoffset : Nat) (k v : Int) (targ : Int)
    : let mem := index.mem.mem.clear index.mem.curSize nodeLayout.size
      let medKeyOf := (nodeLayout.load mem nodeoffset).key medIdx
      index.splitHalves nodeoffset k v false targ
        = .ok (index.mem.latestIndex, index.mem.curSize, medKeyOf,
            withNode index (splitLeafNode mem nodeoffset index.mem.curSize k v
              (decide (strcmp (keyAt mem k) (keyAt mem medKeyOf) = .lt)))) := by
  have offset := TireFire.getTire_getOffset_new index.mem nodeLayout.size
  simp only [BPLUSIndex.splitHalves, TireFire.getTire_index, offset, bind, Except.bind, pure,
    Except.pure, Bool.false_eq_true, if_false]
  rfl

/-- An inner split ends with its two halves in memory. -/
theorem splitHalves_inner (index : BPLUSIndex) (nodeoffset : Nat) (k v : Int)
    {targ target : Nat} (known : index.mem.getOffset targ = .ok target)
    (older : targ < index.mem.latestIndex)
    : let mem := index.mem.mem.clear index.mem.curSize nodeLayout.size
      let medKeyOf := (nodeLayout.load mem nodeoffset).key medIdx
      index.splitHalves nodeoffset k v true targ
        = .ok (index.mem.latestIndex, index.mem.curSize, medKeyOf,
            withNode index (splitInnerNode mem nodeoffset index.mem.curSize k v
              (decide (strcmp (keyAt mem k) (keyAt mem medKeyOf) = .lt)) target)) := by
  have offset := TireFire.getTire_getOffset_new index.mem nodeLayout.size
  have kept := ((TireFire.Extends.getTire index.mem nodeLayout.size).kept _ older).trans known
  simp only [BPLUSIndex.splitHalves, TireFire.getTire_index, offset, bind, Except.bind, pure,
    Except.pure, if_true, Int.toNat_natCast, kept]
  rfl

end Halves

end ZippyFS
