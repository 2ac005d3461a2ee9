import ZippyFS.Index.RecordList
import ZippyFS.Index.TreeFile

/-! No write of `add_inode` leaves its file: the regions of the records lie before the nodes, nodes
are the ones handed out, and `parent` members are set in such nodes only. A file that is written
out and mapped again is thus the image it was.
-/

namespace ZippyFS

open CellMemory StructLayout Outcomes

variable {base size offset : Nat} {mem : Mem}

-----------------------------------------------------------------------------------------
-- Stores
-----------------------------------------------------------------------------------------

/-- A structure that is stored inside leaves the end blank. -/
theorem blank_store {A : Type} (layout : Layout A) (blank : mem.BlankFrom size)
    (inside : offset + layout.size ≤ size) (value : A)
    : (layout.store mem offset value).BlankFrom size :=
  blank.congr fun _ behind => Layout.store_outside layout _ _ _ _ (Or.inr (inside.trans behind))

/-- So does a node that was handed out. -/
theorem blank_storeNode (blank : mem.BlankFrom size) (there : Allocated base size offset)
    (node : IndexNode)
    : (nodeLayout.store mem offset node).BlankFrom size :=
  blank_store nodeLayout blank there.2 node

theorem blank_setParent (blank : mem.BlankFrom size) (there : Allocated base size offset)
    (parent : Int)
    : (setParent mem offset parent).BlankFrom size :=
  blank_storeNode blank there _

theorem blank_insertIntoNode (blank : mem.BlankFrom size) (there : Allocated base size offset)
    (k v : Int) (isleft : Bool) (child : Int)
    : (insertIntoNode mem offset k v isleft child).2.BlankFrom size := by
  simp only [insertIntoNode]
  exact blank_storeNode blank there _

/-- A leaf split writes both halves. -/
theorem blank_splitLeafNode {right : Nat} (blank : mem.BlankFrom size)
    (there : Allocated base size offset) (fresh : Allocated base size right) (k v : Int)
    (leftofmed : Bool)
    : (splitLeafNode mem offset right k v leftofmed).BlankFrom size := by
  unfold splitLeafNode
  dsimp only
  split
  · exact blank_insertIntoNode (blank_storeNode (blank_storeNode blank there _) fresh _) there
      _ _ _ _
  · exact blank_insertIntoNode (blank_storeNode (blank_storeNode blank there _) fresh _) fresh
      _ _ _ _

/-- Children that were handed out get a new parent inside, by induction on them. -/
theorem blank_setParents {children : List Nat} {parent : Int} (blank : mem.BlankFrom size)
    (there : ∀ child ∈ children, Allocated base size child)
    : (children.foldl (fun bytes child => setParent bytes child parent) mem).BlankFrom size := by
  induction children generalizing mem with
  | nil => exact blank
  | cons child rest ih =>
      exact ih (blank_setParent blank (there child (List.mem_cons_self ..)) parent)
        fun other later => there other (List.mem_cons_of_mem _ later)

/-- A split of an inner node writes both halves, the children that move, and the node that was
carried up.
-/
theorem blank_splitInnerNode {right target : Nat} (blank : mem.BlankFrom size)
    (there : Allocated base size offset) (fresh : Allocated base size right)
    (hung : Allocated base size target)
    (full : (nodeLayout.load mem offset).numKeys = ORDER - 1)
    (children : ∀ child ∈ (nodeLayout.load mem offset).liveChildren, Allocated base size child)
    (k v : Int) (leftofmed : Bool)
    : (splitInnerNode mem offset right k v leftofmed target).BlankFrom size := by
  have live {index : Nat} (inside : index ≤ ORDER - 1)
      : Allocated base size ((nodeLayout.load mem offset).child index) :=
    children _ (List.mem_map.mpr ⟨index, List.mem_range.mpr (by omega), rfl⟩)
  obtain ⟨-, -, -, -, -, -, same, -, -, -, bytes⟩ := IndexNode.moveInnerHalf_spec right
    (ORDER - 1 - (medIdx + 1)) (medIdx + 1) 0 (nodeLayout.load mem offset)
    { nodeLayout.load mem right with isLeaf := true } mem (by decide) (by decide)
  have moved : (((List.range' (medIdx + 1) (ORDER - 1 - (medIdx + 1))).map
      (nodeLayout.load mem offset).child).foldl
        (fun bytes child => setParent bytes child right) mem).BlankFrom size := by
    have there : ∀ child ∈ (List.range' (medIdx + 1) (ORDER - 1 - (medIdx + 1))).map
        (nodeLayout.load mem offset).child, Allocated base size child := by
      intro child member
      obtain ⟨index, inside, rfl⟩ := List.mem_map.mp member
      have bounds := List.mem_range'_1.mp inside
      exact live (by omega)
    exact blank_setParents blank there
  rw [← bytes] at moved
  have last : Allocated base size ((moveInnerHalf right (ORDER - 1 - (medIdx + 1)) (medIdx + 1) 0
      (nodeLayout.load mem offset) { nodeLayout.load mem right with isLeaf := true } mem).1.child
        (ORDER - 1)) := by
    rw [IndexNode.child, same]
    exact live (le_refl _)
  unfold splitInnerNode
  dsimp only
  generalize moveInnerHalf right (ORDER - 1 - (medIdx + 1)) (medIdx + 1) 0
    (nodeLayout.load mem offset) { nodeLayout.load mem right with isLeaf := true } mem = halves at *
  have stored := fun left above => blank_storeNode
    (blank_storeNode (blank_setParent moved last right) there left) fresh above
  split
  · exact blank_setParent (blank_insertIntoNode (stored _ _) there _ _ _ _) hung _
  · exact blank_setParent (blank_insertIntoNode (stored _ _) fresh _ _ _ _) hung _

-----------------------------------------------------------------------------------------
-- Splits
-----------------------------------------------------------------------------------------

variable {index new : BPLUSIndex}

/-- Nothing is written behind the end of the file. -/
def BPLUSIndex.Confined (index : BPLUSIndex) : Prop := index.mem.mem.BlankFrom index.mem.curSize

/-- Split halves are inside. -/
theorem BPLUSIndex.Confined.splitHalves {loose : Option Nat} {isparent : Bool} {targ k v : Int}
    {medKeyOf : Int} {final : Mem} (confined : index.Confined) (shaped : Shaped base index loose)
    (job : Job base index offset isparent targ loose)
    (there : Allocated base index.mem.curSize offset)
    (full : (nodeLayout.load index.mem.mem offset).numKeys = ORDER - 1)
    (outcome
      : index.splitHalves offset k v isparent targ
        = .ok (index.mem.latestIndex, index.mem.curSize, medKeyOf, withNode index final))
    : (withNode index final).Confined := by
  obtain ⟨count, frontier⟩ := shaped.frontier
  have grows : index.mem.curSize ≤ index.mem.curSize + 584 := Nat.le_add_right _ _
  have fresh : Allocated base (index.mem.curSize + 584) index.mem.curSize :=
    ⟨Or.inr ⟨count, frontier⟩, le_refl _⟩
  have cleared : (index.mem.mem.clear index.mem.curSize nodeLayout.size).BlankFrom
      (index.mem.curSize + 584) := confined.clear nodeLayout.size
  cases job with
  | leaf targ kind =>
      rw [splitHalves_leaf, Except.ok.injEq, Prod.mk.injEq, Prod.mk.injEq, Prod.mk.injEq] at outcome
      obtain ⟨-, -, -, same⟩ := outcome
      rw [← same]
      exact blank_splitLeafNode cleared (there.mono grows) fresh _ _ _
  | inner kind known older hung apart =>
      rw [splitHalves_inner index offset k v known older, Except.ok.injEq, Prod.mk.injEq,
        Prod.mk.injEq, Prod.mk.injEq] at outcome
      obtain ⟨-, -, -, same⟩ := outcome
      have kept := load_handedOut index.mem.mem there
      have bounded := (shaped.bounded offset there).mono grows
      rw [← same]
      refine blank_splitInnerNode cleared (there.mono grows) fresh (hung.mono grows) ?_ ?_ _ _ _
      · rw [kept, full]
      · rw [kept]
        exact bounded.children kind

/-- A new root is inside. -/
theorem BPLUSIndex.Confined.growRoot {left right : Nat} {nkey : Int} {result : Int × BPLUSIndex}
    (confined : index.Confined) (shaped : Shaped base index (some right))
    (there : Allocated base index.mem.curSize left)
    (loose : Allocated base index.mem.curSize right)
    (outcome : index.growRoot left right nkey = .ok result)
    : result.2.Confined := by
  obtain ⟨count, frontier⟩ := shaped.frontier
  have room := shaped.room
  have grows : index.mem.curSize ≤ index.mem.curSize + 584 := Nat.le_add_right _ _
  have top : Allocated base (index.mem.curSize + 584) index.mem.curSize :=
    ⟨Or.inr ⟨count, frontier⟩, le_refl _⟩
  have cleared : (index.mem.mem.clear index.mem.curSize nodeLayout.size).BlankFrom
      (index.mem.curSize + 584) := confined.clear nodeLayout.size
  rw [growRoot_eq index left right nkey shaped.header shaped.headerOld, Except.ok.injEq] at outcome
  subst outcome
  unfold grownImage
  dsimp only
  refine blank_store headerLayout (blank_setParent (blank_setParent (blank_storeNode cleared top _)
    (loose.mono grows) _) (there.mono grows) _) ?_ _
  rw [headerLayout_size]
  omega

/-- Splitting nodes up to one with room writes inside, by induction on the fuel. -/
theorem BPLUSIndex.Confined.splitInsertNode {loose : Option Nat} {isparent : Bool} {targ k v : Int}
    {fuel : Nat} {result : Int × BPLUSIndex} (confined : index.Confined)
    (shaped : Shaped base index loose) (job : Job base index offset isparent targ loose)
    (there : Allocated base index.mem.curSize offset)
    (full : (nodeLayout.load index.mem.mem offset).numKeys = ORDER - 1)
    (outcome : BPLUSIndex.splitInsertNode fuel index offset k v isparent targ = .ok result)
    : result.2.Confined := by
  induction fuel generalizing index offset k v isparent targ loose result with
  | zero => cases outcome
  | succ fuel ih =>
      obtain ⟨medKeyOf, final, halves, shaped', -, left, right, upward⟩ :=
        shaped.split k v job there full
      have confined' := confined.splitHalves shaped job there full halves
      have isFull : ¬ ((index.mem.load nodeLayout offset).numKeys ≠ ORDER - 1) :=
        fun other => other full
      rw [BPLUSIndex.splitInsertNode, if_neg isFull, halves, ok_bind] at outcome
      dsimp only at outcome
      unfold BPLUSIndex.listRight at outcome
      dsimp only at outcome
      cases upward with
      | root orphan =>
          rw [if_pos orphan] at outcome
          exact confined'.growRoot shaped' left right outcome
      | parent paroff owner old kind below =>
          rw [owner, if_neg (by omega), Int.toNat_natCast] at outcome
          by_cases parentFull : ((withNode index final).mem.load nodeLayout paroff).numKeys
              = ORDER - 1
          · rw [if_pos parentFull] at outcome
            obtain ⟨⟨index', more⟩, again, same⟩ := bind_eq_ok.mp outcome
            obtain rfl := Except.ok.inj same
            have inner := ih confined' shaped' (.upward kind right below) old parentFull again
            exact inner
          · rw [if_neg parentFull] at outcome
            obtain rfl := Except.ok.inj outcome
            exact blank_setParent (blank_insertIntoNode confined' old _ _ _ _) right _

/-- Linking a key writes inside. -/
theorem BPLUSIndex.Confined.insertKey {key : Bytes} {keyOf inodeOf : Int}
    (confined : index.Confined) (shaped : Shaped base index none)
    (outcome : index.insertKey key keyOf inodeOf = .ok new)
    : new.Confined := by
  obtain ⟨root, rooted, live⟩ := shaped.rooted
  unfold BPLUSIndex.insertKey at outcome
  obtain ⟨target, found, rest⟩ := bind_eq_ok.mp outcome
  rw [BPLUSIndex.findNodeToStore, shaped.hasRoot, if_neg (by decide), rooted, ok_bind] at found
  obtain ⟨there, leaf⟩ := shaped.toArena.findNodeFrom live found
  by_cases full : (index.mem.load nodeLayout target).numKeys = ORDER - 1
  · rw [if_pos full] at rest
    obtain ⟨result, split, same⟩ := bind_eq_ok.mp rest
    obtain rfl := Except.ok.inj same
    exact confined.splitInsertNode shaped (.leaf (-1) leaf) there full split
  · rw [if_neg full] at rest
    obtain rfl := Except.ok.inj rest
    have inside : (insertIntoNode index.mem.mem target keyOf inodeOf false (-1)).2.BlankFrom
        index.mem.curSize := blank_insertIntoNode confined there _ _ _ _
    generalize (insertIntoNode index.mem.mem target keyOf inodeOf false (-1)).2 = bytes at *
    exact inside

-----------------------------------------------------------------------------------------
-- Calls
-----------------------------------------------------------------------------------------

variable {env : Env} {caps : Capacities} {done calls : List AddCall} {call : AddCall}

/-- An allocator whose file is blank behind its end. -/
def TireFire.Confined (tires : TireFire) : Prop := tires.mem.BlankFrom tires.curSize

theorem TireFire.Confined.getTire {tires : TireFire} (confined : tires.Confined) (size : Nat)
    : (tires.getTire size).2.Confined :=
  Mem.BlankFrom.clear confined size

theorem TireFire.Confined.store {A : Type} {tires : TireFire} (confined : tires.Confined)
    (layout : Layout A) (inside : offset + layout.size ≤ tires.curSize) (value : A)
    : (tires.store layout offset value).Confined :=
  blank_store layout confined inside value

/-- The regions of a fresh index are inside. -/
theorem BPLUSIndex.Confined.allocateRegions (outcome : caps.index.allocateRegions = .ok new)
    : new.Confined := by
  unfold BPLUSIndex.allocateRegions at outcome
  dsimp only [TireFire.getTire_index] at outcome
  rw [TireFire.getTire_getOffset_new, ok_bind, TireFire.getTire_getOffset_new, ok_bind] at outcome
  obtain ⟨inodeList, -, outcome⟩ := bind_eq_ok.mp outcome
  obtain rfl := Except.ok.inj outcome
  have start : caps.index.mem.Confined := Mem.zero_blank 0
  have headerIn : 0 + headerLayout.size ≤ 24 := le_refl _
  have width : 24 ≤ nodeLayout.size := by decide
  have one := fun header => (start.getTire headerLayout.size).store headerLayout headerIn header
  have two := fun first header => ((one first).getTire nodeLayout.size).store headerLayout
    (headerIn.trans (width.trans (Nat.le_add_left _ _))) header
  have three := fun first header root => (two first header).store nodeLayout (le_refl 608) root
  have four := fun first second root header => ((three first second root).getTire
    (inodeLayout.size * caps.index.numEnts)).store headerLayout (headerIn.trans
      ((show 24 ≤ 608 by decide).trans (Nat.le_add_right _ _))) header
  exact ((((four _ _ _ _).getTire _).getTire _).getTire _).getTire _

/-- A record is inside. -/
theorem BPLUSIndex.Confined.recordWritten (confined : index.Confined)
    (shaped : Shaped caps.base index none) (fits : caps.Respected (done ++ [call]))
    (short : call.inode.inodeId.length ≤ HASH_SIZE)
    : (afterRecord env caps index done call).Confined := by
  have ordered := placeAfter_ordered fits
  obtain ⟨-, outside⟩ := recordBytes_spec env index.mem.mem ordered short
  obtain ⟨count, frontier⟩ := shaped.frontier
  refine Mem.BlankFrom.congr confined fun address behind => outside address fun covers => ?_
  have bounds := ordered.covers covers
  have behind : index.mem.curSize ≤ address := behind
  omega

/-- The first call writes inside. -/
theorem BPLUSIndex.Confined.first (fits : caps.Respected [call])
    (short : call.inode.inodeId.length ≤ HASH_SIZE)
    (outcome : caps.index.addInode env call.inode call.dirtyBlocks call.blockMtime = .ok new)
    : new.Confined := by
  obtain ⟨fresh, allocated, regions, hasRoot, -, rootIdx, stage, -⟩ := allocateRegions_spec caps
  have ordered : (placeAfter caps []).Ordered call caps.base := placeAfter_ordered fits
  obtain ⟨-, outside⟩ := recordBytes_spec env fresh.mem.mem ordered short
  have confined := Confined.allocateRegions allocated
  have rooted : (afterRecord env caps fresh [] call).mem.getOffset
      (afterRecord env caps fresh [] call).rootIdx = .ok 24 := by
    change fresh.mem.getOffset fresh.rootIdx = .ok 24
    rw [rootIdx]
    exact stage.offset 1 24 rfl
  have noRoot : caps.index.hasRoot = false := rfl
  simp only [BPLUSIndex.addInode, noRoot, Bool.not_false, if_true, allocated, ok_bind,
    regions.writeRecord env call, rooted, Except.ok.injEq] at outcome
  have room : 608 ≤ caps.base := by
    simp only [Capacities.base, Capacities.pathArr, Capacities.hashArr, Capacities.bdArr,
      Capacities.blockArr]
    omega
  have size : (afterRecord env caps fresh [] call).mem.curSize = caps.base := stage.size
  have recorded : (afterRecord env caps fresh [] call).mem.Confined := by
    refine Mem.BlankFrom.congr confined fun address behind => outside address fun covers => ?_
    have bounds := ordered.covers covers
    have behind : fresh.mem.curSize ≤ address := behind
    rw [stage.size] at behind
    omega
  rw [← outcome]
  exact recorded.store nodeLayout (by rw [size, nodeLayout_size]; exact room) _

/-- Every later call does. -/
theorem BPLUSIndex.Confined.next (confined : index.Confined) (laid : Laid env caps index done)
    (fits : caps.Respected (done ++ [call])) (short : call.inode.inodeId.length ≤ HASH_SIZE)
    (outcome : index.addInode env call.inode call.dirtyBlocks call.blockMtime = .ok new)
    : new.Confined := by
  have linked : (afterRecord env caps index done call).insertKey call.inode.inodeId
      (placeAfter caps done).keyOf (placeAfter caps done).inodeOf = .ok new := by
    simpa only [BPLUSIndex.addInode, laid.shaped.hasRoot, Bool.not_true, Bool.false_eq_true,
      if_false, pure, Except.pure, ok_bind, laid.regions.writeRecord env call] using outcome
  exact (confined.recordWritten laid.shaped fits short).insertKey (laid.recordWritten fits short)
    linked

/-- Calls that were carried out wrote inside, by induction on the calls. -/
theorem addAll_confined (fits : caps.Respected calls)
    (short : ∀ call ∈ calls, call.inode.inodeId.length ≤ HASH_SIZE)
    (outcome : addAll env caps calls = .ok index)
    : index.Confined := by
  induction calls using List.reverseRecOn generalizing index with
  | nil =>
      obtain rfl : caps.index = index := Except.ok.inj outcome
      exact Mem.zero_blank 0
  | append_singleton done call ih =>
      obtain ⟨middle, before, last⟩ := addAll_concat.mp outcome
      have shortCall := short call (by simp)
      have earlier := fun call (member : call ∈ done) => short call (by simp [member])
      rcases eq_or_ne done [] with rfl | made
      · obtain rfl : caps.index = middle := Except.ok.inj before
        exact .first fits shortCall last
      · exact (ih fits.left earlier before).next (addAll_laid made fits.left earlier before) fits
          shortCall last

-----------------------------------------------------------------------------------------
-- Mapped files
-----------------------------------------------------------------------------------------

/-- The bytes of a mapped file. -/
def Image.file (image : Image) : List Cell := image.mem.read 0 image.size

/-- `mmap` of a file. Behind its end the last page holds zeros. -/
def Image.ofFile (bytes : List Cell) : Image := ⟨bytes.length, Mem.zero.write 0 bytes⟩

/-- A finished file that is mapped again is the image that its calls left. -/
theorem Image.ofFile_file (fits : caps.Respected calls)
    (short : ∀ call ∈ calls, call.inode.inodeId.length ≤ HASH_SIZE)
    (outcome : addAll env caps calls = .ok index)
    : ofFile index.image.file = index.image := by
  have back := (addAll_confined fits short outcome).write_read
  rw [file, ofFile, Mem.length_read]
  exact congrArg (Image.mk index.mem.curSize) back

/-- So is a tree file. -/
theorem TreeFile.remapped (file : TreeFile env) : Image.ofFile file.image.file = file.image := by
  obtain ⟨index, -, -, -, outcome, -⟩ := addAll_built env file.made file.fits file.valid
  have image : file.image = index.image := by simp only [TreeFile.image, outcome]
  rw [image]
  exact Image.ofFile_file file.fits (fun call member => (file.valid.short call member).le) outcome

/-- Calls within the limits leave a file that, mapped again, is the image that they built. -/
theorem addAll_remapped (made : calls ≠ []) (fits : caps.Respected calls) (valid : ValidIds calls)
    : ∃ index, addAll env caps calls = .ok index
        ∧ Image.ofFile index.image.file = index.image := by
  obtain ⟨index, -, -, -, outcome, -⟩ := addAll_built env made fits valid
  exact ⟨index, outcome,
    Image.ofFile_file fits (fun call member => (valid.short call member).le) outcome⟩

/-- A file with two records. -/
theorem addAll_remapped_two
    : ∃ index,
        addAll ⟨fun _ => Vector.replicate 32 0, fun _ => 0⟩ ⟨2, 4, 2, 4⟩
            [oneBlockCall [66] [47, 98] [1, 2] 7, oneBlockCall [65] [47, 97] [3, 4] 7]
          = .ok index
        ∧ Image.ofFile index.image.file = index.image :=
  addAll_remapped (by decide) ⟨by decide, by decide, by decide, by decide⟩
    ⟨by decide, by decide, by decide⟩

end ZippyFS
