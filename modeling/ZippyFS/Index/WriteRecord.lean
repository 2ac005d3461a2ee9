import ZippyFS.Index.BPlusIndexLoader
import ZippyFS.Index.InsertKey

/-! Where `add_inode` writes a record and what is found there afterwards. The regions of an
index file follow each other, so the records of different calls are disjoint.
-/

namespace ZippyFS

open CellMemory StructLayout

/-- The arguments of one call of `add_inode`. -/
structure AddCall where
  inode : Inode
  dirtyBlocks : Std.ExtTreeMap Nat Block
  blockMtime : Std.ExtTreeMap Nat Nat

namespace AddCall

/-- The bytes that the call stores for its blocks. -/
def blockBytes (call : AddCall) : Nat :=
  (call.dirtyBlocks.toList.map (fun entry => entry.2.actualSize)).sum

/-- Running totals over several calls. -/
def totalBytes (calls : List AddCall) : Nat := (calls.map blockBytes).sum
def totalBlocks (calls : List AddCall) : Nat := (calls.map (·.dirtyBlocks.size)).sum
def totalPaths (calls : List AddCall) : Nat := (calls.map (·.inode.path.length)).sum

end AddCall

open AddCall

/-- The arguments of the constructor `BPLUSIndex`. -/
structure Capacities where
  numEnts : Nat
  blocksize : Nat
  numBlocks : Nat
  pathSize : Nat

namespace Capacities

variable (caps : Capacities)

/-- A fresh index. -/
def index : BPLUSIndex :=
  BPLUSIndex.new caps.numEnts caps.blocksize caps.numBlocks caps.pathSize

/-- Where the regions of an index file start, and where the last one ends. -/
def blockArr : Nat := 608 + inodeLayout.size * caps.numEnts
def bdArr : Nat := caps.blockArr + caps.blocksize
def hashArr : Nat := caps.bdArr + caps.numBlocks * blockDataLayout.size
def pathArr : Nat := caps.hashArr + caps.numEnts * HASH_SIZE
def base : Nat := caps.pathArr + caps.pathSize

/-- The capacities suffice for the calls. -/
structure Respected (calls : List AddCall) : Prop where
  entries : calls.length ≤ caps.numEnts
  bytes : totalBytes calls ≤ caps.blocksize
  blocks : totalBlocks calls ≤ caps.numBlocks
  paths : totalPaths calls ≤ caps.pathSize

/-- A part of the calls also fits. -/
theorem Respected.left {caps : Capacities} {before after : List AddCall}
    (fits : caps.Respected (before ++ after))
    : caps.Respected before := by
  obtain ⟨entries, bytes, blocks, paths⟩ := fits
  simp only [List.length_append, totalBytes, totalBlocks, totalPaths, List.map_append,
    List.sum_append] at *
  refine ⟨by omega, ?_, ?_, ?_⟩ <;> simp only [totalBytes, totalBlocks, totalPaths] <;> omega

end Capacities

/-- The places one call writes to. -/
structure Place where
  pathOf : Nat
  keyOf : Nat
  inodeOf : Nat
  dataOf : Nat
  entryOf : Nat

/-- The places of the call behind the calls in `before`. -/
def placeAfter (caps : Capacities) (before : List AddCall) : Place where
  pathOf := caps.pathArr + totalPaths before
  keyOf := caps.hashArr + before.length * HASH_SIZE
  inodeOf := 608 + before.length * inodeLayout.size
  dataOf := caps.blockArr + totalBytes before
  entryOf := caps.bdArr + totalBlocks before * blockDataLayout.size

/-- The address lies in one of the places that the call writes to. -/
def Place.Covers (place : Place) (call : AddCall) (address : Nat) : Prop :=
  (place.pathOf ≤ address ∧ address < place.pathOf + call.inode.path.length)
  ∨ (place.keyOf ≤ address ∧ address < place.keyOf + HASH_SIZE)
  ∨ (place.inodeOf ≤ address ∧ address < place.inodeOf + inodeLayout.size)
  ∨ (place.dataOf ≤ address ∧ address < place.dataOf + call.blockBytes)
  ∨ (place.entryOf ≤ address
    ∧ address < place.entryOf + blockDataLayout.size * call.dirtyBlocks.size)

-----------------------------------------------------------------------------------------
-- Blocks
-----------------------------------------------------------------------------------------

/-- The bytes and the descriptors of blocks lie in memory, one behind the other. -/
def BlocksAt (env : Env) (blockMtime : Std.ExtTreeMap Nat Nat)
    : List (Nat × Block) → Nat → Nat → Mem → Prop
  | [], _, _, _ => True
  | (blockId, block) :: rest, dataOffset, entryOffset, mem =>
      blockDataLayout.load mem entryOffset
        = ⟨blockId, blockMtime[blockId]?.getD 0, block.actualSize, dataOffset⟩
      ∧ mem.readBytes dataOffset block.actualSize = block.copied env block.actualSize
      ∧ BlocksAt env blockMtime rest (dataOffset + block.actualSize)
          (entryOffset + blockDataLayout.size) mem

/-- Equal cells in both ranges hold the same blocks, by induction on the blocks. -/
theorem BlocksAt.congr {env : Env} {blockMtime : Std.ExtTreeMap Nat Nat}
    {blocks : List (Nat × Block)} {dataOffset entryOffset : Nat} {old new : Mem}
    (there : BlocksAt env blockMtime blocks dataOffset entryOffset old)
    (data
      : ∀ address, dataOffset ≤ address
        → address < dataOffset + (blocks.map (fun entry => entry.2.actualSize)).sum
        → new.cell address = old.cell address)
    (entries
      : ∀ address, entryOffset ≤ address
        → address < entryOffset + blockDataLayout.size * blocks.length
        → new.cell address = old.cell address)
    : BlocksAt env blockMtime blocks dataOffset entryOffset new := by
  induction blocks generalizing dataOffset entryOffset with
  | nil => trivial
  | cons head rest ih =>
      obtain ⟨entry, bytes, tail⟩ := there
      simp only [List.map_cons, List.sum_cons, List.length_cons, blockDataLayout_size] at *
      have width : blockDataLayout.size = 32 := rfl
      refine ⟨?_, ?_, ?_⟩
      · rw [← entry]
        apply Layout.load_congr
        intro address low high
        simp only [blockDataLayout_size] at high
        exact entries address low (by omega)
      · rw [← bytes]
        unfold Mem.readBytes
        rw [Mem.read_congr (fun address low high => data address low (by omega))]
      · exact ih tail (fun address low high => data address (by omega) (by omega))
          (fun address low high => entries address (by omega) (by omega))

/-- What the block loop leaves in memory, by induction on the blocks. -/
theorem writeBlocks_spec (env : Env) (blockMtime : Std.ExtTreeMap Nat Nat)
    (blocks : List (Nat × Block)) (dataOffset entryOffset : Nat) (mem : Mem)
    (apart
      : dataOffset + (blocks.map (fun entry => entry.2.actualSize)).sum ≤ entryOffset)
    : (∀ address,
        ¬ (dataOffset ≤ address
          ∧ address < dataOffset + (blocks.map (fun entry => entry.2.actualSize)).sum)
        → ¬ (entryOffset ≤ address
          ∧ address < entryOffset + blockDataLayout.size * blocks.length)
        → (BPLUSIndex.writeBlocks env blockMtime blocks dataOffset entryOffset mem).cell address
          = mem.cell address)
      ∧ BlocksAt env blockMtime blocks dataOffset entryOffset
          (BPLUSIndex.writeBlocks env blockMtime blocks dataOffset entryOffset mem) := by
  induction blocks generalizing dataOffset entryOffset mem with
  | nil => exact ⟨fun _ _ _ => rfl, trivial⟩
  | cons head rest ih =>
      obtain ⟨blockId, block⟩ := head
      simp only [List.map_cons, List.sum_cons, List.length_cons, blockDataLayout_size] at *
      obtain ⟨outside, there⟩ := ih (dataOffset + block.actualSize)
        (entryOffset + 32) (blockDataLayout.store (mem.writeBytes dataOffset
          (block.copied env block.actualSize)) entryOffset
          ⟨blockId, blockMtime[blockId]?.getD 0, block.actualSize, dataOffset⟩) (by omega)
      rw [BPLUSIndex.writeBlocks]
      simp only [blockDataLayout_size]
      refine ⟨?_, ?_, ?_, there⟩
      · intro address notData notEntry
        rw [outside address (by omega) (by omega), Layout.store_outside, Mem.writeBytes,
          Mem.write_outside]
        · simp only [List.length_map, Block.length_copied]
          omega
        · simp only [blockDataLayout_size]
          omega
      · refine Eq.trans (Layout.load_congr _ _ ?_) (Layout.load_store_same blockDataLayout
          (mem.writeBytes dataOffset (block.copied env block.actualSize)) entryOffset _)
        intro address low high
        simp only [blockDataLayout_size] at high
        exact outside address (by omega) (by omega)
      · have back := Mem.readBytes_writeBytes_same mem dataOffset
          (block.copied env block.actualSize)
        rw [Block.length_copied] at back
        conv_rhs => rw [← back]
        unfold Mem.readBytes
        rw [Mem.read_congr]
        intro address low high
        rw [outside address (by omega) (by omega), Layout.store_outside]
        simp only [blockDataLayout_size]
        omega

-----------------------------------------------------------------------------------------
-- Records
-----------------------------------------------------------------------------------------

/-- The record, the key, the path and the blocks of a call lie at their places. -/
structure RecordAt (env : Env) (mem : Mem) (place : Place) (call : AddCall) : Prop where
  key : mem.readBytes place.keyOf HASH_SIZE
    = call.inode.inodeId ++ List.replicate (HASH_SIZE - call.inode.inodeId.length) 0
  path : mem.readBytes place.pathOf call.inode.path.length = call.inode.path
  mode : (inodeLayout.load mem place.inodeOf).mode = call.inode.mode
  nlink : (inodeLayout.load mem place.inodeOf).nlink = call.inode.nlink
  mtime : (inodeLayout.load mem place.inodeOf).mtime = call.inode.ulMtime
  ctime : (inodeLayout.load mem place.inodeOf).ctime = call.inode.ulCtime
  size : (inodeLayout.load mem place.inodeOf).size = call.inode.size
  deleted : (inodeLayout.load mem place.inodeOf).deleted = call.inode.deleted
  hash : (inodeLayout.load mem place.inodeOf).hash = place.keyOf
  pathAt : (inodeLayout.load mem place.inodeOf).path = place.pathOf
  pathSize : (inodeLayout.load mem place.inodeOf).pathSize = call.inode.path.length
  blockData
    : (inodeLayout.load mem place.inodeOf).blockData
      = if call.dirtyBlocks.size = 0 then -1 else (place.entryOf : Int)
  blockDataSize
    : call.dirtyBlocks.size ≠ 0
      → (inodeLayout.load mem place.inodeOf).blockDataSize
        = blockDataLayout.size * call.dirtyBlocks.size
  blocks
    : BlocksAt env call.blockMtime call.dirtyBlocks.toList place.dataOf place.entryOf mem

/-- Writes outside a call's places keep its record. -/
theorem RecordAt.congr {env : Env} {old new : Mem} {place : Place} {call : AddCall}
    (there : RecordAt env old place call)
    (same : ∀ address, place.Covers call address → new.cell address = old.cell address)
    : RecordAt env new place call := by
  have record : inodeLayout.load new place.inodeOf = inodeLayout.load old place.inodeOf := by
    apply Layout.load_congr
    intro address low high
    exact same address (by unfold Place.Covers; omega)
  have read : ∀ start count,
      (∀ address, start ≤ address → address < start + count → place.Covers call address)
      → new.readBytes start count = old.readBytes start count := by
    intro start count covered
    unfold Mem.readBytes
    rw [Mem.read_congr (fun address low high => same address (covered address low high))]
  have length : call.dirtyBlocks.toList.length = call.dirtyBlocks.size :=
    Std.ExtTreeMap.length_toList
  refine {
    key := ?_
    path := ?_
    mode := record ▸ there.mode
    nlink := record ▸ there.nlink
    mtime := record ▸ there.mtime
    ctime := record ▸ there.ctime
    size := record ▸ there.size
    deleted := record ▸ there.deleted
    hash := record ▸ there.hash
    pathAt := record ▸ there.pathAt
    pathSize := record ▸ there.pathSize
    blockData := record ▸ there.blockData
    blockDataSize := record ▸ there.blockDataSize
    blocks := ?_
  }
  · rw [← there.key]
    exact read _ _ (fun address low high => by unfold Place.Covers; omega)
  · rw [read _ _ (fun address low high => by unfold Place.Covers; omega), there.path]
  · apply there.blocks.congr
    · intro address low high
      exact same address (by unfold Place.Covers AddCall.blockBytes; omega)
    · intro address low high
      rw [length] at high
      exact same address (by unfold Place.Covers; omega)

-----------------------------------------------------------------------------------------
-- Writing one record
-----------------------------------------------------------------------------------------

/-- The places of one call follow each other below `base`. -/
structure Place.Ordered (place : Place) (call : AddCall) (base : Nat) : Prop where
  inode : 608 ≤ place.inodeOf
  data : place.inodeOf + inodeLayout.size ≤ place.dataOf
  entries : place.dataOf + call.blockBytes ≤ place.entryOf
  key : place.entryOf + blockDataLayout.size * call.dirtyBlocks.size ≤ place.keyOf
  path : place.keyOf + HASH_SIZE ≤ place.pathOf
  stop : place.pathOf + call.inode.path.length ≤ base

/-- Sufficient capacities order the places. -/
theorem placeAfter_ordered {caps : Capacities} {before : List AddCall} {call : AddCall}
    (fits : caps.Respected (before ++ [call]))
    : (placeAfter caps before).Ordered call caps.base := by
  obtain ⟨entries, bytes, blocks, paths⟩ := fits
  simp only [List.length_append, List.length_singleton, totalBytes, totalBlocks, totalPaths,
    List.map_append, List.sum_append, List.map_cons, List.map_nil, List.sum_singleton] at *
  constructor <;>
    simp only [placeAfter, Capacities.base, Capacities.pathArr, Capacities.hashArr,
      Capacities.bdArr, Capacities.blockArr, inodeLayout_size, blockDataLayout_size, HASH_SIZE,
      totalBytes, totalBlocks, totalPaths] <;>
    omega

/-- What `add_inode` writes for one call before the tree is touched. -/
def recordBytes (env : Env) (mem : Mem) (place : Place) (call : AddCall) : Mem :=
  let bytes := mem.writeBytes place.pathOf call.inode.path
  let bytes := (bytes.clear place.keyOf HASH_SIZE).writeBytes place.keyOf call.inode.inodeId
  let bytes := inodeLayout.store bytes place.inodeOf
    { inodeLayout.load bytes place.inodeOf with
      mode := call.inode.mode
      nlink := call.inode.nlink
      mtime := call.inode.ulMtime
      ctime := call.inode.ulCtime
      size := call.inode.size
      deleted := call.inode.deleted
      hash := place.keyOf
      path := place.pathOf
      pathSize := call.inode.path.length }
  let bytes := BPLUSIndex.writeBlocks env call.blockMtime call.dirtyBlocks.toList place.dataOf
    place.entryOf bytes
  inodeLayout.store bytes place.inodeOf
    (if blockDataLayout.size * call.dirtyBlocks.size > 0 then
      { inodeLayout.load bytes place.inodeOf with
        blockData := place.entryOf
        blockDataSize := blockDataLayout.size * call.dirtyBlocks.size }
    else { inodeLayout.load bytes place.inodeOf with blockData := -1 })

/-- The record lies where it was written, and nothing else has changed. -/
theorem recordBytes_spec (env : Env) (mem : Mem) {place : Place} {call : AddCall} {base : Nat}
    (ordered : place.Ordered call base) (short : call.inode.inodeId.length ≤ HASH_SIZE)
    : RecordAt env (recordBytes env mem place call) place call
      ∧ ∀ address, ¬ place.Covers call address
        → (recordBytes env mem place call).cell address = mem.cell address := by
  obtain ⟨inodeStart, data, entries, key, path, stop⟩ := ordered
  have count : call.dirtyBlocks.toList.length = call.dirtyBlocks.size :=
    Std.ExtTreeMap.length_toList
  have padded := Mem.readBytes_padded (mem.writeBytes place.pathOf call.inode.path) place.keyOf
    short
  have copied := Mem.readBytes_writeBytes_same mem place.pathOf call.inode.path
  unfold recordBytes
  dsimp only
  -- Each write is replaced by what it says about cells, the last one first.
  have pathOutside : ∀ address,
      address < place.pathOf ∨ place.pathOf + call.inode.path.length ≤ address
      → (mem.writeBytes place.pathOf call.inode.path).cell address = mem.cell address := by
    intro address outside
    apply Mem.write_outside
    rwa [List.length_map]
  generalize mem.writeBytes place.pathOf call.inode.path = mem1 at *
  have keyOutside : ∀ address, address < place.keyOf ∨ place.keyOf + HASH_SIZE ≤ address
      → ((mem1.clear place.keyOf HASH_SIZE).writeBytes place.keyOf call.inode.inodeId).cell
          address = mem1.cell address := by
    intro address outside
    rw [Mem.writeBytes, Mem.write_outside, Mem.clear_outside _ _ _ _ outside]
    rw [List.length_map]
    omega
  generalize (mem1.clear place.keyOf HASH_SIZE).writeBytes place.keyOf call.inode.inodeId = mem2
    at *
  generalize recordIs : ({ inodeLayout.load mem2 place.inodeOf with
      mode := call.inode.mode
      nlink := call.inode.nlink
      mtime := call.inode.ulMtime
      ctime := call.inode.ulCtime
      size := call.inode.size
      deleted := call.inode.deleted
      hash := place.keyOf
      path := place.pathOf
      pathSize := call.inode.path.length } : InodeRecord) = record
  have inodeOutside := fun address outside =>
    Layout.store_outside inodeLayout mem2 place.inodeOf record address outside
  have inodeLoad := Layout.load_store_same inodeLayout mem2 place.inodeOf record
  generalize inodeLayout.store mem2 place.inodeOf record = mem3 at *
  obtain ⟨blocksOutside, blocks⟩ := writeBlocks_spec env call.blockMtime
    call.dirtyBlocks.toList place.dataOf place.entryOf mem3 entries
  rw [count] at blocksOutside
  have recordKept : inodeLayout.load (BPLUSIndex.writeBlocks env call.blockMtime
      call.dirtyBlocks.toList place.dataOf place.entryOf mem3) place.inodeOf = record := by
    rw [← inodeLoad]
    apply Layout.load_congr
    intro address low high
    exact blocksOutside address (by omega) (by omega)
  generalize BPLUSIndex.writeBlocks env call.blockMtime call.dirtyBlocks.toList place.dataOf
    place.entryOf mem3 = mem4 at *
  rw [recordKept]
  generalize finalIs : (if blockDataLayout.size * call.dirtyBlocks.size > 0 then
      { record with
        blockData := (place.entryOf : Int)
        blockDataSize := blockDataLayout.size * call.dirtyBlocks.size }
    else { record with blockData := -1 }) = final
  have finalOutside := fun address outside =>
    Layout.store_outside inodeLayout mem4 place.inodeOf final address outside
  have finalLoad := Layout.load_store_same inodeLayout mem4 place.inodeOf final
  generalize inodeLayout.store mem4 place.inodeOf final = mem5 at *
  have read : ∀ {older : Mem} start amount, (∀ address, start ≤ address
      → address < start + amount → mem5.cell address = older.cell address)
      → mem5.readBytes start amount = older.readBytes start amount := by
    intro older start amount same
    unfold Mem.readBytes
    rw [Mem.read_congr same]
  have fields : final.mode = call.inode.mode ∧ final.nlink = call.inode.nlink
      ∧ final.mtime = call.inode.ulMtime ∧ final.ctime = call.inode.ulCtime
      ∧ final.size = call.inode.size ∧ final.deleted = call.inode.deleted
      ∧ final.hash = place.keyOf ∧ final.path = place.pathOf
      ∧ final.pathSize = call.inode.path.length
      ∧ final.blockData = (if call.dirtyBlocks.size = 0 then -1 else (place.entryOf : Int))
      ∧ (call.dirtyBlocks.size ≠ 0
        → final.blockDataSize = blockDataLayout.size * call.dirtyBlocks.size) := by
    subst finalIs recordIs
    by_cases empty : call.dirtyBlocks.size = 0
    · simp [empty]
    · have some : blockDataLayout.size * call.dirtyBlocks.size > 0 :=
        Nat.mul_pos (by decide) (Nat.pos_of_ne_zero empty)
      rw [if_pos some, if_neg empty]
      simp
  obtain ⟨mode, nlink, mtime, ctime, size, deleted, hash, pathAt, pathSize, blockData,
    blockDataSize⟩ := fields
  refine ⟨?_, ?_⟩
  · refine {
      key := ?_
      path := ?_
      mode := finalLoad ▸ mode
      nlink := finalLoad ▸ nlink
      mtime := finalLoad ▸ mtime
      ctime := finalLoad ▸ ctime
      size := finalLoad ▸ size
      deleted := finalLoad ▸ deleted
      hash := finalLoad ▸ hash
      pathAt := finalLoad ▸ pathAt
      pathSize := finalLoad ▸ pathSize
      blockData := finalLoad ▸ blockData
      blockDataSize := finalLoad ▸ blockDataSize
      blocks := ?_
    }
    · refine (read _ _ ?_).trans padded
      intro address low high
      have bytes : call.blockBytes
          = (call.dirtyBlocks.toList.map (fun entry => entry.2.actualSize)).sum := rfl
      rw [finalOutside address (by omega), blocksOutside address (by omega) (by omega),
        inodeOutside address (by omega)]
    · refine (read _ _ ?_).trans copied
      intro address low high
      have bytes : call.blockBytes
          = (call.dirtyBlocks.toList.map (fun entry => entry.2.actualSize)).sum := rfl
      rw [finalOutside address (by omega), blocksOutside address (by omega) (by omega),
        inodeOutside address (by omega), keyOutside address (by omega)]
    · have bytes : call.blockBytes
          = (call.dirtyBlocks.toList.map (fun entry => entry.2.actualSize)).sum := rfl
      apply blocks.congr
      · intro address low high
        exact finalOutside address (by omega)
      · intro address low high
        exact finalOutside address (by omega)
  · intro address outside
    have bytes : call.blockBytes
        = (call.dirtyBlocks.toList.map (fun entry => entry.2.actualSize)).sum := rfl
    unfold Place.Covers at outside
    rw [finalOutside address (by omega), blocksOutside address (by omega) (by omega),
      inodeOutside address (by omega), keyOutside address (by omega),
      pathOutside address (by omega)]

end ZippyFS
