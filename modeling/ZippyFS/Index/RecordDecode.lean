import ZippyFS.Index.TreeSearch

/-! Reading records back: the loader finds in a finished file what every call wrote there,
however many calls came after it.
-/

namespace ZippyFS

open CellMemory StructLayout

/-- What the loader reads of a record: its attributes, its path and its block list. The list
holds block ids, block times and bytes, and is missing in a record without data.
-/
structure DecodedRecord where
  mode : UInt32
  nlink : UInt32
  mtime : Nat
  ctime : Nat
  size : Nat
  deleted : Bool
  path : Bytes
  blocks : Option (List (Nat × Nat × Bytes))

/-- One version of a block. -/
structure BlockVersion where
  blockId : Nat
  mtime : Nat
  block : Block

/-- The version that an entry of a block list describes. -/
def Image.version (image : Image) (entry : BlockData) : BlockVersion :=
  ⟨entry.blockId, entry.mtime, image.blockOf entry⟩

/-- The bytes in use of a version. -/
def BlockVersion.bytes (env : Env) (version : BlockVersion) : Nat × Nat × Bytes :=
  (version.blockId, version.mtime, version.block.copied env version.block.actualSize)

/-- The record at an offset, as `find_latest_inode` and `get_children` read it. -/
def Image.decodeRecord (env : Env) (image : Image) (offset : Nat) : DecodedRecord :=
  let record := image.inode offset
  { mode := record.mode
    nlink := record.nlink
    mtime := record.mtime
    ctime := record.ctime
    size := record.size
    deleted := record.deleted
    path := image.pathOf record
    blocks :=
      if record.blockData = -1 then none
      else some ((image.blockEntries record.blockData.toNat record.blockDataSize).map
        (fun entry => (image.version entry).bytes env)) }

/-- What a call asks `add_inode` to store. -/
def AddCall.contents (env : Env) (call : AddCall) : DecodedRecord where
  mode := call.inode.mode
  nlink := call.inode.nlink
  mtime := call.inode.ulMtime
  ctime := call.inode.ulCtime
  size := call.inode.size
  deleted := call.inode.deleted
  path := call.inode.path
  blocks :=
    if call.dirtyBlocks.isEmpty then none
    else some (call.dirtyBlocks.toList.map (fun (blockId, block) =>
      (blockId, call.blockMtime[blockId]?.getD 0, block.copied env block.actualSize)))

/-- The block that the loader makes of the bytes stored for a block. -/
def Block.readBack (env : Env) (block : Block) : Block :=
  Block.new (block.copied env block.actualSize) block.actualSize

/-- An entry of a block list with the bytes that it points to. -/
structure StoredBlock where
  blockId : Nat
  mtime : Nat
  bytes : Bytes

def Image.storedBlock (image : Image) (entry : BlockData) : StoredBlock :=
  ⟨entry.blockId, entry.mtime, image.mem.readBytes entry.dataOffset entry.size⟩

/-- The version that the loader makes of it. -/
def StoredBlock.version (stored : StoredBlock) : BlockVersion :=
  ⟨stored.blockId, stored.mtime, Block.new stored.bytes stored.bytes.length⟩

/-- The entries that a call stores. -/
def AddCall.storedBlocks (env : Env) (call : AddCall) : List StoredBlock :=
  call.dirtyBlocks.toList.map (fun entry =>
    ⟨entry.1, call.blockMtime[entry.1]?.getD 0, entry.2.copied env entry.2.actualSize⟩)

/-- The block versions that a call stores. -/
def AddCall.versions (env : Env) (call : AddCall) : List BlockVersion :=
  call.dirtyBlocks.toList.map (fun (blockId, block) =>
    ⟨blockId, call.blockMtime[blockId]?.getD 0, block.readBack env⟩)

/-- A block of at most `SIZE` bytes keeps its bytes. -/
theorem Block.copied_readBack (env : Env) {block : Block} (small : block.actualSize ≤ SIZE)
    : (block.readBack env).copied env (block.readBack env).actualSize
      = block.copied env block.actualSize := by
  apply List.ext_getElem
  · simp [readBack]
  · intro index _ inside
    have short : index < block.actualSize := by simpa using inside
    simp only [copied, readBack, List.getElem_map, List.getElem_range]
    rw [if_pos (by omega), if_pos (by omega)]
    simp only [Block.new, Block.insertData, Nat.zero_le, true_and, Nat.sub_zero]
    rw [if_pos ⟨by omega, short⟩]
    simp only [List.getD_eq_getElem?_getD, List.getElem?_map, List.getElem?_range short,
      Option.map_some, Option.getD_some]
    rw [if_pos (by omega)]

section Decode

variable {env : Env} {image : Image} {call : AddCall}

/-- A block list is read back entry by entry, by induction on the blocks. -/
theorem BlocksAt.storedBlocks {blockMtime : Std.ExtTreeMap Nat Nat} {blocks : List (Nat × Block)}
    {dataOffset entryOffset : Nat}
    (there : BlocksAt env blockMtime blocks dataOffset entryOffset image.mem)
    : (List.range blocks.length).map (fun number => image.storedBlock
          (blockDataLayout.load image.mem (entryOffset + number * blockDataLayout.size)))
      = blocks.map (fun entry =>
        ⟨entry.1, blockMtime[entry.1]?.getD 0, entry.2.copied env entry.2.actualSize⟩) := by
  induction blocks generalizing dataOffset entryOffset with
  | nil => rfl
  | cons head rest ih =>
      obtain ⟨blockId, block⟩ := head
      obtain ⟨entry, bytes, tail⟩ := there
      have first : image.storedBlock (blockDataLayout.load image.mem entryOffset)
          = ⟨blockId, blockMtime[blockId]?.getD 0, block.copied env block.actualSize⟩ := by
        rw [entry]
        simp only [Image.storedBlock, bytes]
      rw [List.length_cons, List.range_succ_eq_map, List.map_cons, List.map_cons, List.map_map,
        Nat.zero_mul, Nat.add_zero, first, ← ih tail]
      congr 1
      apply List.map_congr_left
      intro number _
      simp only [Function.comp_apply]
      rw [Nat.succ_mul, Nat.add_assoc, Nat.add_comm blockDataLayout.size]

/-- The block list of a record in place holds the entries that its call stored. -/
theorem RecordAt.storedBlocks {place : Place} (record : RecordAt env image.mem place call)
    (data : call.dirtyBlocks.size ≠ 0)
    : (image.blockEntries (image.inode place.inodeOf).blockData.toNat
          (image.inode place.inodeOf).blockDataSize).map image.storedBlock
      = call.storedBlocks env := by
  have count : call.dirtyBlocks.toList.length = call.dirtyBlocks.size :=
    Std.ExtTreeMap.length_toList
  have pointer : (image.inode place.inodeOf).blockData = place.entryOf := by
    rw [Image.inode, record.blockData, if_neg data]
  have width := record.blockDataSize data
  have entries : (blockDataLayout.size * call.dirtyBlocks.size + blockDataLayout.size - 1)
      / blockDataLayout.size = call.dirtyBlocks.toList.length := by
    simp only [blockDataLayout_size, count]
    omega
  have read := record.blocks.storedBlocks
  rw [pointer, Int.toNat_natCast, Image.inode, width, Image.blockEntries, entries, List.map_map]
  exact read

/-- The block list of a record in place holds the versions that its call stored. -/
theorem RecordAt.versions {place : Place} (record : RecordAt env image.mem place call)
    (data : call.dirtyBlocks.size ≠ 0)
    : (image.blockEntries (image.inode place.inodeOf).blockData.toNat
          (image.inode place.inodeOf).blockDataSize).map image.version
      = call.versions env := by
  have entry (entry : BlockData) : image.version entry = (image.storedBlock entry).version := by
    simp only [Image.version, Image.blockOf, Image.storedBlock, StoredBlock.version, Mem.readBytes,
      List.length_map, Mem.length_read]
  have versions : call.versions env = (call.storedBlocks env).map StoredBlock.version := by
    rw [AddCall.versions, AddCall.storedBlocks, List.map_map]
    refine List.map_congr_left fun block _ => ?_
    simp only [Function.comp_apply, StoredBlock.version, Block.readBack, Block.length_copied]
  rw [versions, ← record.storedBlocks data, List.map_map]
  exact List.map_congr_left fun block _ => entry block

/-- The path of a record in place. -/
theorem RecordAt.pathOf {place : Place} (record : RecordAt env image.mem place call)
    (clean : (0 : UInt8) ∉ call.inode.path)
    : image.pathOf (image.inode place.inodeOf) = call.inode.path := by
  have whole := record.path
  have start := record.pathAt
  have length := record.pathSize
  simp only [Image.pathOf, Image.inode, start, length, Mem.cString, whole]
  have padded : (call.inode.path ++ []).takeWhile (· ≠ 0) = call.inode.path :=
    takeWhile_padded clean (by simp)
  rwa [List.append_nil] at padded

/-- A record in place decodes to what its call asked for. -/
theorem RecordAt.decode {place : Place} (record : RecordAt env image.mem place call)
    (clean : (0 : UInt8) ∉ call.inode.path)
    (small
      : ∀ (blockId : Nat) (block : Block), call.dirtyBlocks[blockId]? = some block
        → block.actualSize ≤ SIZE)
    : image.decodeRecord env place.inodeOf = call.contents env := by
  have path := record.pathOf clean
  have blocks : (image.decodeRecord env place.inodeOf).blocks = (call.contents env).blocks := by
    have pointer := record.blockData
    simp only [Image.decodeRecord, AddCall.contents, Std.ExtTreeMap.isEmpty_eq_size_beq_zero,
      beq_iff_eq]
    by_cases empty : call.dirtyBlocks.size = 0
    · simp only [Image.inode, pointer, empty, if_true]
    · have present : (image.inode place.inodeOf).blockData ≠ -1 := by
        rw [Image.inode, pointer, if_neg empty]
        omega
      have list := congrArg (List.map (fun version => version.bytes env)) (record.versions empty)
      rw [List.map_map] at list
      rw [if_neg present, if_neg empty]
      refine congrArg some (list.trans ?_)
      rw [AddCall.versions, List.map_map]
      apply List.map_congr_left
      rintro ⟨blockId, block⟩ member
      have full := small blockId block (Std.ExtTreeMap.mem_toList_iff_getElem?_eq_some.mp member)
      simp only [Function.comp_apply, BlockVersion.bytes, Block.copied_readBack env full]
  have fields : ∀ first second : DecodedRecord, first.mode = second.mode
      → first.nlink = second.nlink → first.mtime = second.mtime → first.ctime = second.ctime
      → first.size = second.size → first.deleted = second.deleted → first.path = second.path
      → first.blocks = second.blocks → first = second := by
    rintro ⟨⟩ ⟨⟩ rfl rfl rfl rfl rfl rfl rfl rfl
    rfl
  exact fields _ _ record.mode record.nlink record.mtime record.ctime record.size record.deleted
    path blocks

/-- Every record of a finished file decodes to what its own call asked for, wherever in the
sequence the call was.
-/
theorem addAll_decode {caps : Capacities} {calls : List AddCall} (made : calls ≠ [])
    (fits : caps.Respected calls) (valid : ValidIds calls)
    (paths : ∀ call ∈ calls, (0 : UInt8) ∉ call.inode.path)
    (small
      : ∀ call ∈ calls, ∀ (blockId : Nat) (block : Block),
        call.dirtyBlocks[blockId]? = some block → block.actualSize ≤ SIZE)
    : ∃ index, addAll env caps calls = .ok index
        ∧ ∀ before call after, calls = before ++ call :: after
          → ∃ offset : Nat,
              BPLUSIndexLoader.findInTree index.image call.inode.inodeId
                = .ok (some (offset : Int))
              ∧ index.image.decodeRecord env offset = call.contents env := by
  obtain ⟨index, spans, root, top, outcome, built⟩ := addAll_built env made fits valid
  refine ⟨index, outcome, ?_⟩
  intro before call after split
  have member : call ∈ calls := by simp [split]
  obtain ⟨result, ended, found⟩ :=
    BPLUSIndexLoader.findInTree_iff built.ok built.tree call.inode.inodeId
  refine ⟨(placeAfter caps before).inodeOf, ?_, ?_⟩
  · rw [ended, (found _).mpr ((built.stored _).mpr ⟨before, call, after, split, rfl⟩)]
  · have record : RecordAt env index.image.mem (placeAfter caps before) call :=
      built.records before call after split
    exact record.decode (paths call member) (small call member)

/-- The first of two files decodes in the final image. -/
theorem addAll_decode_two
    : ∃ index,
        addAll ⟨fun _ => Vector.replicate 32 0, fun _ => 0⟩ ⟨2, 4, 2, 4⟩
            [oneBlockCall [66] [47, 98] [1, 2] 7, oneBlockCall [65] [47, 97] [3, 4] 7]
          = .ok index
        ∧ ∀ before call after, [oneBlockCall [66] [47, 98] [1, 2] 7,
            oneBlockCall [65] [47, 97] [3, 4] 7] = before ++ call :: after
          → ∃ offset : Nat,
              BPLUSIndexLoader.findInTree index.image call.inode.inodeId
                = .ok (some (offset : Int))
              ∧ index.image.decodeRecord ⟨fun _ => Vector.replicate 32 0, fun _ => 0⟩ offset
                = call.contents ⟨fun _ => Vector.replicate 32 0, fun _ => 0⟩ := by
  refine addAll_decode (by decide) ⟨by decide, by decide, by decide, by decide⟩
    ⟨by decide, by decide, by decide⟩ (by decide) ?_
  intro call member blockId block found
  have full : call.dirtyBlocks = (∅ : Std.ExtTreeMap Nat Block).insert 0 (Block.new [1, 2] 2)
      ∨ call.dirtyBlocks = (∅ : Std.ExtTreeMap Nat Block).insert 0 (Block.new [3, 4] 2) := by
    simp only [List.mem_cons, List.not_mem_nil, or_false] at member
    rcases member with rfl | rfl
    · exact Or.inl rfl
    · exact Or.inr rfl
  rcases full with same | same <;>
  · rw [same, Std.ExtTreeMap.getElem?_insert] at found
    split at found
    · obtain rfl := Option.some.inj found
      decide
    · simp at found

end Decode

end ZippyFS
