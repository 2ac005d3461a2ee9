import ZippyFS.Cache.Coherence
import ZippyFS.Cache.ReadSlice
import ZippyFS.Cache.Ownership
import ZippyFS.Lib.Outcomes
import ZippyFS.Index.LatestInode

/-! Whether it matters that a path is cached. Each operation treats a path that is only on disk
in its own way; what it does then is compared with loading the path first.
-/

namespace ZippyFS

open Runs Outcomes

-----------------------------------------------------------------------------------------
-- Contents
-----------------------------------------------------------------------------------------

/-- What an operation can change about an inode, apart from its times, links and marks. -/
structure Shape where
  blocks : Std.ExtTreeMap Nat BlockRef
  size : Nat
  mode : UInt32
  deleted : Bool

/-- The contents of a file. -/
structure FileState where
  blocks : Nat → Option Block
  size : Nat
  mode : UInt32
  deleted : Bool

/-- The contents behind the references of an inode. -/
def Shape.fileState (heap : BlockRef → Block) (shape : Shape) : FileState :=
  ⟨fun blockIdx => shape.blocks[blockIdx]?.map heap, shape.size, shape.mode, shape.deleted⟩

def Inode.shape (inode : Inode) : Shape := ⟨inode.blocks, inode.size, inode.mode, inode.deleted⟩

/-- The contents found on disk. -/
def DiskInodeInfo.fileState (di : DiskInodeInfo) : FileState :=
  ⟨fun blockIdx => di.blockData[blockIdx]?, di.size, di.mode, di.deleted⟩

namespace Inode

/-- A read depends on the blocks only, by induction on the fuel of its loop. -/
theorem read_congr {env : Env} {heap : BlockRef → Block} {one two : Inode}
    (same : one.blocks = two.blocks) (size offset : Nat)
    : one.read env heap size offset = two.read env heap size offset := by
  have loop (fuel blockIdx offsetAmt : Nat) (buf : Bytes)
      : readLoop env heap one size fuel blockIdx offsetAmt buf
        = readLoop env heap two size fuel blockIdx offsetAmt buf := by
    induction fuel generalizing blockIdx offsetAmt buf with
    | zero => rfl
    | succ fuel ih => simp only [readLoop, same, ih]
  have bytes : one.readBytes env heap size offset = two.readBytes env heap size offset := loop ..
  rw [read, read, bytes]

end Inode

namespace BlockCache

variable {env : Env} {now loadTime : Clock} {cache left right : BlockCache} {path : Bytes}
  {di : DiskInodeInfo} {one two : Inode}

/-- The contents of a path: those of its inode if it is cached, else those found on disk. -/
def fileState (env : Env) (cache : BlockCache) (path : Bytes) : Except Fault (Option FileState) :=
  if cache.inCache path then
    .ok ((cache.find path).map (fun inode => inode.shape.fileState cache.heap))
  else do
    let di ← cache.loader.findLatestInode env path true
    .ok (if di.mtime = 0 then none else some di.fileState)

/-- The attributes of a loaded inode. -/
theorem loadedInode_shape (env : Env) (now : Clock) (path : Bytes) (alloc : Nat)
    (di : DiskInodeInfo)
    : (loadedInode env now path alloc di).size = di.size
      ∧ (loadedInode env now path alloc di).mode = di.mode
      ∧ (loadedInode env now path alloc di).deleted = di.deleted
      ∧ (loadedInode env now path alloc di).inodeId = di.inodeId := by
  have kept {A : Type} (member : Inode → A)
      (keeps
        : ∀ (inode : Inode) (blockIdx : Nat) (ref : BlockRef),
          member (inode.addBlock now blockIdx ref) = member inode)
      (inode : Inode) :=
    Inode.foldl_addBlock_keeps member now keeps di.blockData.toList alloc inode
  unfold loadedInode
  dsimp only
  rw [kept Inode.size (fun _ _ _ => rfl), kept Inode.mode (fun _ _ _ => rfl),
    kept Inode.deleted (fun _ _ _ => rfl), kept Inode.inodeId (fun _ _ _ => rfl)]
  cases di.deleted <;> exact ⟨rfl, rfl, rfl, rfl⟩

/-- A loaded inode is linked by its path, unless a deletion took that. -/
theorem loadedInode_links (env : Env) (now : Clock) (path : Bytes) (alloc : Nat)
    (di : DiskInodeInfo)
    : (loadedInode env now path alloc di).links = if di.deleted then ∅ else {path} := by
  unfold loadedInode
  dsimp only
  rw [Inode.foldl_addBlock_keeps Inode.links now (fun _ _ _ => rfl)]
  cases di.deleted <;> rfl

/-- The contents of a loaded inode do not depend on the time of loading. -/
theorem loadedInode_shape_eq (env : Env) (now loadTime : Clock) (path : Bytes) (alloc : Nat)
    (di : DiskInodeInfo)
    : (loadedInode env now path alloc di).shape
      = (loadedInode env loadTime path alloc di).shape := by
  have blocks : (loadedInode env now path alloc di).blocks
      = (loadedInode env loadTime path alloc di).blocks :=
    Std.ExtTreeMap.ext_getElem? fun blockIdx => by rw [loadedInode_blocks, loadedInode_blocks]
  obtain ⟨size, mode, deleted, _⟩ := loadedInode_shape env now path alloc di
  obtain ⟨size', mode', deleted', _⟩ := loadedInode_shape env loadTime path alloc di
  rw [Inode.shape, Inode.shape, blocks, size, mode, deleted, size', mode', deleted']

-----------------------------------------------------------------------------------------
-- Caches that agree on all contents
-----------------------------------------------------------------------------------------

/-- Two caches that differ in times, links and marks only. -/
structure Alike (left right : BlockCache) : Prop where
  idx : left.inodeIdx = right.inodeIdx
  ptrs : ∀ id, (left.ptr id).map Inode.shape = (right.ptr id).map Inode.shape
  dirty : left.dirtyBlock = right.dirtyBlock
  heap : left.heap = right.heap
  allocs : left.allocs = right.allocs
  loader : left.loader = right.loader

theorem find_eq_ptr (cache : BlockCache) (path : Bytes)
    : cache.find path = cache.inodeIdx[path]?.bind cache.ptr := by
  unfold find ptr
  cases cache.inodeIdx[path]? <;> rfl

theorem Alike.inCache (alike : Alike left right) (path : Bytes)
    : left.inCache path = right.inCache path := by
  unfold BlockCache.inCache
  rw [alike.idx]

theorem Alike.find (alike : Alike left right) (path : Bytes)
    : (left.find path).map Inode.shape = (right.find path).map Inode.shape := by
  rw [find_eq_ptr, find_eq_ptr, alike.idx]
  cases right.inodeIdx[path]? with
  | none => rfl
  | some id => exact alike.ptrs id

theorem Alike.getInodeByPath (alike : Alike left right) (path : Bytes)
    : Related (fun one two => one.shape = two.shape) (left.getInodeByPath path)
        (right.getInodeByPath path) := by
  have same := alike.find path
  unfold BlockCache.getInodeByPath
  cases one : left.find path with
  | none =>
      rw [one, Option.map_none, eq_comm, Option.map_eq_none_iff] at same
      rw [same]
      exact .error _
  | some inode =>
      rw [one, Option.map_some, eq_comm, Option.map_eq_some_iff] at same
      obtain ⟨other, found, same⟩ := same
      rw [found]
      exact .ok same.symm

theorem Alike.put (alike : Alike left right) (path : Bytes) (shape : one.shape = two.shape)
    (id : one.inodeId = two.inodeId)
    : Alike (left.put path one) (right.put path two) where
  idx := by
    unfold BlockCache.put
    dsimp only
    rw [alike.idx, id]
  ptrs := by
    intro other
    rw [ptr_put, ptr_put, id]
    split
    · exact congrArg some shape
    · exact alike.ptrs other
  dirty := alike.dirty
  heap := alike.heap
  allocs := alike.allocs
  loader := alike.loader

theorem Alike.set (alike : Alike left right) (path : Bytes) (shape : one.shape = two.shape)
    : Alike (left.set path one) (right.set path two) where
  idx := alike.idx
  ptrs := by
    intro other
    rw [ptr_set, ptr_set, alike.idx]
    split
    · exact congrArg some shape
    · exact alike.ptrs other
  dirty := alike.dirty
  heap := alike.heap
  allocs := alike.allocs
  loader := alike.loader

theorem Alike.withBlocks (alike : Alike left right) (di : DiskInodeInfo)
    : Alike (left.withBlocks di) (right.withBlocks di) where
  idx := alike.idx
  ptrs := alike.ptrs
  dirty := alike.dirty
  heap := by
    unfold BlockCache.withBlocks
    dsimp only
    rw [alike.heap, alike.allocs]
  allocs := congrArg (· + 1) alike.allocs
  loader := alike.loader

/-- A loaded path looks the same whenever it was loaded. -/
theorem Alike.loaded (alike : Alike left right) (env : Env) (now loadTime : Clock) (path : Bytes)
    (di : DiskInodeInfo)
    : Alike (left.loaded env now path di) (right.loaded env loadTime path di) := by
  refine (alike.withBlocks di).put path ?_ ?_
  · rw [alike.allocs]
    exact loadedInode_shape_eq env now loadTime path right.allocs di
  · have first := (loadedInode_shape env now path left.allocs di).2.2.2
    have second := (loadedInode_shape env loadTime path right.allocs di).2.2.2
    exact first.trans second.symm

theorem Alike.refl (cache : BlockCache) : Alike cache cache :=
  ⟨rfl, fun _ => rfl, rfl, rfl, rfl, rfl⟩

/-- Caches that agree show the same contents. -/
theorem Alike.fileState (alike : Alike left right) (env : Env) (path : Bytes)
    : left.fileState env path = right.fileState env path := by
  have same := congrArg (Option.map (Shape.fileState right.heap)) (alike.find path)
  rw [Option.map_map, Option.map_map] at same
  unfold BlockCache.fileState
  rw [alike.inCache, alike.loader, alike.heap]
  split
  · exact congrArg Except.ok same
  · rfl

theorem Alike.dirtyBlocksOf (alike : Alike left right) (id : Bytes)
    : left.dirtyBlocksOf id = right.dirtyBlocksOf id := by
  unfold BlockCache.dirtyBlocksOf
  rw [alike.dirty, alike.heap]

/-- A cache that agrees with one of the two. -/
def SameResult (left right : Int × BlockCache) : Prop :=
  left.1 = right.1 ∧ Alike left.2 right.2

theorem Alike.loadFromDisk (alike : Alike left right) (away : left.inCache path = false)
    : Related SameResult (left.loadFromDisk env now path) (right.loadFromDisk env now path) := by
  have away' := (alike.inCache path).symm.trans away
  unfold BlockCache.loadFromDisk
  rw [alike.loader]
  refine (Related.of_eq (R := Eq) fun _ => rfl).bind ?_
  rintro di _ rfl
  simp only [away, away', Bool.false_eq_true, if_false]
  refine .ite (fun _ => .ok ⟨rfl, alike⟩) fun _ => .ok ⟨rfl, ?_⟩
  exact alike.loaded env now now path di

theorem Alike.ensureCached (alike : Alike left right) (env : Env) (now : Clock) (path : Bytes)
    : Related SameResult (left.ensureCached env now path) (right.ensureCached env now path) := by
  unfold BlockCache.ensureCached
  cases here : left.inCache path with
  | true =>
      rw [(alike.inCache path).symm.trans here]
      exact .ok ⟨rfl, alike⟩
  | false =>
      rw [(alike.inCache path).symm.trans here]
      exact alike.loadFromDisk here

theorem Alike.makeFile (alike : Alike left right) (path : Bytes) (mode : UInt32) (dirty : Bool)
    : Alike (left.makeFile env now path mode dirty) (right.makeFile env now path mode dirty) := by
  obtain ⟨idx, ptrs, dirty, heap, allocs, loader⟩ := alike.put path
    (rfl : (if dirty then ((Inode.new env now path).setMode now mode).setDirty
      else (Inode.new env now path).setMode now mode).shape = _) rfl
  exact ⟨idx, ptrs, dirty, heap, allocs, loader⟩

theorem Alike.moved (alike : Alike left right) (from_ to_ : Bytes) (shape : one.shape = two.shape)
    : Alike (left.moved env now from_ to_ one) (right.moved env now from_ to_ two) := by
  have blocks := congrArg Shape.blocks shape
  have size := congrArg Shape.size shape
  have mode := congrArg Shape.mode shape
  have emptied : (one.deleteInode now).shape = (two.deleteInode now).shape := by
    unfold Inode.shape at blocks size mode ⊢
    dsimp only [Inode.deleteInode, Inode.updateMtime] at size mode ⊢
    rw [size, mode]
  have copied : (Inode.copyOf env now to_ one).shape = (Inode.copyOf env now to_ two).shape := by
    unfold Inode.shape at blocks size mode ⊢
    dsimp only [Inode.copyOf] at blocks size mode ⊢
    rw [blocks, size, mode]
  obtain ⟨idx, ptrs, dirty, heap, allocs, loader⟩ :=
    (alike.set from_ emptied).put to_ copied rfl
  exact ⟨idx, ptrs, dirty, heap, allocs, loader⟩

/-- Renaming works alike on caches that agree. -/
theorem Alike.rename (alike : Alike left right) (env : Env) (now : Clock) (from_ to_ : Bytes)
    : Related SameResult (left.rename env now from_ to_) (right.rename env now from_ to_) := by
  unfold BlockCache.rename
  refine (alike.ensureCached env now from_).bind ?_
  rintro ⟨res, first⟩ ⟨_, first'⟩ ⟨rfl, alike⟩
  refine .ite (fun _ => .ok ⟨rfl, alike⟩) fun _ => ?_
  refine (alike.ensureCached env now to_).bind ?_
  rintro ⟨res, second⟩ ⟨_, second'⟩ ⟨rfl, alike⟩
  refine (alike.getInodeByPath from_).bind fun old old' shape => ?_
  have mode : old.mode = old'.mode := congrArg Shape.mode shape
  dsimp only
  have ready : Alike (if res = -1 then second.makeFile env now to_ old.mode true else second)
      (if res = -1 then second'.makeFile env now to_ old'.mode true else second') := by
    split
    · rw [mode]
      exact alike.makeFile to_ _ true
    · exact alike
  refine (ready.getInodeByPath from_).bind fun source source' shape => ?_
  exact .ok ⟨rfl, ready.moved from_ to_ shape⟩

-----------------------------------------------------------------------------------------
-- Rounds of a write
-----------------------------------------------------------------------------------------

/-- Two states of a write that differ in the times, links and marks of the inode only. Whether
the inode is deleted is such a mark here.
-/
structure Writing.Alike (left right : Writing) : Prop where
  blocks : left.inode.blocks = right.inode.blocks
  size : left.inode.size = right.inode.size
  mode : left.inode.mode = right.inode.mode
  heap : left.heap = right.heap
  dirty : left.dirty = right.dirty

theorem Writing.Alike.writeBlock {left right : Writing} (alike : left.Alike right) (buf : Bytes)
    (alloc blockIdx currIdx blockSize offsetAmt : Nat)
    : (writeBlock now buf alloc blockIdx currIdx blockSize offsetAmt left).Alike
        (writeBlock now buf alloc blockIdx currIdx blockSize offsetAmt right) := by
  obtain ⟨blocks, size, mode, heap, dirty⟩ := alike
  unfold BlockCache.writeBlock
  rw [blocks]
  cases right.inode.blocks[blockIdx]? with
  | some temp =>
      exact ⟨blocks, size, mode, by simp only [heap], by simp only [dirty]⟩
  | none =>
      refine ⟨?_, size, mode, by simp only [heap], by simp only [dirty]⟩
      simp only [Inode.addBlock, Inode.updateMtime, blocks]

/-- The loop works alike on both, by induction on its fuel. -/
theorem Writing.Alike.writeLoop {left right : Writing} (alike : left.Alike right) (buf : Bytes)
    (alloc numBlocks fuel blockIdx currIdx blockSize offsetAmt : Nat)
    : Related Writing.Alike
        (writeLoop now buf alloc numBlocks fuel blockIdx currIdx blockSize offsetAmt left)
        (writeLoop now buf alloc numBlocks fuel blockIdx currIdx blockSize offsetAmt right) := by
  induction fuel generalizing blockIdx currIdx blockSize offsetAmt left right with
  | zero => exact .error _
  | succ fuel ih =>
      rw [BlockCache.writeLoop, BlockCache.writeLoop]
      refine .ite (fun _ => ih (alike.writeBlock ..) ..) fun _ => ?_
      exact .ite (fun _ => .ok alike) fun _ => .error _

/-- So do the loops of two writes. -/
theorem runLoop_alike {buf : Bytes} {offset : Nat} (idx : left.inodeIdx = right.inodeIdx)
    (heap : left.heap = right.heap) (allocs : left.allocs = right.allocs)
    (dirty : left.dirtyBlock = right.dirtyBlock) (blocks : one.blocks = two.blocks)
    (size : one.size = two.size) (mode : one.mode = two.mode)
    : Related Writing.Alike (left.runLoop now path buf offset one)
        (right.runLoop now path buf offset two) := by
  unfold runLoop
  dsimp only
  rw [allocs, idx, dirty]
  generalize 2 ^ 32 + 1 = fuel
  apply Writing.Alike.writeLoop
  have kept (inode : Inode) (stop : Nat) : (grown now inode stop).mode = inode.mode := by
    unfold grown
    split <;> rfl
  refine ⟨?_, ?_, ?_, heap, ?_⟩
  · rw [grown_blocks, grown_blocks, blocks]
  · rw [grown_size, grown_size, size]
  · rw [kept, kept, mode]
  · rfl

-----------------------------------------------------------------------------------------
-- Operations on a path that is only on disk
-----------------------------------------------------------------------------------------

/-- A call with its return value and the bytes that it stores into the caller's buffer. -/
def answer (env : Env) (now : Clock) (cache : BlockCache)
    : Op → Except Fault ((Int × Bytes) × BlockCache)
  | .read path size offset => do
      let (result, bytes, cache) ← cache.read env now path size offset
      .ok ((result, bytes), cache)
  | .readlink path size => do
      let answer ← cache.readlink env path size
      .ok (answer, cache)
  | .write path buf offset => do
      let (result, cache) ← cache.write env now path buf offset
      .ok ((result, []), cache)
  | op => do
      let (result, cache) ← step env now cache op
      .ok ((result, []), cache)

/-- The same answer, the same contents of the paths, and the same dirty blocks. -/
def SameAfter (env : Env) (paths : List Bytes) (left right : (Int × Bytes) × BlockCache) : Prop :=
  left.1 = right.1
  ∧ (∀ path ∈ paths, left.2.fileState env path = right.2.fileState env path)
  ∧ ∀ id, left.2.dirtyBlocksOf id = right.2.dirtyBlocksOf id

/-- A call has the same outcome as if the path had been loaded first. -/
def Transparent (env : Env) (loadTime now : Clock) (cache : BlockCache) (path : Bytes) (op : Op)
    : Prop :=
  ∃ loaded, cache.loadFromDisk env loadTime path = .ok (0, loaded)
    ∧ Related (SameAfter env op.paths) (answer env now cache op) (answer env now loaded op)

/-- The calls that work on the contents of a path. -/
def UsesContents (path : Bytes) : Op → Prop
  | .read other _ _ | .write other _ _ | .truncate other _ | .remove other | .rmdir other
  | .readlink other _ | .rename other _ => other = path
  | .makeFile .. | .symlink .. | .open_ _ | .getattr _ | .getRefs _ | .inCache _
  | .loadFromDisk _ | .getInodeByPath _ | .flushToDisk | .flushToShdw _ | .loadTrees _
  | .readdir .. => False

/-- When it makes no difference to a call whether a path is loaded first. Reads and renames load
it themselves, a write does not take back a deletion found on disk, a link on disk is not found
by `readlink`, and the other calls fail. What is returned for the link tells the two ways apart
unless the size asked for, as an `int`, is the error, and nothing is stored.
-/
def Indifferent (di : DiskInodeInfo) : Op → Prop
  | .read .. | .rename .. => True
  | .write _ buf offset => LoopEnds buf.length offset → di.deleted = false
  | .readlink _ size =>
      isLinkMode di.mode = true
        → size % 2 ^ 32 = 2 ^ 32 - 2 ∧ di.blockData.size < 2 ^ 32
          ∧ ∀ blockIdx < di.blockData.size,
            ∃ block, di.blockData[blockIdx]? = some block ∧ block.actualSize = 0
  | _ => False

theorem inCache_loaded (now : Clock) (cache : BlockCache) (path : Bytes) (di : DiskInodeInfo)
    : (cache.loaded env now path di).inCache path = true := by
  simp [BlockCache.inCache, BlockCache.loaded, BlockCache.put]

/-- A loaded path is found with the contents that are on disk. -/
theorem fileState_loaded (now : Clock) (cache : BlockCache) (path : Bytes) (di : DiskInodeInfo)
    : (cache.loaded env now path di).fileState env path = .ok (some di.fileState) := by
  obtain ⟨size, mode, deleted, _⟩ := loadedInode_shape env now path cache.allocs di
  have blocks : (fun blockIdx : Nat =>
      ((loadedInode env now path cache.allocs di).blocks[blockIdx]?).map
        (cache.withBlocks di).heap) = fun blockIdx : Nat => di.blockData[blockIdx]? := by
    funext blockIdx
    rw [loadedInode_blocks]
    split
    case isTrue here =>
      have known := Std.ExtTreeMap.getElem?_eq_some_getElem here
      simp only [Option.map_some, BlockCache.withBlocks, if_true, known, Option.getD_some]
    case isFalse missing => rw [Option.map_none, Std.ExtTreeMap.getElem?_eq_none missing]
  have shape : ((loadedInode env now path cache.allocs di).undoDirty).shape.fileState
      (cache.withBlocks di).heap = di.fileState := by
    unfold Shape.fileState DiskInodeInfo.fileState
    rw [← size, ← mode, ← deleted, ← blocks]
    rfl
  rw [BlockCache.fileState, inCache_loaded, if_pos rfl, BlockCache.loaded, find_put_self]
  exact congrArg (fun state => Except.ok (some state)) shape

/-- A path that is loaded when it is read might as well be loaded before. -/
theorem read_away (away : cache.inCache path = false)
    (lookup : cache.loader.findLatestInode env path true = .ok di) (found : di.mtime ≠ 0)
    (size offset : Nat)
    : cache.read env now path size offset
      = (cache.loaded env now path di).read env now path size offset := by
  simp only [BlockCache.read, ensureCached, away, inCache_loaded, Bool.false_eq_true, if_false,
    if_true, loadFromDisk_away now away lookup found, ok_bind]

theorem rename_away (away : cache.inCache path = false)
    (lookup : cache.loader.findLatestInode env path true = .ok di) (found : di.mtime ≠ 0)
    (to_ : Bytes)
    : cache.rename env now path to_ = (cache.loaded env now path di).rename env now path to_ := by
  have loads : cache.ensureCached env now path = .ok (0, cache.loaded env now path di) := by
    rw [ensureCached, away, loadFromDisk_away now away lookup found]
    rfl
  have cached : (cache.loaded env now path di).ensureCached env now path
      = .ok (0, cache.loaded env now path di) := by
    rw [ensureCached, inCache_loaded, if_pos rfl]
  unfold BlockCache.rename
  rw [loads, cached]

/-- Reading works alike on caches that agree. -/
theorem Alike.read (alike : Alike left right) (path : Bytes) (size offset : Nat)
    : Related (fun left right => left.1 = right.1 ∧ left.2.1 = right.2.1
          ∧ Alike left.2.2 right.2.2)
        (left.read env now path size offset) (right.read env now path size offset) := by
  unfold BlockCache.read
  refine (alike.ensureCached env now path).bind ?_
  rintro ⟨res, first⟩ ⟨_, first'⟩ ⟨rfl, alike⟩
  refine (alike.getInodeByPath path).bind fun inode inode' shape => ?_
  rw [alike.heap, Inode.read_congr (congrArg Shape.blocks shape)]
  refine (Related.of_eq (R := Eq) fun _ => rfl).bind ?_
  rintro bytes _ rfl
  exact .ok ⟨rfl, rfl, alike⟩

/-- A write to a path that is loaded first, by the write itself or before. -/
theorem writeCounted_away (away : cache.inCache path = false)
    (lookup : cache.loader.findLatestInode env path true = .ok di) (found : di.mtime ≠ 0)
    (buf : Bytes) (offset : Nat)
    : cache.writeCounted env now path buf offset
      = (do
        let state ← (cache.loaded env now path di).runLoop now path buf offset
          (loadedInode env now path cache.allocs di).undoDirty
        .ok ((buf.length : Int), (cache.loaded env now path di).written path state)) := by
  have known : (cache.loaded env now path di).getInodeByPath path
      = .ok (loadedInode env now path cache.allocs di).undoDirty :=
    getInodeByPath_eq_ok.mpr (find_put_self ..)
  have loads : cache.readyToWrite env now path = .ok (0, cache.loaded env now path di) := by
    rw [readyToWrite, away, loadFromDisk_away now away lookup found]
    rfl
  unfold BlockCache.writeCounted
  rw [loads, ok_bind]
  simp only [known, ok_bind, Int.reduceNeg, Int.reduceEq, if_false]

/-- The contents of a path that was written. -/
theorem fileState_written (here : path ∈ cache.inodeIdx) (state : Writing)
    : (cache.written path state).fileState env path
      = .ok (some (state.inode.shape.fileState state.heap)) := by
  have cached : (cache.written path state).inCache path = true := by
    simp [BlockCache.inCache, BlockCache.written, BlockCache.set, here]
  rw [BlockCache.fileState, cached, if_pos rfl, find_written here]
  rfl

/-- Writes that worked alike leave the same contents if they leave the same deletion mark. -/
theorem Writing.Alike.shape_eq_iff {state state' : Writing} (alike : state.Alike state')
    : state.inode.shape.fileState state.heap = state'.inode.shape.fileState state'.heap
      ↔ state.inode.deleted = state'.inode.deleted := by
  obtain ⟨blocks, size, mode, heap, _⟩ := alike
  constructor
  · exact congrArg FileState.deleted
  · intro deleted
    unfold Inode.shape
    rw [blocks, size, mode, deleted, heap]

/-- A link that is loaded answers like one that is missing if its size is the error, as an
`int`, and none of its blocks holds a byte.
-/
theorem read_loaded_eq_iff (loadTime : Clock) (cache : BlockCache) (path : Bytes)
    (di : DiskInodeInfo) (size : Nat)
    : (loadedInode env loadTime path cache.allocs di).undoDirty.read env
        (cache.loaded env loadTime path di).heap size 0 = .ok (ENOENT, [])
      ↔ size % 2 ^ 32 = 2 ^ 32 - 2 ∧ di.blockData.size < 2 ^ 32
        ∧ ∀ blockIdx < di.blockData.size,
          ∃ block, di.blockData[blockIdx]? = some block ∧ block.actualSize = 0 := by
  have error : ENOENT = Util.toInt size ↔ size % 2 ^ 32 = 2 ^ 32 - 2 := by
    unfold ENOENT Util.toInt
    rw [Int.bmod_def]
    split <;> omega
  have blocks : (loadedInode env loadTime path cache.allocs di).undoDirty.blocks
      = di.blockData.map fun blockIdx _ => (cache.allocs, blockIdx) := by
    refine Std.ExtTreeMap.ext_getElem? fun blockIdx => ?_
    refine (loadedInode_blocks ..).trans ?_
    rw [Std.ExtTreeMap.getElem?_map]
    split
    case isTrue here => rw [Std.ExtTreeMap.getElem?_eq_some_getElem here, Option.map_some]
    case isFalse missing => rw [Std.ExtTreeMap.getElem?_eq_none missing, Option.map_none]
  rw [Inode.read_eq_ok_iff, error]
  refine and_congr_right fun same => ?_
  rw [Inode.readBytes_eq_nil_iff env (by omega), blocks, Std.ExtTreeMap.size_map]
  refine and_congr_right fun _ => forall_congr' fun blockIdx => imp_congr_right fun _ => ?_
  rw [Std.ExtTreeMap.getElem?_map]
  cases known : di.blockData[blockIdx]? with
  | none => simp
  | some block =>
      have stored : (cache.loaded env loadTime path di).heap (cache.allocs, blockIdx) = block := by
        simp only [BlockCache.loaded, BlockCache.put, BlockCache.withBlocks, if_true, known,
          Option.getD_some]
      simp [stored]

section Compared

variable (loadTime : Clock) (away : cache.inCache path = false)
  (lookup : cache.loader.findLatestInode env path true = .ok di) (found : di.mtime ≠ 0)

include away lookup found

/-- The call is compared with the call after the path was loaded. -/
theorem transparent_iff_related (op : Op)
    : Transparent env loadTime now cache path op
      ↔ Related (SameAfter env op.paths) (answer env now cache op)
        (answer env now (cache.loaded env loadTime path di) op) := by
  have loads := loadFromDisk_away loadTime away lookup found
  constructor
  · rintro ⟨loaded, outcome, related⟩
    obtain ⟨_, rfl⟩ := Prod.mk.inj (Except.ok.inj (loads.symm.trans outcome))
    exact related
  · exact fun related => ⟨_, loads, related⟩

theorem transparent_read (size offset : Nat)
    : Transparent env loadTime now cache path (.read path size offset) := by
  rw [transparent_iff_related loadTime away lookup found]
  have alike := (Alike.refl cache).loaded env now loadTime path di
  simp only [answer]
  rw [read_away away lookup found]
  refine (alike.read path size offset).bind ?_
  rintro ⟨result, bytes, next⟩ ⟨_, _, next'⟩ ⟨rfl, rfl, alike⟩
  exact .ok ⟨rfl, fun path _ => alike.fileState env path, alike.dirtyBlocksOf⟩

theorem transparent_rename (to_ : Bytes)
    : Transparent env loadTime now cache path (.rename path to_) := by
  rw [transparent_iff_related loadTime away lookup found]
  have alike := (Alike.refl cache).loaded env now loadTime path di
  simp only [answer, step]
  rw [rename_away away lookup found]
  refine (alike.rename env now path to_).bind ?_
  rintro ⟨result, next⟩ ⟨_, next'⟩ ⟨rfl, alike⟩
  exact .ok ⟨rfl, fun path _ => alike.fileState env path, alike.dirtyBlocksOf⟩

/-- A truncation fails unless the path is cached. -/
theorem not_transparent_truncate (size : Nat)
    : ¬ Transparent env loadTime now cache path (.truncate path size) := by
  rw [transparent_iff_related loadTime away lookup found]
  intro related
  have known : (cache.loaded env loadTime path di).getInodeByPath path = .ok _ :=
    getInodeByPath_eq_ok.mpr (find_put_self ..)
  simp only [answer, step, truncate, away, inCache_loaded, known, ok_bind, Bool.false_eq_true,
    if_false, if_true] at related
  have same : ((-1 : Int), ([] : Bytes)) = (0, []) := related.ok_inj.1
  exact absurd same (by decide)

/-- So does the removal of a directory. -/
theorem not_transparent_rmdir
    : ¬ Transparent env loadTime now cache path (.rmdir path) := by
  rw [transparent_iff_related loadTime away lookup found]
  intro related
  have known : (cache.loaded env loadTime path di).getInodeByPath path = .ok _ :=
    getInodeByPath_eq_ok.mpr (find_put_self ..)
  simp only [answer, step, rmdir, away, inCache_loaded, known, ok_bind, Bool.false_eq_true,
    if_false, if_true] at related
  have same : ((-1 : Int), ([] : Bytes)) = (0, []) := related.ok_inj.1
  exact absurd same (by decide)

/-- So does the removal of a file, which after loading may at most meet a null pointer. -/
theorem not_transparent_remove
    : ¬ Transparent env loadTime now cache path (.remove path) := by
  rw [transparent_iff_related loadTime away lookup found]
  intro related
  obtain ⟨inode, known⟩
      : ∃ inode, ((cache.loaded env loadTime path di).decLinks path).getInodeByPath path
        = .ok inode := by
    simp only [getInodeByPath_eq_ok, find_decLinks, BlockCache.loaded, find_put_self,
      Option.map_some]
    exact ⟨_, rfl⟩
  simp only [answer, step, remove, away, inCache_loaded, known, ok_bind, Bool.false_eq_true,
    if_false, if_true] at related
  cases noNulls : (cache.loaded env loadTime path di).noNulls with
  | false =>
      simp only [noNulls, Bool.false_eq_true, if_false, error_bind] at related
      cases related
  | true =>
      simp only [noNulls, if_true, ok_bind] at related
      have same : ((-1 : Int), ([] : Bytes)) = (0, []) := related.ok_inj.1
      exact absurd same (by decide)

/-- A link can be read if it is cached; for a file it makes no difference. -/
theorem transparent_readlink_iff (size : Nat)
    (fresh
      : ∀ (id : Bytes) (blockIdx : Nat) (ref : BlockRef),
        (cache.dirtyBlock[id]?.getD ∅)[blockIdx]? = some ref → ref.1 < cache.allocs)
    : Transparent env loadTime now cache path (.readlink path size)
      ↔ Indifferent di (.readlink path size) := by
  rw [transparent_iff_related loadTime away lookup found]
  have mode := (loadedInode_shape env loadTime path cache.allocs di).2.1
  have known : (cache.loaded env loadTime path di).getInodeByPath path
      = .ok (loadedInode env loadTime path cache.allocs di).undoDirty :=
    getInodeByPath_eq_ok.mpr (find_put_self ..)
  have linked : ((loadedInode env loadTime path cache.allocs di).undoDirty).mode = di.mode := mode
  -- loading alone changes neither the contents of the path nor the dirty blocks
  have contents (other : Bytes) (member : other ∈ [path])
      : cache.fileState env other = (cache.loaded env loadTime path di).fileState env other := by
    rw [List.mem_singleton.mp member, fileState_loaded, BlockCache.fileState, away, lookup]
    simp only [Bool.false_eq_true, if_false, ok_bind, if_neg found]
  have dirty (id : Bytes)
      : cache.dirtyBlocksOf id = (cache.loaded env loadTime path di).dirtyBlocksOf id := by
    refine Std.ExtTreeMap.ext_getElem? fun blockIdx => ?_
    simp only [BlockCache.dirtyBlocksOf, Std.ExtTreeMap.getElem?_map]
    have same : ((cache.loaded env loadTime path di).dirtyBlock[id]?.getD ∅)[blockIdx]?
        = (cache.dirtyBlock[id]?.getD ∅)[blockIdx]? := rfl
    rw [same]
    cases listed : (cache.dirtyBlock[id]?.getD ∅)[blockIdx]? with
    | none => rfl
    | some ref =>
        have old := fresh id blockIdx ref listed
        have kept : (cache.loaded env loadTime path di).heap ref = cache.heap ref :=
          if_neg (Nat.ne_of_lt old)
        rw [Option.map_some, Option.map_some, kept]
  simp only [answer, readlink, away, inCache_loaded, known, ok_bind, Bool.false_eq_true, if_false,
    if_true, linked]
  cases link : isLinkMode di.mode with
  | false =>
      refine iff_of_true (.ok ⟨rfl, contents, dirty⟩) fun same => ?_
      rw [link] at same
      cases same
  | true =>
      have condition := @read_loaded_eq_iff env loadTime cache path di size
      simp only [if_true, Indifferent, link, true_imp_iff, ← condition]
      cases answered : (loadedInode env loadTime path cache.allocs di).undoDirty.read env
          (cache.loaded env loadTime path di).heap size 0 with
      | error fault =>
          refine iff_of_false (fun related => ?_) (fun same => ?_)
          · rw [error_bind] at related
            cases related
          · cases same
      | ok shown =>
          rw [ok_bind, Except.ok.injEq]
          constructor
          · exact fun related => related.ok_inj.1.symm
          · rintro rfl
            exact .ok ⟨rfl, contents, dirty⟩

/-- A write comes to the same end unless it brings back a file that is deleted on disk. -/
theorem transparent_write_iff (buf : Bytes) (offset : Nat)
    : Transparent env loadTime now cache path (.write path buf offset)
      ↔ (LoopEnds buf.length offset → di.deleted = false) := by
  rw [transparent_iff_related loadTime away lookup found]
  have alike := (Alike.refl cache).loaded env now loadTime path di
  have onDisk := (loadedInode_shape env now path cache.allocs di).2.2.1
  have shape := loadedInode_shape_eq env now loadTime path cache.allocs di
  have here (time : Clock) : path ∈ (cache.loaded env time path di).inodeIdx := by
    simp [BlockCache.loaded, BlockCache.put]
  have known : (cache.loaded env loadTime path di).find path = some _ := find_put_self ..
  have mark (cache : BlockCache) (inode : Inode) (state : Writing)
      (loop : cache.runLoop now path buf offset inode = .ok state)
      : state.inode.deleted = inode.deleted := by
    rw [(runLoop_same loop).deleted, grown]
    split <;> rfl
  simp only [answer, BlockCache.write]
  rw [writeCounted_away away lookup found, writeCounted_cached known]
  -- the marks that differ have no influence on the loop
  have loops : Related Writing.Alike
      ((cache.loaded env now path di).runLoop now path buf offset
        (loadedInode env now path cache.allocs di).undoDirty)
      (((cache.loaded env loadTime path di).set path
        (loadedInode env loadTime path cache.allocs di).undoDirty.setDirty.remakeInode).runLoop now
          path buf offset
          (loadedInode env loadTime path cache.allocs di).undoDirty.setDirty.remakeInode) :=
    runLoop_alike alike.idx alike.heap alike.allocs alike.dirty (congrArg Shape.blocks shape)
      (congrArg Shape.size shape) (congrArg Shape.mode shape)
  rw [← runLoop_ends_iff now (cache.loaded env now path di) path
    (loadedInode env now path cache.allocs di).undoDirty]
  cases direct : (cache.loaded env now path di).runLoop now path buf offset
      (loadedInode env now path cache.allocs di).undoDirty with
  | error fault =>
      rw [direct] at loops
      generalize runLoop now _ path buf offset _ = later at loops
      cases loops with
      | error _ =>
          refine iff_of_true (.error fault) ?_
          rintro ⟨_, same⟩
          cases same
  | ok state =>
      rw [direct] at loops
      cases indirect : ((cache.loaded env loadTime path di).set path
          (loadedInode env loadTime path cache.allocs di).undoDirty.setDirty.remakeInode).runLoop
          now path buf offset
          (loadedInode env loadTime path cache.allocs di).undoDirty.setDirty.remakeInode with
      | error fault =>
          rw [indirect] at loops
          cases loops
      | ok state' =>
          rw [indirect] at loops
          have same := loops.ok_inj
          have contents := same.shape_eq_iff
          rw [mark _ _ _ direct, mark _ _ _ indirect] at contents
          have there : path ∈ ((cache.loaded env loadTime path di).set path
              (loadedInode env loadTime path
                cache.allocs di).undoDirty.setDirty.remakeInode).inodeIdx :=
            here loadTime
          simp only [ok_bind]
          constructor
          · intro related _
            have after := related.ok_inj.2.1 path (List.mem_singleton_self _)
            dsimp only at after
            rw [fileState_written (here now), fileState_written there, Except.ok.injEq,
              Option.some.injEq, contents] at after
            exact onDisk.symm.trans after
          · intro alive
            refine .ok ⟨rfl, fun other member => ?_, fun id => ?_⟩
            · rw [List.mem_singleton.mp member, fileState_written (here now),
                fileState_written there]
              exact congrArg (fun state => Except.ok (some state))
                (contents.mpr (onDisk.trans (alive ⟨state, rfl⟩)))
            · unfold BlockCache.dirtyBlocksOf written
              dsimp only [BlockCache.set]
              rw [alike.idx, alike.dirty, same.dirty, same.heap]

end Compared

/-- After every run, a call on a path that is only on disk has the same outcome as if the path had
been loaded first, exactly if it is a read, a rename, a write that does not end or that finds no
deletion on disk, or a `readlink` of something that is no link.
-/
theorem transparent_iff {disk : List Image} {order : VisitOrder} {size : Nat}
    {events : List Event} (run : Run (Steps env) (BlockCache.new disk order size) events cache)
    (away : cache.inCache path = false)
    (lookup : cache.loader.findLatestInode env path true = .ok di) (found : di.mtime ≠ 0)
    (loadTime now : Clock) {op : Op} (uses : UsesContents path op)
    : Transparent env loadTime now cache path op ↔ Indifferent di op := by
  have stocked := Stocked.run run
  cases op with
  | read _ size offset =>
      obtain rfl := uses
      exact iff_of_true (transparent_read loadTime away lookup found size offset) trivial
  | write _ buf offset =>
      obtain rfl := uses
      exact transparent_write_iff loadTime away lookup found buf offset
  | truncate _ size =>
      obtain rfl := uses
      exact iff_of_false (not_transparent_truncate loadTime away lookup found size) id
  | remove _ =>
      obtain rfl := uses
      exact iff_of_false (not_transparent_remove loadTime away lookup found) id
  | rmdir _ =>
      obtain rfl := uses
      exact iff_of_false (not_transparent_rmdir loadTime away lookup found) id
  | readlink _ size =>
      obtain rfl := uses
      exact transparent_readlink_iff loadTime away lookup found size
        fun id blockIdx ref listed => (stocked.dirty id blockIdx ref listed).2
  | rename _ to_ =>
      obtain rfl := uses
      exact iff_of_true (transparent_rename loadTime away lookup found to_) trivial
  | _ => exact uses.elim

/-- A cache that has mapped one file, which holds the path `/a`. -/
def mapped : BlockCache :=
  (BlockCache.new [(fileOfA [1, 2] 7).image] ⟨id, .refl⟩ 0).loadTrees ⟨id, .refl⟩

theorem run_mapped
    : Run (Steps Util.twoDigests) (BlockCache.new [(fileOfA [1, 2] 7).image] ⟨id, .refl⟩ 0)
        [⟨.at_ 1, .loadTrees ⟨id, .refl⟩, 0⟩] mapped :=
  .snoc .nil rfl

/-- The path is found there. -/
theorem lookup_mapped
    : ∃ di, mapped.loader.findLatestInode Util.twoDigests [47, 97] true = .ok di
        ∧ di.mtime ≠ 0 := by
  have positive : ∀ call ∈ heldBy [fileOfA [1, 2] 7] [47, 97], 0 < call.mtime := by
    decide +kernel
  obtain ⟨di, outcome, shows⟩ := findLatestInode_attributes (by decide) positive true
  refine ⟨di, outcome, ?_⟩
  rcases shows with ⟨empty, _⟩ | ⟨call, newest, same⟩
  · have one : (visitedBy [fileOfA [1, 2] 7] [47, 97] true).length = 1 := by decide +kernel
    rw [empty] at one
    exact nomatch one
  · have member := (visitedBy_sublist _ _ _).subset newest.member
    have time : di.mtime = call.mtime := congrArg Attributes.mtime same
    have late := positive call member
    omega

/-- A truncation of the path on disk. -/
theorem transparent_iff_mapped
    : ∃ di, mapped.loader.findLatestInode Util.twoDigests [47, 97] true = .ok di
        ∧ di.mtime ≠ 0
        ∧ (Transparent Util.twoDigests (.at_ 2) (.at_ 3) mapped [47, 97] (.truncate [47, 97] 0)
          ↔ Indifferent di (.truncate [47, 97] 0)) := by
  obtain ⟨di, lookup, found⟩ := lookup_mapped
  exact ⟨di, lookup, found, transparent_iff run_mapped rfl lookup found _ _ rfl⟩

/-- It fails, while it succeeds once the path is loaded. -/
theorem truncate_opaque
    : Run (Steps Util.twoDigests) (BlockCache.new [(fileOfA [1, 2] 7).image] ⟨id, .refl⟩ 0)
          [⟨.at_ 1, .loadTrees ⟨id, .refl⟩, 0⟩] mapped
        ∧ mapped.inCache [47, 97] = false
        ∧ (∃ di, mapped.loader.findLatestInode Util.twoDigests [47, 97] true = .ok di
          ∧ di.mtime ≠ 0)
        ∧ ¬ Transparent Util.twoDigests (.at_ 2) (.at_ 3) mapped [47, 97]
          (.truncate [47, 97] 0) := by
  obtain ⟨di, lookup, found⟩ := lookup_mapped
  exact ⟨run_mapped, rfl, ⟨di, lookup, found⟩,
    not_transparent_truncate (.at_ 2) rfl lookup found 0⟩

end BlockCache

end ZippyFS
