import ZippyFS.Cache.Inode
import ZippyFS.Index.BPlusIndexLoader

/-! The block cache: operations on cached inodes, loading them from tree files, and flushing
them into a new tree file. Every operation reads the clock once.
-/

namespace ZippyFS

/-- An order in which the loader's hash map is iterated. -/
structure VisitOrder where
  visit : List Image → List Image
  perm : ∀ images, (visit images).Perm images

/-- The members of a `BPLUSIndexLoader`: the mapped files in the order of iteration, and
whether their mappings are still there.
-/
structure Loader where
  fileToMem : List Image
  mapped : Bool

/-- `find_latest_inode`. It reads the files for every path that is not empty. -/
def Loader.findLatestInode (env : Env) (loader : Loader) (path : Bytes) (getData : Bool)
    : Except Fault DiskInodeInfo :=
  if path ≠ [] ∧ !loader.fileToMem.isEmpty ∧ !loader.mapped then .error .unmapped
  else BPLUSIndexLoader.findLatestInode env loader.fileToMem path getData

/-- `class BlockCache`, the blocks behind its shared pointers, and the directory that index
files are written to and loaded from. The pointers in `inode_ptrs_` may be null.
-/
structure BlockCache where
  inodeIdx : Std.ExtTreeMap Bytes Bytes
  inodePtrs : Std.ExtTreeMap Bytes (Option Inode)
  dirtyBlock : Std.ExtTreeMap Bytes (Std.ExtTreeMap Nat BlockRef)
  dirtyBlockMtime : Std.ExtTreeMap Bytes (Std.ExtTreeMap Nat Nat)
  size : Nat
  hasChanged : Bool
  loader : Loader
  heap : BlockRef → Block
  allocs : Nat
  disk : List Image

/-- `-ENOENT`. -/
def ENOENT : Int := -2

namespace BlockCache

-----------------------------------------------------------------------------------------
-- The cache index
-----------------------------------------------------------------------------------------

/-- The constructor. Its loader is a copy of a temporary whose destructor unmaps the files.
The counter `size_` starts with whatever its memory holds.
-/
def new (disk : List Image) (order : VisitOrder) (size : Nat) : BlockCache where
  inodeIdx := ∅
  inodePtrs := ∅
  dirtyBlock := ∅
  dirtyBlockMtime := ∅
  size := size % 2 ^ 64
  hasChanged := false
  loader := ⟨order.visit disk, false⟩
  heap := fun _ => Block.empty
  allocs := 0
  disk := disk

/-- `load_trees` of the loader. -/
def loadTrees (cache : BlockCache) (order : VisitOrder) : BlockCache :=
  { cache with loader := ⟨order.visit cache.disk, true⟩ }

/-- `in_cache`: 0 is `true`. The root always counts as cached. -/
def inCache (cache : BlockCache) (path : Bytes) : Bool :=
  path ∈ cache.inodeIdx ∨ path = [47]

/-- The inode of a path, if the path is in the index and its pointer is not null. -/
def find (cache : BlockCache) (path : Bytes) : Option Inode :=
  match cache.inodeIdx[path]? with
  | none => none
  | some id => cache.inodePtrs[id]?.join

/-- `get_inode_by_path`, whose result every caller inside the cache dereferences. -/
def getInodeByPath (cache : BlockCache) (path : Bytes) : Except Fault Inode :=
  match cache.find path with
  | none => .error .nullInode
  | some inode => .ok inode

/-- What a call of `get_inode_by_path` from outside leaves behind: `operator[]` creates the
entries it misses.
-/
def indexed (cache : BlockCache) (path : Bytes) : BlockCache :=
  { cache with
    inodeIdx := cache.inodeIdx.insertIfNew path []
    inodePtrs := cache.inodePtrs.insertIfNew (cache.inodeIdx[path]?.getD []) none }

/-- `inode_idx_[path] = ptr->get_id(); inode_ptrs_[ptr->get_id()] = ptr`. -/
def put (cache : BlockCache) (path : Bytes) (ptr : Inode) : BlockCache :=
  { cache with
    inodeIdx := cache.inodeIdx.insert path ptr.inodeId
    inodePtrs := cache.inodePtrs.insert ptr.inodeId (some ptr) }

/-- A change of the inode behind `get_inode_by_path`. -/
def set (cache : BlockCache) (path : Bytes) (inode : Inode) : BlockCache :=
  { cache with
    inodePtrs := cache.inodePtrs.insert (cache.inodeIdx[path]?.getD []) (some inode) }

-----------------------------------------------------------------------------------------
-- Loading
-----------------------------------------------------------------------------------------

/-- The inode that `load_from_disk` builds: later calls of `add_block` stamp it anew. -/
def loadedInode (env : Env) (now : Clock) (path : Bytes) (alloc : Nat) (di : DiskInodeInfo)
    : Inode :=
  let latest := (((((((Inode.new env now path).setId di.inodeId).setSize now di.size).setMode now
    di.mode).setNlink di.nlink).setMtime di.mtime).setCtime di.ctime)
  let latest := if di.deleted then latest.deleteInode now else latest
  di.blockData.toList.foldl (fun inode blk => inode.addBlock now blk.1 (alloc, blk.1)) latest

/-- The cache after the blocks found on disk were allocated. -/
def withBlocks (cache : BlockCache) (di : DiskInodeInfo) : BlockCache :=
  { cache with
    allocs := cache.allocs + 1
    heap := fun ref =>
      if ref.1 = cache.allocs then di.blockData[ref.2]?.getD (cache.heap ref)
      else cache.heap ref }

/-- `load_from_disk`. -/
def loadFromDisk (env : Env) (now : Clock) (cache : BlockCache) (path : Bytes)
    : Except Fault (Int × BlockCache) := do
  let di ← cache.loader.findLatestInode env path true
  if di.mtime = 0 then .ok (-1, cache)
  else
    let latest := (loadedInode env now path cache.allocs di).undoDirty
    if cache.inCache path then do
      let inode ← cache.getInodeByPath path
      if inode.ulMtime ≥ di.mtime then .ok (0, cache.withBlocks di)
      else .ok (0, (cache.withBlocks di).put path latest)
    else .ok (0, (cache.withBlocks di).put path latest)

/-- The first lines of `read`, `open` and `rename`: a path that is not cached is loaded. -/
def ensureCached (env : Env) (now : Clock) (cache : BlockCache) (path : Bytes)
    : Except Fault (Int × BlockCache) :=
  if cache.inCache path then .ok (0, cache) else cache.loadFromDisk env now path

/-- `open`. -/
def open_ (env : Env) (now : Clock) (cache : BlockCache) (path : Bytes)
    : Except Fault (Int × BlockCache) := do
  let (_, cache) ← cache.ensureCached env now path
  .ok (0, cache)

-----------------------------------------------------------------------------------------
-- Creating, removing and renaming
-----------------------------------------------------------------------------------------

/-- `make_file`. -/
def makeFile (env : Env) (now : Clock) (cache : BlockCache) (path : Bytes) (mode : UInt32)
    (dirty : Bool)
    : BlockCache :=
  let ptr := (Inode.new env now path).setMode now mode
  let ptr := if dirty then ptr.setDirty else ptr
  { cache.put path ptr with size := (cache.size + 1) % 2 ^ 64, hasChanged := true }

/-- Whether every pointer in `inode_ptrs_` may be dereferenced. -/
def noNulls (cache : BlockCache) : Bool :=
  cache.inodePtrs.toList.all (fun ent => ent.2.isSome)

/-- The loop of `remove` over all cached inodes. -/
def decLinks (cache : BlockCache) (path : Bytes) : BlockCache :=
  { cache with
    inodePtrs := cache.inodePtrs.map (fun _ ptr =>
      ptr.map (fun inode => if path ∈ inode.links then inode.decLink path else inode)) }

/-- The cache after one inode was deleted. -/
def deleted (now : Clock) (cache : BlockCache) (path : Bytes) (inode : Inode) : BlockCache :=
  { cache.set path (inode.deleteInode now) with hasChanged := true }

/-- `remove`. -/
def remove (now : Clock) (cache : BlockCache) (path : Bytes)
    : Except Fault (Int × BlockCache) :=
  if cache.inCache path then
    if cache.noNulls then do
      let inode ← (cache.decLinks path).getInodeByPath path
      .ok (0,
        { (cache.decLinks path).deleted now path inode with
          size := (cache.size + (2 ^ 64 - 1)) % 2 ^ 64 })
    else .error .nullInode
  else .ok (-1, cache)

/-- `rmdir`. -/
def rmdir (now : Clock) (cache : BlockCache) (path : Bytes)
    : Except Fault (Int × BlockCache) :=
  if cache.inCache path then do
    let inode ← cache.getInodeByPath path
    .ok (0, cache.deleted now path inode)
  else .ok (-1, cache)

/-- The cache after the last lines of `rename`. -/
def moved (env : Env) (now : Clock) (cache : BlockCache) (from_ to_ : Bytes) (source : Inode)
    : BlockCache :=
  { (cache.set from_ (source.deleteInode now)).put to_ (Inode.copyOf env now to_ source) with
    hasChanged := true }

/-- `rename`. -/
def rename (env : Env) (now : Clock) (cache : BlockCache) (from_ to_ : Bytes)
    : Except Fault (Int × BlockCache) := do
  let (res, cache) ← cache.ensureCached env now from_
  if res = -1 then .ok (-1, cache)
  else
    let (res, cache) ← cache.ensureCached env now to_
    let old ← cache.getInodeByPath from_
    let cache := if res = -1 then cache.makeFile env now to_ old.mode true else cache
    let source ← cache.getInodeByPath from_
    .ok (0, cache.moved env now from_ to_ source)

/-- `symlink`: a new inode for `from`, under the index entry of `to`. -/
def symlink (env : Env) (now : Clock) (cache : BlockCache) (from_ to_ : Bytes) : BlockCache :=
  { cache.put to_ ((Inode.new env now from_).setMode now (S_IFLNK ||| 0o600)) with
    hasChanged := true }

-----------------------------------------------------------------------------------------
-- Reading and writing
-----------------------------------------------------------------------------------------

/-- What the block loop of `write` changes: the inode, its blocks, and its entries in
`dirty_block_` and `dirty_block_mtime_`.
-/
structure Writing where
  inode : Inode
  heap : BlockRef → Block
  dirty : Std.ExtTreeMap Nat BlockRef
  mtimes : Std.ExtTreeMap Nat Nat

/-- One round of the loop. An existing block takes the bytes from the start of the buffer, a
new one ignores the offset.
-/
def writeBlock (now : Clock) (buf : Bytes) (alloc blockIdx currIdx blockSize offsetAmt : Nat)
    (state : Writing)
    : Writing :=
  match state.inode.blocks[blockIdx]? with
  | some temp =>
      { inode := state.inode.touch now
        heap := Function.update state.heap temp
          ((state.heap temp).insert buf blockSize offsetAmt)
        dirty := state.dirty.insert blockIdx temp
        mtimes := state.mtimes.insert blockIdx (Util.getTime now) }
  | none =>
      let ptr := (alloc, blockIdx)
      let inode := state.inode.addBlock now blockIdx ptr
      { inode := inode
        heap := Function.update state.heap ptr (Block.new (buf.drop currIdx) blockSize)
        dirty := state.dirty.insert blockIdx ptr
        mtimes := state.mtimes.insert blockIdx inode.ulMtime }

/-- The block loop of `write`. Its index has 32 bits, and the offset into a block counts for
the first one only.
-/
def writeLoop (now : Clock) (buf : Bytes) (alloc numBlocks : Nat)
    : Nat → Nat → Nat → Nat → Nat → Writing → Except Fault Writing
  | 0, _, _, _, _, _ => .error .diverges
  | fuel + 1, blockIdx, currIdx, blockSize, offsetAmt, state =>
      if blockIdx < numBlocks then
        let currIdx := currIdx + blockSize
        let blockSize := if buf.length < currIdx + SIZE then buf.length - currIdx else SIZE
        writeLoop now buf alloc numBlocks fuel ((blockIdx + 1) % 2 ^ 32) currIdx blockSize 0
          (writeBlock now buf alloc blockIdx currIdx blockSize offsetAmt state)
      else if currIdx + blockSize = buf.length then .ok state
      else .error .assertion

/-- The inode that the block loop of `write` starts with. -/
def grown (now : Clock) (inode : Inode) (stop : Nat) : Inode :=
  if inode.size < stop then inode.setSize now stop else inode

/-- The block loop of `write` on an inode, from the block that `offset` lies in. -/
def runLoop (now : Clock) (cache : BlockCache) (path buf : Bytes) (offset : Nat) (inode : Inode)
    : Except Fault Writing :=
  let id := cache.inodeIdx[path]?.getD []
  let stop := (buf.length + offset) % 2 ^ 64
  writeLoop now buf cache.allocs (Util.ulongCeil stop SIZE) (2 ^ 32 + 1)
    (offset / SIZE % 2 ^ 32) 0 0 (if offset < SIZE then offset else offset % SIZE)
    { inode := grown now inode stop
      heap := cache.heap
      dirty := cache.dirtyBlock[id]?.getD ∅
      mtimes := cache.dirtyBlockMtime[id]?.getD ∅ }

/-- The cache after the block loop of `write`. -/
def written (cache : BlockCache) (path : Bytes) (state : Writing) : BlockCache :=
  let id := cache.inodeIdx[path]?.getD []
  { cache.set path state.inode with
    heap := state.heap
    dirtyBlock := cache.dirtyBlock.insert id state.dirty
    dirtyBlockMtime := cache.dirtyBlockMtime.insert id state.mtimes
    allocs := cache.allocs + 1
    hasChanged := true }

/-- The first lines of `write`. Only a path that was cached is marked as no longer deleted. -/
def readyToWrite (env : Env) (now : Clock) (cache : BlockCache) (path : Bytes)
    : Except Fault (Int × BlockCache) :=
  if cache.inCache path then do
    let inode ← cache.getInodeByPath path
    .ok (0, cache.set path inode.setDirty.remakeInode)
  else cache.loadFromDisk env now path

/-- `write` up to its return: -1 or the number of bytes, before it becomes an `int`. -/
def writeCounted (env : Env) (now : Clock) (cache : BlockCache) (path buf : Bytes)
    (offset : Nat)
    : Except Fault (Int × BlockCache) := do
  let (found, cache) ← cache.readyToWrite env now path
  if found = -1 then .ok (-1, cache)
  else
    let inode ← cache.getInodeByPath path
    let state ← cache.runLoop now path buf offset inode
    .ok (buf.length, cache.written path state)

/-- `write`. -/
def write (env : Env) (now : Clock) (cache : BlockCache) (path buf : Bytes) (offset : Nat)
    : Except Fault (Int × BlockCache) := do
  let (count, cache) ← cache.writeCounted env now path buf offset
  .ok (Util.toInt count, cache)

/-- `read`: the return value, the bytes stored into the caller's buffer, and the cache. -/
def read (env : Env) (now : Clock) (cache : BlockCache) (path : Bytes) (size offset : Nat)
    : Except Fault (Int × Bytes × BlockCache) := do
  let (_, cache) ← cache.ensureCached env now path
  let inode ← cache.getInodeByPath path
  let (result, bytes) ← inode.read env cache.heap size offset
  .ok (result, bytes, cache)

/-- `readlink`: the return value and the bytes stored into the caller's buffer. -/
def readlink (env : Env) (cache : BlockCache) (path : Bytes) (size : Nat)
    : Except Fault (Int × Bytes) :=
  if cache.inCache path then do
    let inode ← cache.getInodeByPath path
    if isLinkMode inode.mode then inode.read env cache.heap size 0
    else .ok (ENOENT, [])
  else .ok (ENOENT, [])

/-- `truncate`. -/
def truncate (now : Clock) (cache : BlockCache) (path : Bytes) (size : Nat)
    : Except Fault (Int × BlockCache) :=
  if cache.inCache path then do
    let inode ← cache.getInodeByPath path
    .ok (0, { cache.set path (inode.setSize now size) with hasChanged := true })
  else .ok (-1, cache)

-----------------------------------------------------------------------------------------
-- Attributes and listings
-----------------------------------------------------------------------------------------

/-- `getattr`: the return value and what is stored into the caller's structure. -/
def getattr (env : Env) (cache : BlockCache) (path : Bytes)
    : Except Fault (Int × Option Stat) :=
  if cache.inCache path then do
    let inode ← cache.getInodeByPath path
    .ok (0, some inode.stat)
  else do
    let di ← cache.loader.findLatestInode env path false
    if di.mtime = 0 then .ok (ENOENT, none)
    else
      .ok (0, some {
        stMode := di.mode
        stNlink := di.nlink
        stBlocks := di.size / SIZE + (if di.size % SIZE = 0 then 1 else 0)
        stSize := di.size
        stCtim := Util.getTimeTs di.ctime
        stMtim := Util.getTimeTs di.mtime
        stAtim := none })

/-- `get_refs`. -/
def getRefs (cache : BlockCache) (path : Bytes) : Except Fault (Finset Bytes) :=
  if cache.inCache path then do
    let inode ← cache.getInodeByPath path
    .ok inode.links
  else .error .notHere

/-- Keep an entry unless the one kept is newer. -/
def addName (addedNames : Std.ExtTreeMap Bytes IndexEntry) (diskEnt : IndexEntry)
    : Std.ExtTreeMap Bytes IndexEntry :=
  match addedNames[diskEnt.path]? with
  | none => addedNames.insert diskEnt.path diskEnt
  | some added =>
      if added.mtime > diskEnt.mtime then addedNames
      else addedNames.insert diskEnt.path diskEnt

/-- `readdir`: the files on disk are loaded anew and all their records are merged. -/
def readdir (cache : BlockCache) (order : VisitOrder) (path : Bytes)
    : Except Fault (List IndexEntry × BlockCache) := do
  let cache := cache.loadTrees order
  let diskEnts ← BPLUSIndexLoader.getChildren path cache.loader.fileToMem []
  let addedNames := diskEnts.foldl addName ∅
  .ok (addedNames.toList.map Prod.snd, cache)

-----------------------------------------------------------------------------------------
-- Flushing
-----------------------------------------------------------------------------------------

/-- The dirty blocks listed under an inode's id. -/
def dirtyBlocksOf (cache : BlockCache) (id : Bytes) : Std.ExtTreeMap Nat Block :=
  (cache.dirtyBlock[id]?.getD ∅).map (fun _ ref => cache.heap ref)

/-- The index that `flush_to_disk` fills. -/
def flusher (cache : BlockCache) : BPLUSIndex :=
  let blocks := cache.dirtyBlock.toList.flatMap (fun ent => ent.2.toList)
  let blockSize := (blocks.map (fun bl => (cache.heap bl.2).actualSize)).sum
  let psize := (cache.inodeIdx.toList.map (fun ent => ent.1.length)).sum
  BPLUSIndex.new cache.inodeIdx.size blockSize blocks.length psize

/-- The loop of `flush_to_disk` over the cache index. -/
def fill (env : Env) (cache : BlockCache) : Except Fault BPLUSIndex :=
  cache.inodeIdx.toList.foldlM
    (fun flusher ent => do
      let inode ← cache.getInodeByPath ent.1
      flusher.addInode env inode (cache.dirtyBlocksOf ent.2)
        (cache.dirtyBlockMtime[ent.2]?.getD ∅))
    cache.flusher

/-- The cache after its contents went into an index. The file of an index is created by the
first call of `add_inode`.
-/
def flushed (cache : BlockCache) (index : BPLUSIndex) : BlockCache :=
  { cache with
    inodeIdx := ∅
    inodePtrs := ∅
    dirtyBlock := ∅
    size := 0
    disk := if cache.inodeIdx.isEmpty then cache.disk else cache.disk ++ [index.image] }

/-- `flush_to_disk`. -/
def flushToDisk (env : Env) (cache : BlockCache) : Except Fault (Int × BlockCache) :=
  if cache.hasChanged then do
    let index ← cache.fill env
    .ok (0, cache.flushed index)
  else .ok (-1, cache)

/-- `MAX_SIZE`. -/
def MAX_SIZE : Nat := 65536

/-- `flush_to_shdw`. -/
def flushToShdw (env : Env) (cache : BlockCache) (onClose : Bool)
    : Except Fault (Int × BlockCache) :=
  if cache.size < MAX_SIZE ∧ onClose = false then .ok (-1, cache) else cache.flushToDisk env

end BlockCache

end ZippyFS
