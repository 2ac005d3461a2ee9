import ZippyFS.Cache.Documents
import ZippyFS.Cache.OtherPaths

/-! The cache refines the store of documents: ids, shared blocks and the heap behind them are not
observable. Every call returns what the store returns, and leaves the documents that the store is
left with.
-/

namespace ZippyFS

open Runs Outcomes

variable {env : Env} {now : Clock} {heap : BlockRef → Block} {inode : Inode} {path buf : Bytes}
  {di : DiskInodeInfo}

-----------------------------------------------------------------------------------------
-- Documents behind inodes
-----------------------------------------------------------------------------------------

/-- What an inode stands for. -/
def Inode.document (heap : BlockRef → Block) (inode : Inode) : Document :=
  ⟨{ inode with blocks := ∅ }, inode.blocks.map (fun _ ref => heap ref)⟩

/-- What a record on disk stands for, once it is loaded. -/
def DiskInodeInfo.document (env : Env) (now : Clock) (path : Bytes) (di : DiskInodeInfo)
    : Document :=
  ⟨{ (BlockCache.loadedInode env now path 0 di).undoDirty with blocks := ∅ }, di.blockData⟩

/-- What a loader can fetch. -/
def Loader.fetch (env : Env) (now : Clock) (loader : Loader) : Archive := fun path => do
  let di ← loader.findLatestInode env path true
  .ok (if di.mtime = 0 then none else some (di.document env now path))

/-- The documents in a cache. -/
def BlockCache.documents (cache : BlockCache) : Store := fun path =>
  (cache.find path).map (Inode.document cache.heap)

namespace Inode

@[simp] theorem document_getElem? (blockIdx : Nat)
    : (inode.document heap).blocks[blockIdx]? = inode.blocks[blockIdx]?.map heap := by
  rw [document, Std.ExtTreeMap.getElem?_map]

@[simp] theorem document_size : (inode.document heap).blocks.size = inode.blocks.size :=
  Std.ExtTreeMap.size_map

/-- Only blocks that the inode refers to matter. -/
theorem document_congr {other : BlockRef → Block}
    (same
      : ∀ (blockIdx : Nat) (ref : BlockRef), inode.blocks[blockIdx]? = some ref
        → other ref = heap ref)
    : inode.document other = inode.document heap := by
  refine congrArg (Document.mk _) (Std.ExtTreeMap.ext_getElem? fun blockIdx => ?_)
  rw [Std.ExtTreeMap.getElem?_map, Std.ExtTreeMap.getElem?_map]
  exact Option.map_congr fun ref held => same blockIdx ref held

@[simp] theorem document_setSize (size : Nat)
    : (inode.setSize now size).document heap = (inode.document heap).resize now size := rfl

@[simp] theorem document_remake
    : inode.setDirty.remakeInode.document heap = (inode.document heap).remake := rfl

@[simp] theorem document_copyOf
    : (copyOf env now path inode).document heap = (inode.document heap).copyOf env now path := rfl

/-- A document without blocks. -/
theorem document_empty (empty : inode.blocks = ∅) : inode.document heap = ⟨inode, ∅⟩ := by
  obtain ⟨⟩ := inode
  obtain rfl : _ = ∅ := empty
  exact congrArg (Document.mk _) (Std.ExtTreeMap.ext_getElem? fun blockIdx => by simp)

@[simp] theorem document_deleteInode
    : (inode.deleteInode now).document heap = (inode.document heap).delete now := by
  rw [document_empty rfl]
  rfl

theorem document_decLink
    : (if path ∈ inode.links then inode.decLink path else inode).document heap
      = (inode.document heap).decLink path := by
  unfold Document.decLink
  by_cases listed : path ∈ inode.links
  · have listed' : path ∈ (inode.document heap).attributes.links := listed
    rw [if_pos listed, if_pos listed']
    by_cases last : inode.nlink - 1 = 0
    · have last' : (inode.document heap).attributes.nlink - 1 = 0 := last
      rw [document_empty (by simp [decLink, last]), if_pos last']
      simp [decLink, document, last]
    · have last' : ¬ (inode.document heap).attributes.nlink - 1 = 0 := last
      rw [if_neg last']
      simp [decLink, document, last]
  · exact (congrArg (document heap) (if_neg listed)).trans (if_neg listed).symm

/-- A file that was just made. -/
theorem document_new (mode : UInt32) (dirty : Bool)
    : (if dirty then ((new env now path).setMode now mode).setDirty
        else (new env now path).setMode now mode).document heap
      = .new env now path mode dirty := by
  cases dirty <;> exact document_empty rfl

/-- A read sees the document only, by induction on the fuel of its loop. -/
theorem document_read (size offset : Nat)
    : (inode.document heap).read env size offset = inode.readBytes env heap size offset := by
  have loop (fuel blockIdx offsetAmt : Nat) (buf : Bytes)
      : (inode.document heap).readLoop env size fuel blockIdx offsetAmt buf
        = readLoop env heap inode size fuel blockIdx offsetAmt buf := by
    induction fuel generalizing blockIdx offsetAmt buf with
    | zero => rfl
    | succ fuel ih =>
        rw [Document.readLoop, readLoop, document_size, document_getElem?]
        cases inode.blocks[blockIdx]? with
        | none => rfl
        | some ref => simp only [Option.map_some, ih]
  exact loop ..

end Inode

-----------------------------------------------------------------------------------------
-- Writing
-----------------------------------------------------------------------------------------

namespace BlockCache

variable {state : Writing} {alloc : Nat}

/-- What a write has made of its inode so far. -/
def Writing.document (state : Writing) : Document := state.inode.document state.heap

/-- A block of a write changes the document as it should: no other block is behind the same
reference.
-/
theorem Writing.document_writeBlock (filed : state.inode.Filed) (now : Clock) (buf : Bytes)
    (alloc blockIdx currIdx blockSize offsetAmt : Nat)
    : (writeBlock now buf alloc blockIdx currIdx blockSize offsetAmt state).document
        = state.document.writeBlock now buf blockIdx currIdx blockSize offsetAmt
      ∧ (writeBlock now buf alloc blockIdx currIdx blockSize offsetAmt state).inode.Filed := by
  have elsewhere {ref : BlockRef} {other : Nat} (number : ref.2 = blockIdx) (block : Block)
      (apart : other ≠ blockIdx)
      : state.inode.blocks[other]?.map (Function.update state.heap ref block)
        = state.inode.blocks[other]?.map state.heap := by
    refine Option.map_congr fun held there => Function.update_of_ne ?_ ..
    rintro rfl
    exact apart ((filed other held there).symm.trans number)
  have stored : (state.inode.document state.heap).blocks[blockIdx]?
      = state.inode.blocks[blockIdx]?.map state.heap := Inode.document_getElem? blockIdx
  unfold writeBlock Document.writeBlock Writing.document
  cases present : state.inode.blocks[blockIdx]? with
  | some temp =>
      rw [present, Option.map_some] at stored
      rw [stored]
      refine ⟨congrArg (Document.mk _) (Std.ExtTreeMap.ext_getElem? fun other => ?_), filed⟩
      rw [Tables.getElem?_insert, Inode.document_getElem?, Std.ExtTreeMap.getElem?_map]
      by_cases same : other = blockIdx
      · rw [if_pos same, same]
        simp [Inode.touch, present]
      · rw [if_neg same]
        exact elsewhere (filed blockIdx temp present) _ same
  | none =>
      rw [present, Option.map_none] at stored
      rw [stored]
      refine ⟨congrArg (Document.mk _) (Std.ExtTreeMap.ext_getElem? fun other => ?_), ?_⟩
      · rw [Tables.getElem?_insert, Inode.document_getElem?, Std.ExtTreeMap.getElem?_map]
        simp only [Inode.addBlock, Tables.getElem?_insert]
        by_cases same : other = blockIdx
        · rw [if_pos same, if_pos same, Option.map_some, Function.update_self]
        · rw [if_neg same, if_neg same]
          exact elsewhere rfl _ same
      · intro other ref held
        simp only [Inode.addBlock, Tables.getElem?_insert] at held
        split at held
        case isTrue same => rw [← Option.some.inj held, same]
        case isFalse => exact filed other ref held

/-- So does the loop, by induction on its fuel. -/
theorem Writing.document_writeLoop {numBlocks fuel blockIdx currIdx blockSize offsetAmt : Nat}
    (filed : state.inode.Filed)
    : Related (fun (state : Writing) doc => state.document = doc)
        (writeLoop now buf alloc numBlocks fuel blockIdx currIdx blockSize offsetAmt state)
        (state.document.writeLoop now buf numBlocks fuel blockIdx currIdx blockSize offsetAmt) := by
  induction fuel generalizing blockIdx currIdx blockSize offsetAmt state with
  | zero => exact .error _
  | succ fuel ih =>
      rw [writeLoop, Document.writeLoop]
      split
      · dsimp only
        rw [← (document_writeBlock filed now buf alloc _ _ _ _).1]
        exact ih (document_writeBlock filed now buf alloc _ _ _ _).2
      · exact .ite (fun _ => .ok rfl) (fun _ => .error _)

/-- The loop of a write leaves what a write to the document leaves. -/
theorem Writing.document_runLoop {cache : BlockCache} (filed : inode.Filed) (path : Bytes)
    (offset : Nat)
    : Related (fun (state : Writing) doc => state.document = doc)
        (cache.runLoop now path buf offset inode)
        ((inode.document cache.heap).write now buf offset) := by
  have start : (⟨grown now inode ((buf.length + offset) % 2 ^ 64), cache.heap,
      cache.dirtyBlock[cache.inodeIdx[path]?.getD []]?.getD ∅,
      cache.dirtyBlockMtime[cache.inodeIdx[path]?.getD []]?.getD ∅⟩ : Writing).document
      = ⟨grown now (inode.document cache.heap).attributes ((buf.length + offset) % 2 ^ 64),
          (inode.document cache.heap).blocks⟩ := by
    unfold Writing.document grown
    by_cases small : inode.size < (buf.length + offset) % 2 ^ 64
    · rw [if_pos small, if_pos (show (inode.document cache.heap).attributes.size < _ from small)]
      rfl
    · rw [if_neg small, if_neg (show ¬ (inode.document cache.heap).attributes.size < _ from small)]
  unfold runLoop Document.write
  dsimp only
  rw [← start]
  refine Writing.document_writeLoop fun blockIdx ref held => filed blockIdx ref ?_
  rwa [grown_blocks] at held

-----------------------------------------------------------------------------------------
-- Documents of a cache
-----------------------------------------------------------------------------------------

variable {cache next : BlockCache} {names : Set Bytes} {store : Store} {loader : Loader}

/-- Both know the same paths. -/
theorem known_documents (coherent : Coherent env names cache) (path : Bytes)
    : cache.documents.known path = cache.inCache path := by
  rw [Store.known, inCache, documents, Option.isSome_map, decide_eq_decide, coherent.mem_iff]

/-- Both find the same files. -/
theorem get_documents (path : Bytes)
    : Related (fun inode doc => cache.find path = some inode ∧ inode.document cache.heap = doc)
        (cache.getInodeByPath path) (cache.documents.get path) := by
  rw [getInodeByPath, Store.get, documents]
  cases found : cache.find path with
  | none => exact .error _
  | some inode => exact .ok ⟨rfl, rfl⟩

/-- A change of one path that leaves the heap alone. -/
theorem documents_put
    (found
      : ∀ other, next.find other = if other = path then some inode else cache.find other)
    (heap : next.heap = cache.heap)
    : next.documents = cache.documents.put path (inode.document cache.heap) := by
  funext other
  rw [documents, found, heap, Store.put]
  by_cases same : other = path
  · rw [if_pos same, same, Function.update_self, Option.map_some]
  · rw [if_neg same, Function.update_of_ne same]
    rfl

theorem documents_decLinks (cache : BlockCache) (path : Bytes)
    : (cache.decLinks path).documents
      = fun other => (cache.documents other).map (·.decLink path) := by
  funext other
  rw [documents, find_decLinks, documents, Option.map_map, Option.map_map]
  exact Option.map_congr fun inode _ => Inode.document_decLink

/-- Blocks that are allocated for a load belong to no document yet. -/
theorem documents_withBlocks (stocked : Stocked cache) (di : DiskInodeInfo)
    : (cache.withBlocks di).documents = cache.documents := by
  funext other
  refine Option.map_congr fun inode found => Inode.document_congr fun blockIdx ref held => ?_
  have older := stocked.fresh _ _ _ _ (ptr_of_find found) held
  exact if_neg older.ne

-----------------------------------------------------------------------------------------
-- Loading
-----------------------------------------------------------------------------------------

/-- The attributes of a loaded inode do not depend on where its blocks are, by induction on them. -/
theorem foldl_addBlock_attributes (now : Clock) (blocks : List (Nat × Block)) (alloc : Nat)
    {one two : Inode} (same : { one with blocks := ∅ } = { two with blocks := ∅ })
    : ({ blocks.foldl (fun inode blk => inode.addBlock now blk.1 (alloc, blk.1)) one with
          blocks := ∅ } : Inode)
      = { blocks.foldl (fun inode blk => inode.addBlock now blk.1 (0, blk.1)) two with
          blocks := ∅ } := by
  induction blocks generalizing one two with
  | nil => exact same
  | cons head rest ih => exact ih (congrArg (·.updateMtime now) same)

/-- A loaded inode stands for what was found on disk. -/
theorem document_loaded (cache : BlockCache) (path : Bytes) (di : DiskInodeInfo)
    : (loadedInode env now path cache.allocs di).undoDirty.document (cache.withBlocks di).heap
      = di.document env now path := by
  have attributes : ({ loadedInode env now path cache.allocs di with blocks := ∅ } : Inode)
      = { loadedInode env now path 0 di with blocks := ∅ } := by
    unfold loadedInode
    exact foldl_addBlock_attributes now di.blockData.toList cache.allocs rfl
  refine congrArg₂ Document.mk (congrArg Inode.undoDirty attributes)
    (Std.ExtTreeMap.ext_getElem? fun blockIdx => ?_)
  have held : (loadedInode env now path cache.allocs di).undoDirty.blocks[blockIdx]?
      = if blockIdx ∈ di.blockData then some (cache.allocs, blockIdx) else none :=
    loadedInode_blocks now path cache.allocs di blockIdx
  rw [Std.ExtTreeMap.getElem?_map, held]
  by_cases there : blockIdx ∈ di.blockData
  · have known := Std.ExtTreeMap.getElem?_eq_some_getElem there
    rw [if_pos there, Option.map_some, known]
    exact congrArg some ((if_pos rfl).trans (by rw [known, Option.getD_some]))
  · rw [if_neg there, Option.map_none, Std.ExtTreeMap.getElem?_eq_none there]

/-- The cache shows the documents of a store. -/
structure Shows (env : Env) (names : Set Bytes) (loader : Loader) (cache : BlockCache)
    (store : Store)
    : Prop where
  coherent : Coherent env names cache
  stocked : Stocked cache
  loader : cache.loader = loader
  documents : cache.documents = store

/-- A path that is loaded gets the document that is fetched. -/
theorem Shows.load (shows : Shows env names loader cache store) (member : path ∈ names)
    (away : cache.inCache path = false)
    : Related (fun left right => left.1 = right.1 ∧ Shows env names loader left.2 right.2)
        (cache.loadFromDisk env now path) (store.load (loader.fetch env now) path) := by
  obtain ⟨coherent, stocked, rfl, rfl⟩ := shows
  rw [loadFromDisk, Store.load, Loader.fetch]
  cases lookup : cache.loader.findLatestInode env path true with
  | error fault => exact .error fault
  | ok di =>
      rw [ok_bind, ok_bind, ok_bind]
      by_cases none : di.mtime = 0
      · rw [if_pos none, if_pos none]
        exact .ok ⟨rfl, coherent, stocked, rfl, rfl⟩
      · rw [if_neg none, if_neg none]
        dsimp only
        rw [if_neg (by simp [away])]
        have allocated : Coherent env names (cache.withBlocks di) := coherent.congr rfl rfl
        obtain ⟨own, named⟩ := loadedInode_named now lookup none
        refine .ok ⟨rfl, coherent.loaded member lookup none, stocked.loaded lookup, rfl, ?_⟩
        rw [← documents_withBlocks stocked di, ← document_loaded]
        exact documents_put (fun other => allocated.find_put member named own) rfl

theorem Shows.ensure (shows : Shows env names loader cache store) (member : path ∈ names)
    : Related (fun left right => left.1 = right.1 ∧ Shows env names loader left.2 right.2)
        (cache.ensureCached env now path) (store.ensure (loader.fetch env now) path) := by
  have known := known_documents shows.coherent path
  rw [shows.documents] at known
  rw [ensureCached, Store.ensure, known]
  refine .ite (fun _ => .ok ⟨rfl, shows⟩) fun away => shows.load member ?_
  simpa using away

/-- A file that both find. -/
theorem Shows.get (shows : Shows env names loader cache store) (path : Bytes)
    : Related (fun inode doc => cache.find path = some inode ∧ inode.document cache.heap = doc)
        (cache.getInodeByPath path) (store.get path) := by
  rw [← shows.documents]
  exact get_documents path

-----------------------------------------------------------------------------------------
-- Calls
-----------------------------------------------------------------------------------------

/-- What a call returns and leaves is what the store returns and is left with. -/
abbrev SameOutcome (env : Env) (names : Set Bytes) (loader : Loader) (left : Int × BlockCache)
    (right : Int × Store)
    : Prop :=
  left.1 = right.1 ∧ Shows env names loader left.2 right.2

theorem Shows.known (shows : Shows env names loader cache store) (path : Bytes)
    : store.known path = cache.inCache path := by
  rw [← shows.documents, known_documents shows.coherent]

/-- A cached inode is changed, and gets no new blocks. -/
theorem Shows.set (shows : Shows env names loader cache store) {before after : Inode}
    (found : cache.find path = some before) (same : Inode.SameName before after)
    (fewer
      : ∀ (blockIdx : Nat) (ref : BlockRef), after.blocks[blockIdx]? = some ref
        → before.blocks[blockIdx]? = some ref)
    : Shows env names loader (cache.set path after)
        (store.put path (after.document cache.heap)) where
  coherent := shows.coherent.set found same
  stocked := shows.stocked.shrink found fewer
  loader := shows.loader
  documents := by
    rw [← shows.documents]
    exact documents_put (fun other => shows.coherent.find_set (mem_of_find found)) rfl

/-- What else the cache keeps track of is not shown. -/
theorem Shows.congr (shows : Shows env names loader cache store)
    (idx : next.inodeIdx = cache.inodeIdx) (ptrs : next.inodePtrs = cache.inodePtrs)
    (heap : next.heap = cache.heap) (allocs : next.allocs = cache.allocs)
    (dirty : next.dirtyBlock = cache.dirtyBlock) (same : next.loader = cache.loader)
    : Shows env names loader next store where
  coherent := shows.coherent.congr idx ptrs
  stocked := shows.stocked.congr (fun id => by rw [ptr, ptr, ptrs]) heap allocs dirty
  loader := same.trans shows.loader
  documents := by
    rw [← shows.documents]
    funext other
    simp only [BlockCache.documents, find, idx, ptrs, heap]

theorem Shows.makeFile (shows : Shows env names loader cache store) (member : path ∈ names)
    (mode : UInt32) (dirty : Bool)
    : Shows env names loader (cache.makeFile env now path mode dirty)
        (store.makeFile env now path mode dirty) where
  coherent := shows.coherent.makeFile mode dirty member
  stocked := shows.stocked.makeFile mode dirty
  loader := shows.loader
  documents := by
    have made : (if dirty then ((Inode.new env now path).setMode now mode).setDirty
        else (Inode.new env now path).setMode now mode).document cache.heap
        = .new env now path mode dirty := Inode.document_new mode dirty
    rw [Store.makeFile, ← made, ← shows.documents]
    refine documents_put (fun other => ?_) rfl
    cases dirty with
    | true => exact shows.coherent.find_put member rfl rfl
    | false => exact shows.coherent.find_put member rfl rfl

theorem Shows.emptied (shows : Shows env names loader cache store) (now : Clock)
    (found : cache.find path = some inode)
    : Shows env names loader (cache.set path (inode.deleteInode now))
        (store.put path ((inode.document cache.heap).delete now)) := by
  rw [← Inode.document_deleteInode]
  exact shows.set found ⟨rfl, rfl⟩ fun blockIdx ref held => by simp [Inode.deleteInode] at held

theorem Shows.decLinks (shows : Shows env names loader cache store) (path : Bytes)
    : Shows env names loader (cache.decLinks path)
        (fun other => (store other).map (·.decLink path)) where
  coherent := shows.coherent.decLinks path
  stocked := shows.stocked.decLinks path
  loader := shows.loader
  documents := by rw [documents_decLinks, shows.documents]

theorem Shows.remove (shows : Shows env names loader cache store) (path : Bytes)
    : Related (SameOutcome env names loader) (cache.remove now path) (store.remove now path) := by
  rw [BlockCache.remove, Store.remove, shows.known, if_pos shows.coherent.pointed.noNulls]
  refine .ite (fun _ => ?_) fun _ => .ok ⟨rfl, shows⟩
  have lowered := shows.decLinks path
  refine (lowered.get path).bind fun inode doc held => .ok ⟨rfl, ?_⟩
  obtain ⟨found, same⟩ := held
  rw [← same]
  exact (lowered.emptied now found).congr rfl rfl rfl rfl rfl rfl

theorem Shows.rmdir (shows : Shows env names loader cache store) (path : Bytes)
    : Related (SameOutcome env names loader) (cache.rmdir now path) (store.rmdir now path) := by
  rw [BlockCache.rmdir, Store.rmdir, shows.known]
  refine .ite (fun _ => ?_) fun _ => .ok ⟨rfl, shows⟩
  refine (shows.get path).bind fun inode doc held => .ok ⟨rfl, ?_⟩
  obtain ⟨found, same⟩ := held
  rw [← same]
  exact (shows.emptied now found).congr rfl rfl rfl rfl rfl rfl

theorem Shows.truncate (shows : Shows env names loader cache store) (path : Bytes) (size : Nat)
    : Related (SameOutcome env names loader) (cache.truncate now path size)
        (store.truncate now path size) := by
  rw [BlockCache.truncate, Store.truncate, shows.known]
  refine .ite (fun _ => ?_) fun _ => .ok ⟨rfl, shows⟩
  refine (shows.get path).bind fun inode doc held => .ok ⟨rfl, ?_⟩
  obtain ⟨found, same⟩ := held
  rw [← same, ← Inode.document_setSize]
  have resized : Shows env names loader (cache.set path (inode.setSize now size)) _ :=
    shows.set found ⟨rfl, rfl⟩ fun _ _ held => held
  exact resized.congr rfl rfl rfl rfl rfl rfl

/-- A rename hands the blocks on: the inode that had them loses them. -/
theorem Shows.moved (shows : Shows env names loader cache store) {from_ to_ : Bytes}
    (member : to_ ∈ names) (found : cache.find from_ = some inode)
    : Shows env names loader (cache.moved env now from_ to_ inode)
        ((store.put from_ ((inode.document cache.heap).delete now)).put to_
          ((inode.document cache.heap).copyOf env now to_)) where
  coherent := shows.coherent.moved member found
  stocked := shows.stocked.moved found
  loader := shows.loader
  documents := by
    have emptied := shows.emptied now found
    rw [← Inode.document_copyOf, ← emptied.documents]
    exact documents_put (fun other => emptied.coherent.find_put member rfl rfl) rfl

theorem Shows.rename (shows : Shows env names loader cache store) {from_ to_ : Bytes}
    (source : from_ ∈ names) (target : to_ ∈ names)
    : Related (SameOutcome env names loader) (cache.rename env now from_ to_)
        (store.rename env now (loader.fetch env now) from_ to_) := by
  rw [BlockCache.rename, Store.rename]
  refine (shows.ensure source).bind ?_
  rintro ⟨res, first⟩ ⟨res', firstly⟩ ⟨rfl, one⟩
  dsimp only
  refine .ite (fun _ => .ok ⟨rfl, one⟩) fun _ => (one.ensure target).bind ?_
  rintro ⟨res, second⟩ ⟨res', secondly⟩ ⟨rfl, two⟩
  refine (two.get from_).bind fun old doc held => ?_
  obtain ⟨was, same⟩ := held
  have made : Shows env names loader
      (if res = -1 then second.makeFile env now to_ old.mode true else second)
      (if res = -1 then secondly.makeFile env now to_ doc.attributes.mode true else secondly) := by
    split
    · exact same ▸ two.makeFile target old.mode true
    · exact two
  refine (made.get from_).bind fun source doc held => .ok ⟨rfl, ?_⟩
  obtain ⟨found, same⟩ := held
  rw [← same]
  exact made.moved target found

theorem Shows.ready (shows : Shows env names loader cache store) (member : path ∈ names)
    : Related (SameOutcome env names loader) (cache.readyToWrite env now path)
        (store.ready (loader.fetch env now) path) := by
  rw [readyToWrite, Store.ready, shows.known]
  refine .ite (fun _ => ?_) fun away => shows.load member (by simpa using away)
  refine (shows.get path).bind fun inode doc held => .ok ⟨rfl, ?_⟩
  obtain ⟨found, same⟩ := held
  rw [← same, ← Inode.document_remake]
  exact shows.set found ⟨rfl, rfl⟩ fun _ _ held => held

/-- A write changes the blocks of its own path only. -/
theorem Shows.written (shows : Shows env names loader cache store) {offset : Nat}
    (found : cache.find path = some inode)
    (loop : cache.runLoop now path buf offset inode = .ok state)
    : Shows env names loader (cache.written path state) (store.put path state.document) where
  coherent := shows.coherent.written found loop
  stocked := shows.stocked.written found loop
  loader := shows.loader
  documents := by
    obtain ⟨coherent, stocked, -, rfl⟩ := shows
    funext other
    have there : (cache.written path state).find other
        = if other = path then some state.inode else cache.find other :=
      coherent.find_set (mem_of_find found)
    rw [BlockCache.documents, there, Store.put]
    by_cases same : other = path
    · rw [if_pos same, same, Function.update_self]
      rfl
    · rw [if_neg same, Function.update_of_ne same]
      refine Option.map_congr fun before known => Inode.document_congr fun blockIdx ref held => ?_
      have older := stocked.fresh _ _ _ _ (ptr_of_find known) held
      refine (runLoop_supplied stocked loop).heap ref older.ne fun blockIdx' held' => ?_
      rw [startOf, grown_blocks] at held'
      have shared := stocked.apart _ _ _ _ _ _ _ (ptr_of_find known) held (ptr_of_find found) held'
      obtain ⟨filed, member⟩ := coherent.idx (mem_of_find known)
      obtain ⟨filed', member'⟩ := coherent.idx (mem_of_find found)
      rw [filed, filed'] at shared
      exact same (coherent.apart member member' shared)

theorem Shows.write (shows : Shows env names loader cache store) (member : path ∈ names)
    (buf : Bytes) (offset : Nat)
    : Related (SameOutcome env names loader) (cache.writeCounted env now path buf offset)
        (store.write now (loader.fetch env now) path buf offset) := by
  rw [BlockCache.writeCounted, Store.write]
  refine (shows.ready member).bind ?_
  rintro ⟨found, first⟩ ⟨found', firstly⟩ ⟨rfl, one⟩
  dsimp only
  refine .ite (fun _ => .ok ⟨rfl, one⟩) fun _ => (one.get path).bind ?_
  rintro inode doc ⟨found, rfl⟩
  have filed := one.stocked.filed _ _ (ptr_of_find found)
  refine (Writing.document_runLoop filed path offset).recorded.bind ?_
  rintro state doc ⟨loop, rfl⟩
  exact .ok ⟨rfl, one.written found loop⟩

/-- A read returns the bytes that a read of the document returns. -/
theorem Shows.read (shows : Shows env names loader cache store) (member : path ∈ names)
    (size offset : Nat)
    : Related (fun left right => left.1 = right.1 ∧ left.2.1 = right.2.1
          ∧ Shows env names loader left.2.2 right.2.2)
        (cache.read env now path size offset)
        (store.read env (loader.fetch env now) path size offset) := by
  rw [BlockCache.read, Store.read]
  refine (shows.ensure member).bind ?_
  rintro ⟨res, first⟩ ⟨res', firstly⟩ ⟨rfl, one⟩
  refine (one.get path).bind ?_
  rintro inode doc ⟨found, rfl⟩
  dsimp only
  rw [Inode.document_read, Inode.read, bind_assoc]
  refine (Related.of_eq fun _ => rfl).bind (R := Eq) ?_
  rintro bytes - rfl
  exact .ok ⟨rfl, rfl, one⟩

/-- Every call on files returns what the store returns, and the cache shows what the store is left
with.
-/
theorem Shows.step (shows : Shows env names loader cache store) (now : Clock) {op : Op}
    (onFiles : op.onFiles = true) (members : ∀ path ∈ op.paths, path ∈ names)
    : Related (SameOutcome env names loader) (ZippyFS.step env now cache op)
        (store.step env now (loader.fetch env now) op) := by
  cases op with
  | makeFile path mode dirty =>
      exact .ok ⟨rfl, shows.makeFile (members path (List.mem_cons_self ..)) mode dirty⟩
  | write path buf offset => exact shows.write (members path (List.mem_cons_self ..)) buf offset
  | truncate path size => exact shows.truncate path size
  | remove path => exact shows.remove path
  | rmdir path => exact shows.rmdir path
  | rename from_ to_ =>
      exact shows.rename (members from_ (List.mem_cons_self ..))
        (members to_ (List.mem_cons_of_mem _ (List.mem_cons_self ..)))
  | open_ path =>
      rw [ZippyFS.step, BlockCache.open_, Store.step]
      refine (shows.ensure (members path (List.mem_cons_self ..))).bind ?_
      rintro ⟨res, next⟩ ⟨res', after⟩ ⟨-, one⟩
      exact .ok ⟨rfl, one⟩
  | read path size offset =>
      refine (shows.read (members path (List.mem_cons_self ..)) size offset).bind ?_
      rintro ⟨res, bytes, next⟩ ⟨res', bytes', after⟩ ⟨rfl, -, one⟩
      exact .ok ⟨rfl, one⟩
  | _ => cases onFiles

-----------------------------------------------------------------------------------------
-- Runs
-----------------------------------------------------------------------------------------

variable {events : List Event}

/-- A cache on the files of a directory, which its loader has mapped. -/
def mounted (disk : List Image) (visits : VisitOrder) (size : Nat) : BlockCache :=
  (BlockCache.new disk visits size).loadTrees visits

/-- What is fetched from the directory. -/
def archives (env : Env) (disk : List Image) (visits : VisitOrder) (now : Clock) : Archive :=
  Loader.fetch env now ⟨visits.visit disk, true⟩

/-- Nothing is known yet. -/
theorem Shows.mounted (disk : List Image) (visits : VisitOrder) (size : Nat)
    (apart : Set.InjOn (Util.cryptoHash env) names)
    : Shows env names ⟨visits.visit disk, true⟩ (mounted disk visits size) (fun _ => none) where
  coherent := (Coherent.new disk visits size apart).congr rfl rfl
  stocked := (Stocked.new disk visits size).congr (fun _ => rfl) rfl rfl rfl
  loader := rfl
  documents := by
    funext path
    simp [BlockCache.documents, BlockCache.mounted, loadTrees, BlockCache.new, find]

/-- What is loaded is the file's own: it has one link. -/
theorem archives_own (env : Env) (disk : List Image) (visits : VisitOrder) (now : Clock)
    : Archive.Own (archives env disk visits now) := by
  intro path doc fetched
  rw [archives, Loader.fetch] at fetched
  cases lookup : Loader.findLatestInode env ⟨visits.visit disk, true⟩ path true with
  | error fault =>
      rw [lookup] at fetched
      cases fetched
  | ok di =>
      rw [lookup, ok_bind] at fetched
      split at fetched
      case isTrue => cases Except.ok.inj fetched
      case isFalse =>
          obtain rfl := Option.some.inj (Except.ok.inj fetched)
          refine subset_of_eq_of_subset (loadedInode_links env now path 0 di) ?_
          split
          · exact Finset.empty_subset _
          · exact subset_rfl

variable {event : Event} {after : Store}

/-- The store takes every call that the cache takes. -/
theorem Shows.follow (shows : Shows env names loader cache store)
    (onFiles : event.op.onFiles = true) (members : ∀ path ∈ event.op.paths, path ∈ names)
    (taken : Steps env cache event next)
    : ∃ after, Store.Steps env (fun now => loader.fetch env now) store event after
        ∧ Shows env names loader next after := by
  have related := shows.step event.now onFiles members
  rw [taken] at related
  obtain ⟨⟨result, after⟩, returned, rfl, still⟩ := related.of_ok
  exact ⟨after, returned, still⟩

/-- The cache takes every call that the store takes. -/
theorem Shows.followed (shows : Shows env names loader cache store)
    (onFiles : event.op.onFiles = true) (members : ∀ path ∈ event.op.paths, path ∈ names)
    (taken : Store.Steps env (fun now => loader.fetch env now) store event after)
    : ∃ next, Steps env cache event next ∧ Shows env names loader next after := by
  have related := shows.step event.now onFiles members
  rw [taken] at related
  obtain ⟨⟨result, next⟩, returned, rfl, still⟩ := related.of_ok_right
  exact ⟨next, returned, still⟩

variable {disk : List Image} {visits : VisitOrder} {size : Nat}

/-- A run of the cache is a run of the store. -/
theorem documents_run (run : Run (Steps env) (mounted disk visits size) events cache)
    (onFiles : ∀ event ∈ events, event.op.onFiles = true) (listed : named events ⊆ names)
    (apart : Set.InjOn (Util.cryptoHash env) names)
    : Run (Store.Steps env (archives env disk visits)) (fun _ => none) events cache.documents := by
  obtain ⟨store, followed, shows⟩ := run.simulated (Shows.mounted disk visits size apart)
    fun _ event _ _ there shows taken =>
      shows.follow (onFiles event there) (fun _ among => listed ⟨event, there, among⟩) taken
  rwa [shows.documents]

/-- A run of the store is a run of a cache that shows it. -/
theorem exists_shows (run : Run (Store.Steps env (archives env disk visits)) (fun _ => none) events
      store) (size : Nat)
    (onFiles : ∀ event ∈ events, event.op.onFiles = true) (listed : named events ⊆ names)
    (apart : Set.InjOn (Util.cryptoHash env) names)
    : ∃ cache, Run (Steps env) (mounted disk visits size) events cache
        ∧ Shows env names ⟨visits.visit disk, true⟩ cache store :=
  run.simulated (R := fun store cache => Shows env names _ cache store)
    (Shows.mounted disk visits size apart) fun _ event _ _ there shows taken =>
      shows.followed (onFiles event there) (fun _ among => listed ⟨event, there, among⟩) taken

/-- In every run of calls on files the cache is a store: it gets to show some documents exactly if
the store gets to them with the same calls and the same results, and what is read afterwards is
read from these documents. All names have different hashes.
-/
theorem documents_run_iff (size : Nat)
    (onFiles : ∀ event ∈ events, event.op.onFiles = true)
    (listed : named events ⊆ names) (apart : Set.InjOn (Util.cryptoHash env) names)
    : (∃ cache, Run (Steps env) (mounted disk visits size) events cache ∧ cache.documents = store
        ∧ ∀ now, ∀ path ∈ names, ∀ count offset,
            Related (fun left right => left.1 = right.1 ∧ left.2.1 = right.2.1)
              (cache.read env now path count offset)
              (store.read env (archives env disk visits now) path count offset))
      ↔ Run (Store.Steps env (archives env disk visits)) (fun _ => none) events store := by
  constructor
  · rintro ⟨cache, run, rfl, -⟩
    exact documents_run run onFiles listed apart
  · intro run
    obtain ⟨cache, followed, shows⟩ := exists_shows run size onFiles listed apart
    refine ⟨cache, followed, shows.documents, fun now _ member count offset => ?_⟩
    exact (shows.read member count offset).mono fun _ _ same => ⟨same.1, same.2.1⟩

/-- A file is created in a directory without index files. -/
theorem documents_run_iff_created
    : ∃ cache, Run (Steps Util.twoDigests) (mounted [] ⟨id, fun _ => .refl _⟩ 0)
          [⟨.at_ 1, .makeFile [47, 97] 0o100644 true, 0⟩] cache
        ∧ cache.documents
          = Store.put (fun _ => none) [47, 97]
              (.new Util.twoDigests (.at_ 1) [47, 97] 0o100644 true) := by
  have run : Run (Store.Steps Util.twoDigests (archives Util.twoDigests [] ⟨id, fun _ => .refl _⟩))
      (fun _ => none) [⟨.at_ 1, .makeFile [47, 97] 0o100644 true, 0⟩] _ :=
    .snoc .nil rfl
  obtain ⟨cache, followed, shown, -⟩ := (documents_run_iff 0
    (by simp [Op.onFiles]) subset_rfl (twoDigests_apart.mono (by
      rintro path ⟨event, member, among⟩
      obtain rfl := List.mem_singleton.mp member
      exact Or.inl (List.mem_singleton.mp among)))).mpr run
  exact ⟨cache, followed, shown⟩

/-- The calls of a run that name paths of a group. -/
def callsOn (group : Bytes → Bool) (events : List Event) : List Event :=
  events.filter (fun event => event.op.paths.all group)

/-- The other calls. -/
def callsOff (group : Bytes → Bool) (events : List Event) : List Event :=
  events.filter (fun event => !event.op.paths.all group)

/-- Files that no call names together do not affect each other: a run is possible exactly if its
calls on a group of files and its other calls are, each by themselves with the same results, and
it leaves each file as the calls on its side do.
-/
theorem groups_apart_iff (group : Bytes → Bool)
    (onFiles : ∀ event ∈ events, event.op.onFiles = true)
    (sided
      : ∀ event ∈ events, ∀ one ∈ event.op.paths, ∀ two ∈ event.op.paths, group one = group two)
    (apart : Set.InjOn (Util.cryptoHash env) (named events))
    : (∃ cache, Run (Steps env) (mounted disk visits size) events cache
        ∧ cache.documents = store)
      ↔ ∃ left right, Run (Steps env) (mounted disk visits size) (callsOn group events) left
          ∧ Run (Steps env) (mounted disk visits size) (callsOff group events) right
          ∧ ∀ path, store path
              = if group path then left.documents path else right.documents path := by
  have separated : Store.Separated {path | group path = true} (fun _ => none) :=
    fun path doc found => nomatch found
  have inside (event : Event) (_ : event ∈ events) (all : event.op.paths.all group = true)
      : ∀ path ∈ event.op.paths, path ∈ {path | group path = true} :=
    List.all_eq_true.mp all
  have away (event : Event) (there : event ∈ events) (some : event.op.paths.all group = false)
      : ∀ path ∈ event.op.paths, path ∈ {path | group path = true}ᶜ := by
    intro path among grouped
    obtain ⟨other, listed, outside⟩ := List.all_eq_false.mp some
    exact outside ((sided event there other listed path among).trans grouped)
  have own := archives_own env disk visits
  have part {keep : Event → Bool} : named (events.filter keep) ⊆ named events :=
    fun path ⟨event, there, among⟩ => ⟨event, (List.mem_filter.mp there).1, among⟩
  have onPart {keep : Event → Bool} (event : Event) (there : event ∈ events.filter keep) :=
    onFiles event (List.mem_filter.mp there).1
  constructor
  · rintro ⟨cache, run, rfl⟩
    have whole := documents_run run onFiles subset_rfl apart
    obtain ⟨left, runLeft, agree⟩ := Store.side_alone _ whole own separated inside away
    obtain ⟨right, runRight, agree'⟩ := Store.side_alone
      (fun event => !event.op.paths.all group) whole own separated.compl
      (fun event there off => away event there (by simpa using off))
      (fun event there off => by
        rw [compl_compl]
        exact inside event there (by simpa using off))
    obtain ⟨left, runLeft, shows⟩ := exists_shows runLeft size onPart part apart
    obtain ⟨right, runRight, shows'⟩ := exists_shows runRight size onPart part apart
    refine ⟨left, right, runLeft, runRight, fun path => ?_⟩
    rw [shows.documents, shows'.documents]
    split
    case isTrue grouped => exact agree path grouped
    case isFalse outside => exact agree' path outside
  · rintro ⟨left, right, runLeft, runRight, shown⟩
    have runLeft := documents_run runLeft onPart part apart
    have runRight := documents_run runRight onPart part apart
    obtain ⟨together, run, agree, agree'⟩ :=
      Store.sides_together runLeft runRight own separated inside away
    have same : together = store := by
      funext path
      rw [shown]
      split
      case isTrue grouped => exact (agree path grouped).symm
      case isFalse outside => exact (agree' path outside).symm
    obtain ⟨cache, run, shows⟩ := exists_shows run size onFiles subset_rfl apart
    exact ⟨cache, run, shows.documents.trans same⟩

/-- Two files are created: each could have been created by itself. -/
theorem groups_apart_iff_created
    : ∃ cache left right,
        Run (Steps Util.twoDigests) (mounted [] ⟨id, fun _ => .refl _⟩ 0)
          [⟨.at_ 1, .makeFile [47, 97] 0o100644 true, 0⟩,
            ⟨.at_ 2, .makeFile [47, 98] 0o100644 true, 0⟩] cache
        ∧ Run (Steps Util.twoDigests) (mounted [] ⟨id, fun _ => .refl _⟩ 0)
          [⟨.at_ 1, .makeFile [47, 97] 0o100644 true, 0⟩] left
        ∧ Run (Steps Util.twoDigests) (mounted [] ⟨id, fun _ => .refl _⟩ 0)
          [⟨.at_ 2, .makeFile [47, 98] 0o100644 true, 0⟩] right
        ∧ cache.documents [47, 97] = left.documents [47, 97]
        ∧ cache.documents [47, 98] = right.documents [47, 98] := by
  have run : Run (Steps Util.twoDigests) (mounted [] ⟨id, fun _ => .refl _⟩ 0)
      [⟨.at_ 1, .makeFile [47, 97] 0o100644 true, 0⟩, ⟨.at_ 2, .makeFile [47, 98] 0o100644 true, 0⟩]
      _ :=
    .snoc (.snoc .nil rfl) rfl
  obtain ⟨left, right, runLeft, runRight, shown⟩ := (groups_apart_iff (fun path => path = [47, 97])
    (by simp [Op.onFiles]) (by simp [Op.paths]) (twoDigests_apart.mono (by
      rintro path ⟨event, member, among⟩
      rcases List.mem_cons.mp member with rfl | member
      · exact Or.inl (List.mem_singleton.mp among)
      · obtain rfl := List.mem_singleton.mp member
        exact Or.inr (List.mem_singleton.mp among)))).mp ⟨_, run, rfl⟩
  exact ⟨_, left, right, run, runLeft, runRight, shown [47, 97], shown [47, 98]⟩

end BlockCache

end ZippyFS
