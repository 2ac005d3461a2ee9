import ZippyFS.Cache.WriteLoop

/-! Who holds which block. Blocks are shared pointers, and still no two inodes ever share one: a
rename hands the blocks on and empties its source. Behind its used part a block holds zeros.
-/

namespace ZippyFS

open Runs

namespace Block

/-- There are only zeros behind the used part. -/
def Clean (block : Block) : Prop := ∀ ii, block.actualSize ≤ ii → block.data ii = 0

theorem empty_clean : empty.Clean := fun _ _ => rfl

theorem Clean.insert {block : Block} (clean : block.Clean) (data : Bytes) (size offset : Nat)
    : (block.insert data size offset).Clean := by
  intro ii behind
  rw [insert_actualSize] at behind
  simp only [Block.insert, insertData]
  rw [if_neg (by omega)]
  exact clean ii (by omega)

theorem new_clean (data : Bytes) (size : Nat) : (new data size).Clean :=
  empty_clean.insert data size 0

end Block

namespace BPLUSIndexLoader

/-- Everything found holds clean blocks. -/
def CleanInfo (di : DiskInodeInfo) : Prop :=
  ∀ (blockIdx : Nat) (block : Block), di.blockData[blockIdx]? = some block → block.Clean

/-- Reading a block list adds clean blocks, by induction on the list. -/
theorem CleanInfo.foldl_addBlock {image : Image} {latest : DiskInodeInfo}
    (clean : CleanInfo latest) (entries : List BlockData)
    : CleanInfo (entries.foldl (addBlock image) latest) := by
  induction entries generalizing latest with
  | nil => exact clean
  | cons entry rest ih =>
      refine ih ?_
      have added : CleanInfo { latest with
          blockTime := latest.blockTime.insert entry.blockId entry.mtime
          blockData := latest.blockData.insert entry.blockId (image.blockOf entry) } := by
        intro blockIdx block known
        rw [Tables.getElem?_insert] at known
        split at known
        · rw [← Option.some.inj known]
          exact Block.new_clean _ _
        · exact clean blockIdx block known
      unfold addBlock keepBlock
      split
      · split
        · exact added
        · exact clean
      · exact added

/-- A lookup finds clean blocks, by induction on the files. -/
theorem visitTrees_clean {phash : Bytes} {getData : Bool} {trees : List Image}
    {latestTime : Nat} {latest found : DiskInodeInfo}
    (outcome : visitTrees phash getData trees latestTime latest = .ok found)
    (clean : CleanInfo latest)
    : CleanInfo found := by
  induction trees generalizing latestTime latest with
  | nil => rwa [← Except.ok.inj outcome]
  | cons tree rest ih =>
      rw [visitTrees] at outcome
      obtain ⟨inodeoff, _, outcome⟩ := bind_eq_ok.mp outcome
      cases inodeoff with
      | none => rwa [← Except.ok.inj outcome]
      | some inodeoff =>
          have taken : ∀ newer : Bool, CleanInfo
              (if newer then takeRecord phash latest (tree.inode inodeoff.toNat) else latest) := by
            intro newer
            cases newer <;> exact clean
          dsimp only at outcome
          split at outcome
          · split at outcome
            · rw [← Except.ok.inj outcome]
              exact taken _
            · exact ih outcome ((taken _).foldl_addBlock _)
          · exact ih outcome (taken _)

end BPLUSIndexLoader

/-- A lookup finds clean blocks. -/
theorem Loader.findLatestInode_clean {env : Env} {loader : Loader} {path : Bytes}
    {getData : Bool} {di : DiskInodeInfo}
    (lookup : loader.findLatestInode env path getData = .ok di)
    : BPLUSIndexLoader.CleanInfo di := by
  have nothing : BPLUSIndexLoader.CleanInfo BPLUSIndexLoader.nothing := by
    intro blockIdx block known
    simp [BPLUSIndexLoader.nothing] at known
  unfold findLatestInode at lookup
  split at lookup
  · cases lookup
  · unfold BPLUSIndexLoader.findLatestInode at lookup
    split at lookup
    · rwa [← Except.ok.inj lookup]
    · exact BPLUSIndexLoader.visitTrees_clean lookup nothing

namespace BlockCache

variable {env : Env} {now : Clock} {cache next : BlockCache} {path : Bytes} {result : Int}
  {inode old : Inode}

-----------------------------------------------------------------------------------------
-- Pointers by id
-----------------------------------------------------------------------------------------

/-- The inode behind an id. -/
def ptr (cache : BlockCache) (id : Bytes) : Option Inode := cache.inodePtrs[id]?.join

theorem ptr_put (cache : BlockCache) (path : Bytes) (inode : Inode) (id : Bytes)
    : (cache.put path inode).ptr id
      = if id = inode.inodeId then some inode else cache.ptr id := by
  simp only [ptr, put, Tables.getElem?_insert]
  split <;> rfl

theorem ptr_set (cache : BlockCache) (path : Bytes) (inode : Inode) (id : Bytes)
    : (cache.set path inode).ptr id
      = if id = cache.inodeIdx[path]?.getD [] then some inode else cache.ptr id := by
  simp only [ptr, set, Tables.getElem?_insert]
  split <;> rfl

theorem ptr_decLinks (cache : BlockCache) (path id : Bytes)
    : (cache.decLinks path).ptr id
      = (cache.ptr id).map (fun inode =>
        if path ∈ inode.links then inode.decLink path else inode) := by
  unfold ptr decLinks
  dsimp only
  rw [Std.ExtTreeMap.getElem?_map]
  cases cache.inodePtrs[id]? with
  | none => rfl
  | some pointer => cases pointer <;> rfl

theorem ptr_indexed (cache : BlockCache) (path id : Bytes)
    : (cache.indexed path).ptr id = cache.ptr id := by
  unfold ptr indexed
  dsimp only
  rw [Std.ExtTreeMap.getElem?_insertIfNew]
  split
  case isTrue both =>
    have same := Std.LawfulEqCmp.eq_of_compare both.1
    rw [← same, Std.ExtTreeMap.getElem?_eq_none both.2]
    rfl
  case isFalse => rfl

/-- A path that is found leads to the pointer behind its id. -/
theorem ptr_of_find (found : cache.find path = some inode)
    : cache.ptr (cache.inodeIdx[path]?.getD []) = some inode := by
  obtain ⟨id, known, there⟩ := inodePtrs_of_find found
  rw [known, Option.getD_some, ptr, there]
  rfl

-----------------------------------------------------------------------------------------
-- The invariant
-----------------------------------------------------------------------------------------

/-- All blocks are clean, inodes hold references that were allocated and carry their index, and
no two inodes hold the same reference.
-/
structure Stocked (cache : BlockCache) : Prop where
  clean : ∀ ref, (cache.heap ref).Clean
  filed : ∀ id inode, cache.ptr id = some inode → inode.Filed
  fresh
    : ∀ id inode (blockIdx : Nat) (ref : BlockRef), cache.ptr id = some inode
      → inode.blocks[blockIdx]? = some ref → ref.1 < cache.allocs
  apart
    : ∀ id other inode inode' (blockIdx blockIdx' : Nat) (ref : BlockRef),
      cache.ptr id = some inode → inode.blocks[blockIdx]? = some ref
      → cache.ptr other = some inode' → inode'.blocks[blockIdx']? = some ref → id = other
  dirty
    : ∀ (id : Bytes) (blockIdx : Nat) (ref : BlockRef),
      (cache.dirtyBlock[id]?.getD ∅)[blockIdx]? = some ref
      → ref.2 = blockIdx ∧ ref.1 < cache.allocs

/-- An empty cache. -/
theorem Stocked.new (disk : List Image) (order : VisitOrder) (size : Nat)
    : Stocked (BlockCache.new disk order size) where
  clean := fun _ => Block.empty_clean
  filed := by simp [BlockCache.new, ptr]
  fresh := by simp [BlockCache.new, ptr]
  apart := by simp [BlockCache.new, ptr]
  dirty := by simp [BlockCache.new]

/-- The pointers, the blocks and the table of dirty blocks are all that matters. -/
theorem Stocked.congr (stocked : Stocked cache) (ptrs : ∀ id, next.ptr id = cache.ptr id)
    (heap : next.heap = cache.heap) (allocs : next.allocs = cache.allocs)
    (dirty : next.dirtyBlock = cache.dirtyBlock)
    : Stocked next := by
  obtain ⟨clean, filed, fresh, apart, listed⟩ := stocked
  refine ⟨?_, ?_, ?_, ?_, ?_⟩
  · rwa [heap]
  · simpa only [ptrs] using filed
  · simpa only [ptrs, allocs] using fresh
  · simpa only [ptrs] using apart
  · rwa [dirty, allocs]

/-- One inode is replaced by one whose blocks no other inode holds. -/
theorem Stocked.replace {target : Bytes} (stocked : Stocked cache)
    (ptrs : ∀ id, next.ptr id = if id = target then some inode else cache.ptr id)
    (heap : next.heap = cache.heap) (allocs : next.allocs = cache.allocs)
    (dirty : next.dirtyBlock = cache.dirtyBlock)
    (owned
      : ∀ (blockIdx : Nat) (ref : BlockRef), inode.blocks[blockIdx]? = some ref
        → ref.2 = blockIdx ∧ ref.1 < cache.allocs
          ∧ ∀ id other (blockIdx' : Nat), id ≠ target → cache.ptr id = some other
            → other.blocks[blockIdx']? ≠ some ref)
    : Stocked next where
  clean := by
    rw [heap]
    exact stocked.clean
  filed := by
    intro id found known
    rw [ptrs] at known
    split at known
    · rw [← Option.some.inj known]
      exact fun blockIdx ref held => (owned blockIdx ref held).1
    · exact stocked.filed id found known
  fresh := by
    intro id found blockIdx ref known held
    rw [allocs]
    rw [ptrs] at known
    split at known
    · rw [← Option.some.inj known] at held
      exact (owned blockIdx ref held).2.1
    · exact stocked.fresh id found blockIdx ref known held
  apart := by
    intro id other first second blockIdx blockIdx' ref known held known' held'
    rw [ptrs] at known known'
    split at known <;> split at known'
    case isTrue.isTrue one two => exact one.trans two.symm
    case isTrue.isFalse one two =>
      rw [← Option.some.inj known] at held
      exact absurd held' ((owned blockIdx ref held).2.2 other second blockIdx' two known')
    case isFalse.isTrue one two =>
      rw [← Option.some.inj known'] at held'
      exact absurd held ((owned blockIdx' ref held').2.2 id first blockIdx one known)
    case isFalse.isFalse =>
      exact stocked.apart id other first second blockIdx blockIdx' ref known held known' held'
  dirty := by
    rw [dirty, allocs]
    exact stocked.dirty

/-- One inode gives up some of its blocks. -/
theorem Stocked.shrink (stocked : Stocked cache) (found : cache.find path = some old)
    (fewer
      : ∀ (blockIdx : Nat) (ref : BlockRef), inode.blocks[blockIdx]? = some ref
        → old.blocks[blockIdx]? = some ref)
    : Stocked (cache.set path inode) := by
  have here := ptr_of_find found
  refine stocked.replace (ptr_set cache path inode) rfl rfl rfl ?_
  intro blockIdx ref held
  have was := fewer blockIdx ref held
  refine ⟨stocked.filed _ _ here _ _ was, stocked.fresh _ _ _ _ here was, ?_⟩
  intro id other blockIdx' elsewhere known held'
  exact elsewhere (stocked.apart _ _ _ _ _ _ _ known held' here was)

/-- An inode without blocks is filed. -/
theorem Stocked.putEmpty (stocked : Stocked cache) (path : Bytes) (empty : inode.blocks = ∅)
    : Stocked (cache.put path inode) := by
  refine stocked.replace (ptr_put cache path inode) rfl rfl rfl ?_
  intro blockIdx ref held
  simp [empty] at held

theorem Stocked.decLinks (stocked : Stocked cache) (path : Bytes)
    : Stocked (cache.decLinks path) := by
  have known {id : Bytes} {inode : Inode} (here : (cache.decLinks path).ptr id = some inode)
      : ∃ old, cache.ptr id = some old ∧ ∀ (blockIdx : Nat) (ref : BlockRef),
        inode.blocks[blockIdx]? = some ref → old.blocks[blockIdx]? = some ref := by
    rw [ptr_decLinks, Option.map_eq_some_iff] at here
    obtain ⟨old, there, rfl⟩ := here
    refine ⟨old, there, ?_⟩
    intro blockIdx ref held
    unfold Inode.decLink at held
    split at held
    · dsimp only at held
      split at held
      · simp at held
      · exact held
    · exact held
  refine ⟨stocked.clean, ?_, ?_, ?_, stocked.dirty⟩
  · intro id inode here blockIdx ref held
    obtain ⟨old, there, fewer⟩ := known here
    exact stocked.filed id old there _ _ (fewer _ _ held)
  · intro id inode blockIdx ref here held
    obtain ⟨old, there, fewer⟩ := known here
    exact stocked.fresh id old _ _ there (fewer _ _ held)
  · intro id other inode inode' blockIdx blockIdx' ref here held here' held'
    obtain ⟨old, there, fewer⟩ := known here
    obtain ⟨old', there', fewer'⟩ := known here'
    exact stocked.apart _ _ _ _ _ _ _ there (fewer _ _ held) there' (fewer' _ _ held')

-----------------------------------------------------------------------------------------
-- Every operation keeps it
-----------------------------------------------------------------------------------------

/-- Adding blocks one by one files references under their indices, by induction on them. -/
theorem foldl_addBlock_blocks (now : Clock) (blocks : List (Nat × Block)) (alloc : Nat)
    (inode : Inode) (blockIdx : Nat)
    : (blocks.foldl (fun inode blk => inode.addBlock now blk.1 (alloc, blk.1))
        inode).blocks[blockIdx]?
      = if blockIdx ∈ blocks.map Prod.fst then some (alloc, blockIdx)
        else inode.blocks[blockIdx]? := by
  induction blocks generalizing inode with
  | nil => simp
  | cons head rest ih =>
      rw [List.foldl_cons, ih]
      simp only [Inode.addBlock, Inode.updateMtime, Tables.getElem?_insert, List.map_cons,
        List.mem_cons]
      by_cases later : blockIdx ∈ rest.map Prod.fst
      · rw [if_pos later, if_pos (Or.inr later)]
      · rw [if_neg later]
        by_cases same : blockIdx = head.1
        · rw [if_pos same, if_pos (Or.inl same), same]
        · rw [if_neg same, if_neg (fun either => either.elim same later)]

/-- The blocks of a loaded inode are the blocks that were found. -/
theorem loadedInode_blocks (now : Clock) (path : Bytes) (alloc : Nat) (di : DiskInodeInfo)
    (blockIdx : Nat)
    : (loadedInode env now path alloc di).blocks[blockIdx]?
      = if blockIdx ∈ di.blockData then some (alloc, blockIdx) else none := by
  unfold loadedInode
  dsimp only
  rw [foldl_addBlock_blocks]
  simp only [Std.ExtTreeMap.map_fst_toList_eq_keys, Std.ExtTreeMap.mem_keys]
  congr 1
  split
  · simp [Inode.deleteInode]
  · simp [Inode.setCtime, Inode.setMtime, Inode.setNlink, Inode.setMode, Inode.setSize,
      Inode.updateMtime, Inode.setId, Inode.new]

/-- Blocks found on disk are allocated. -/
theorem Stocked.withBlocks (stocked : Stocked cache) {di : DiskInodeInfo}
    (lookup : cache.loader.findLatestInode env path true = .ok di)
    : Stocked (cache.withBlocks di) where
  clean := by
    intro ref
    unfold BlockCache.withBlocks
    dsimp only
    split
    · cases known : di.blockData[ref.2]? with
      | none => exact stocked.clean ref
      | some block => exact Loader.findLatestInode_clean lookup ref.2 block known
    · exact stocked.clean ref
  filed := stocked.filed
  fresh := fun id inode blockIdx ref known held =>
    Nat.lt_succ_of_lt (stocked.fresh id inode blockIdx ref known held)
  apart := stocked.apart
  dirty := fun id blockIdx ref listed =>
    ⟨(stocked.dirty id blockIdx ref listed).1,
      Nat.lt_succ_of_lt (stocked.dirty id blockIdx ref listed).2⟩

theorem Stocked.loaded (stocked : Stocked cache) {di : DiskInodeInfo}
    (lookup : cache.loader.findLatestInode env path true = .ok di)
    : Stocked (cache.loaded env now path di) := by
  refine (stocked.withBlocks lookup).replace (ptr_put _ path _) rfl rfl rfl ?_
  intro blockIdx ref held
  have known : (loadedInode env now path cache.allocs di).blocks[blockIdx]? = some ref := held
  rw [loadedInode_blocks] at known
  split at known
  · obtain rfl := Option.some.inj known
    refine ⟨rfl, Nat.lt_succ_self _, ?_⟩
    intro id other blockIdx' _ there held'
    exact absurd (stocked.fresh id other blockIdx' _ there held') (Nat.lt_irrefl _)
  · cases known

theorem Stocked.ensured (stocked : Stocked cache)
    (ensured : Ensured env now cache path result next)
    : Stocked next := by
  cases ensured with
  | cached here => exact stocked
  | absent away lookup none => exact stocked
  | loaded away lookup some => exact stocked.loaded lookup

theorem Stocked.makeFile (stocked : Stocked cache) (mode : UInt32) (dirty : Bool)
    : Stocked (cache.makeFile env now path mode dirty) := by
  cases dirty with
  | true =>
      have empty : (((Inode.new env now path).setMode now mode).setDirty).blocks = ∅ := rfl
      exact (stocked.putEmpty path empty).congr (fun _ => rfl) rfl rfl rfl
  | false =>
      have empty : ((Inode.new env now path).setMode now mode).blocks = ∅ := rfl
      exact (stocked.putEmpty path empty).congr (fun _ => rfl) rfl rfl rfl

theorem Stocked.deleted (stocked : Stocked cache) (found : cache.find path = some inode)
    : Stocked (cache.deleted now path inode) := by
  have emptied : Stocked (cache.set path (inode.deleteInode now)) :=
    stocked.shrink found (fun blockIdx ref held => by simp [Inode.deleteInode] at held)
  exact emptied.congr (fun _ => rfl) rfl rfl rfl

/-- The blocks of the source change hands. -/
theorem Stocked.moved {from_ to_ : Bytes} {source : Inode} (stocked : Stocked cache)
    (found : cache.find from_ = some source)
    : Stocked (cache.moved env now from_ to_ source) := by
  have here := ptr_of_find found
  have emptied : Stocked (cache.set from_ (source.deleteInode now)) :=
    stocked.shrink found (fun blockIdx ref held => by simp [Inode.deleteInode] at held)
  refine emptied.replace (ptr_put _ to_ (Inode.copyOf env now to_ source)) rfl rfl rfl ?_
  intro blockIdx ref held
  have was : source.blocks[blockIdx]? = some ref := held
  refine ⟨stocked.filed _ _ here _ _ was, stocked.fresh _ _ _ _ here was, ?_⟩
  intro id other blockIdx' _ known held'
  rw [ptr_set] at known
  split at known
  case isTrue =>
    rw [← Option.some.inj known] at held'
    simp [Inode.deleteInode] at held'
  case isFalse elsewhere =>
    exact elsewhere (stocked.apart _ _ _ _ _ _ _ known held' here was)

theorem Stocked.ready {middle : BlockCache} (stocked : Stocked cache)
    (ready : Ready env now cache path middle inode)
    : Stocked middle := by
  cases ready with
  | cached here found => exact stocked.shrink found (fun _ _ held => held)
  | loaded away lookup some => exact stocked.loaded lookup

/-- What every round of a write keeps: references are old or new ones, blocks are clean, and
blocks that the inode does not hold stay as they are.
-/
structure Supplied (alloc : Nat) (start state : Writing) : Prop where
  clean : ∀ ref, (state.heap ref).Clean
  held
    : ∀ (blockIdx : Nat) (ref : BlockRef), state.inode.blocks[blockIdx]? = some ref
      → start.inode.blocks[blockIdx]? = some ref ∨ ref = (alloc, blockIdx)
  listed
    : ∀ (blockIdx : Nat) (ref : BlockRef), state.dirty[blockIdx]? = some ref
      → start.dirty[blockIdx]? = some ref ∨ start.inode.blocks[blockIdx]? = some ref
        ∨ ref = (alloc, blockIdx)
  heap
    : ∀ ref : BlockRef, ref.1 ≠ alloc
      → (∀ blockIdx : Nat, start.inode.blocks[blockIdx]? ≠ some ref)
      → state.heap ref = start.heap ref

theorem Supplied.writeBlock {buf : Bytes} {alloc : Nat} {start state : Writing}
    (supplied : Supplied alloc start state) (blockIdx currIdx blockSize offsetAmt : Nat)
    : Supplied alloc start
        (writeBlock now buf alloc blockIdx currIdx blockSize offsetAmt state) := by
  unfold BlockCache.writeBlock
  cases present : state.inode.blocks[blockIdx]? with
  | some temp =>
      dsimp only
      refine ⟨?_, supplied.held, ?_, ?_⟩
      · intro ref
        simp only [Function.update_apply]
        split
        · exact (supplied.clean temp).insert _ _ _
        · exact supplied.clean ref
      · intro other ref known
        rw [Tables.getElem?_insert] at known
        split at known
        case isTrue same =>
          rw [← Option.some.inj known, same]
          exact Or.inr (supplied.held blockIdx temp present)
        case isFalse => exact supplied.listed other ref known
      · intro ref elsewhere unheld
        simp only [Function.update_apply]
        rw [if_neg, supplied.heap ref elsewhere unheld]
        rintro rfl
        rcases supplied.held blockIdx ref present with was | new
        · exact unheld blockIdx was
        · exact elsewhere (by rw [new])
  | none =>
      dsimp only
      refine ⟨?_, ?_, ?_, ?_⟩
      · intro ref
        simp only [Function.update_apply]
        split
        · exact Block.new_clean _ _
        · exact supplied.clean ref
      · intro other ref known
        simp only [Inode.addBlock, Inode.updateMtime, Tables.getElem?_insert] at known
        split at known
        case isTrue same =>
          rw [← Option.some.inj known, same]
          exact Or.inr rfl
        case isFalse => exact supplied.held other ref known
      · intro other ref known
        rw [Tables.getElem?_insert] at known
        split at known
        case isTrue same =>
          rw [← Option.some.inj known, same]
          exact Or.inr (Or.inr rfl)
        case isFalse => exact supplied.listed other ref known
      · intro ref elsewhere unheld
        simp only [Function.update_apply]
        rw [if_neg, supplied.heap ref elsewhere unheld]
        rintro rfl
        exact elsewhere rfl

/-- The loop of a write supplies the inode it works on. -/
theorem runLoop_supplied {buf : Bytes} {offset : Nat} {state : Writing}
    (stocked : Stocked cache) (loop : cache.runLoop now path buf offset inode = .ok state)
    : Supplied cache.allocs
        (startOf now cache path inode ((buf.length + offset) % 2 ^ 64)) state := by
  refine writeLoop_invariant (P := Supplied cache.allocs
    (startOf now cache path inode ((buf.length + offset) % 2 ^ 64))) ?_ loop ?_
  · intro blockIdx currIdx blockSize offsetAmt state supplied
    exact supplied.writeBlock blockIdx currIdx blockSize offsetAmt
  · exact ⟨stocked.clean, fun _ _ known => Or.inl known, fun _ _ known => Or.inl known,
      fun _ _ _ => rfl⟩

theorem Stocked.written {buf : Bytes} {offset : Nat} {state : Writing} (stocked : Stocked cache)
    (found : cache.find path = some inode)
    (loop : cache.runLoop now path buf offset inode = .ok state)
    : Stocked (cache.written path state) := by
  have here := ptr_of_find found
  have supplied := runLoop_supplied stocked loop
  have held {blockIdx : Nat} {ref : BlockRef} (known : state.inode.blocks[blockIdx]? = some ref)
      : inode.blocks[blockIdx]? = some ref ∨ ref = (cache.allocs, blockIdx) := by
    rcases supplied.held blockIdx ref known with was | new
    · exact Or.inl (by rwa [startOf, grown_blocks] at was)
    · exact Or.inr new
  have allocated : Stocked { cache with heap := state.heap, allocs := cache.allocs + 1 } := {
    clean := supplied.clean
    filed := stocked.filed
    fresh := fun id inode blockIdx ref known held =>
      Nat.lt_succ_of_lt (stocked.fresh id inode blockIdx ref known held)
    apart := stocked.apart
    dirty := fun id blockIdx ref listed =>
      ⟨(stocked.dirty id blockIdx ref listed).1,
        Nat.lt_succ_of_lt (stocked.dirty id blockIdx ref listed).2⟩ }
  have replaced : Stocked { cache.set path state.inode with
      heap := state.heap, allocs := cache.allocs + 1 } := by
    refine allocated.replace (ptr_set cache path state.inode) rfl rfl rfl ?_
    intro blockIdx ref known
    rcases held known with was | rfl
    · refine ⟨stocked.filed _ _ here _ _ was,
        Nat.lt_succ_of_lt (stocked.fresh _ _ _ _ here was), ?_⟩
      intro id other blockIdx' elsewhere there held'
      exact elsewhere (stocked.apart _ _ _ _ _ _ _ there held' here was)
    · refine ⟨rfl, Nat.lt_succ_self _, ?_⟩
      intro id other blockIdx' _ there held'
      exact absurd (stocked.fresh id other blockIdx' _ there held') (Nat.lt_irrefl _)
  refine ⟨replaced.clean, replaced.filed, replaced.fresh, replaced.apart, ?_⟩
  intro id blockIdx ref listed
  simp only [BlockCache.written, Tables.getElem?_insert] at listed ⊢
  split at listed
  case isTrue =>
    rcases supplied.listed blockIdx ref listed with was | was | rfl
    · obtain ⟨filed, fresh⟩ := stocked.dirty _ blockIdx ref was
      exact ⟨filed, Nat.lt_succ_of_lt fresh⟩
    · rw [startOf, grown_blocks] at was
      exact ⟨stocked.filed _ _ here _ _ was,
        Nat.lt_succ_of_lt (stocked.fresh _ _ _ _ here was)⟩
    · exact ⟨rfl, Nat.lt_succ_self _⟩
  case isFalse =>
    obtain ⟨filed, fresh⟩ := stocked.dirty id blockIdx ref listed
    exact ⟨filed, Nat.lt_succ_of_lt fresh⟩

theorem Stocked.flushed (stocked : Stocked cache) (flush : Flushed env cache result next)
    : Stocked next := by
  cases flush with
  | nothing unchanged => exact stocked
  | flushed changed filled =>
      refine ⟨stocked.clean, ?_, ?_, ?_, ?_⟩ <;> simp [BlockCache.flushed, ptr]

/-- Every operation keeps the blocks in order. -/
theorem Stocked.effect {op : Op} (stocked : Stocked cache)
    (effect : Effect env now cache op result next)
    : Stocked next := by
  cases effect with
  | makeFile path mode dirty => exact stocked.makeFile mode dirty
  | writeMissing missing => exact stocked
  | write ready loop => exact (stocked.ready ready).written ready.found loop
  | truncateMissing away => exact stocked
  | @truncate path size inode here found =>
      have resized : Stocked (cache.set path (inode.setSize now size)) :=
        stocked.shrink found (fun _ _ held => held)
      exact resized.congr (fun _ => rfl) rfl rfl rfl
  | removeMissing away => exact stocked
  | @remove path inode here noNulls found =>
      have emptied : Stocked ((cache.decLinks path).deleted now path inode) :=
        (stocked.decLinks path).deleted found
      refine emptied.congr ?_ rfl rfl rfl
      intro id
      simp only [ptr]
  | rmdirMissing away => exact stocked
  | rmdir here found => exact stocked.deleted found
  | renameMissing missing => exact stocked
  | renameOver ensured target found => exact ((stocked.ensured ensured).ensured target).moved found
  | renameNew ensured target was found =>
      exact ((stocked.ensured ensured).makeFile _ _).moved found
  | symlink from_ to_ =>
      have empty : ((Inode.new env now from_).setMode now (S_IFLNK ||| 0o600)).blocks = ∅ := rfl
      exact (stocked.putEmpty to_ empty).congr (fun _ => rfl) rfl rfl rfl
  | open_ ensured => exact stocked.ensured ensured
  | read ensured found bytes => exact stocked.ensured ensured
  | readlink outcome => exact stocked
  | getattr outcome => exact stocked
  | getRefs outcome => exact stocked
  | inCache path => exact stocked
  | loadFromDisk loaded =>
      cases loaded with
      | absent lookup none => exact stocked
      | kept here found lookup some newer => exact stocked.withBlocks lookup
      | replaced here found lookup some older => exact stocked.loaded lookup
      | loaded away lookup some => exact stocked.loaded lookup
  | getInodeByPath path => exact stocked.congr (ptr_indexed cache path) rfl rfl rfl
  | flushToDisk flushed => exact stocked.flushed flushed
  | flushToShdwKept small => exact stocked
  | flushToShdw flushed => exact stocked.flushed flushed
  | loadTrees order => exact stocked.congr (fun _ => rfl) rfl rfl rfl
  | readdir order path => exact stocked.congr (fun _ => rfl) rfl rfl rfl

/-- After every run the blocks are in order. -/
theorem Stocked.run {disk : List Image} {order : VisitOrder} {size : Nat} {events : List Event}
    (run : Run (Steps env) (BlockCache.new disk order size) events cache)
    : Stocked cache :=
  run.state_invariant (Stocked.new disk order size)
    (fun _ _ _ stocked taken => stocked.effect (step_effect taken))

end BlockCache

end ZippyFS
