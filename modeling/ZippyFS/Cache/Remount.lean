import ZippyFS.Cache.BlockSizes
import ZippyFS.Cache.DeletedData
import ZippyFS.Cache.FileStore
import ZippyFS.Cache.SideTable
import ZippyFS.Index.Confined

/-! A file system that is unmounted and mounted again. The last flush writes the blocks in the side
table, and the next process reads what it finds; what the first process had in its inodes is
somewhere else, so both have to agree.
-/

namespace ZippyFS

open Runs Outcomes NewestWins

variable {env : Env} {now : Clock} {path : Bytes}

-----------------------------------------------------------------------------------------
-- Files from outside
-----------------------------------------------------------------------------------------

/-- Two documents that show the same file: times aside, and only the used bytes of blocks count. -/
structure Document.SameFile (env : Env) (one two : Document) : Prop where
  mode : one.attributes.mode = two.attributes.mode
  size : one.attributes.size = two.attributes.size
  deleted : one.attributes.deleted = two.attributes.deleted
  nlink : one.attributes.nlink = two.attributes.nlink
  blocks
    : ∀ blockIdx : Nat,
      one.blocks[blockIdx]?.map (fun block => block.copied env block.actualSize)
        = two.blocks[blockIdx]?.map (fun block => block.copied env block.actualSize)

/-- What is read of a file is the same, by induction on the fuel of the loop. -/
theorem Document.SameFile.read {one two : Document} (same : SameFile env one two)
    (size offset : Nat)
    : one.read env size offset = two.read env size offset := by
  have tables : one.blocks.map (fun _ block => block.copied env block.actualSize)
      = two.blocks.map (fun _ block => block.copied env block.actualSize) :=
    Std.ExtTreeMap.ext_getElem? fun blockIdx => by
      rw [Std.ExtTreeMap.getElem?_map, Std.ExtTreeMap.getElem?_map, same.blocks]
  have sizes : one.blocks.size = two.blocks.size := by
    have same := congrArg Std.ExtTreeMap.size tables
    rwa [Std.ExtTreeMap.size_map, Std.ExtTreeMap.size_map] at same
  have loop (fuel blockIdx offsetAmt : Nat) (buf : Bytes)
      : one.readLoop env size fuel blockIdx offsetAmt buf
        = two.readLoop env size fuel blockIdx offsetAmt buf := by
    induction fuel generalizing blockIdx offsetAmt buf with
    | zero => rfl
    | succ fuel ih =>
        have here := same.blocks blockIdx
        rw [readLoop, readLoop, sizes]
        cases left : one.blocks[blockIdx]? with
        | none =>
            rw [left, Option.map_none, eq_comm, Option.map_eq_none_iff] at here
            rw [here]
        | some block =>
            rw [left, Option.map_some, eq_comm, Option.map_eq_some_iff] at here
            obtain ⟨other, right, bytes⟩ := here
            simp only [right, bytes, ih]
  exact loop ..

namespace BlockCache

variable {cache next middle : BlockCache} {names : Set Bytes} {inode source : Inode} {op : Op}
  {result : Int} {other buf : Bytes} {offset : Nat} {state : Writing}

-----------------------------------------------------------------------------------------
-- The side table
-----------------------------------------------------------------------------------------

/-- The blocks of a path. -/
def blocksAt (cache : BlockCache) (path : Bytes) : Std.ExtTreeMap Nat BlockRef :=
  (cache.find path).elim ∅ Inode.blocks

theorem blocksAt_of_find (found : cache.find path = some inode)
    : cache.blocksAt path = inode.blocks := by
  rw [blocksAt, found, Option.elim_some]

theorem blocksAt_congr (same : next.find path = middle.find path)
    : next.blocksAt path = middle.blocksAt path := by
  rw [blocksAt, same, blocksAt]

theorem Coherent.blocksAt_put (coherent : Coherent env names cache) (member : path ∈ names)
    (named : inode.Named env) (own : inode.path = path) (other : Bytes)
    : (cache.put path inode).blocksAt other
      = if other = path then inode.blocks else cache.blocksAt other := by
  rw [blocksAt, coherent.find_put member named own]
  split <;> rfl

theorem Coherent.blocksAt_set (coherent : Coherent env names cache)
    (found : cache.find path = some inode) (after : Inode) (other : Bytes)
    : (cache.set path after).blocksAt other
      = if other = path then after.blocks else cache.blocksAt other := by
  rw [blocksAt, coherent.find_set (mem_of_find found)]
  split <;> rfl

theorem Coherent.blocksAt_makeFile (coherent : Coherent env names cache) (now : Clock)
    (member : path ∈ names) (mode : UInt32) (dirty : Bool) (other : Bytes)
    : (cache.makeFile env now path mode dirty).blocksAt other
      = if other = path then ∅ else cache.blocksAt other := by
  have fresh : ((Inode.new env now path).setMode now mode).Named env := rfl
  cases dirty with
  | true =>
      have marked : ((Inode.new env now path).setMode now mode).setDirty.Named env := rfl
      exact coherent.blocksAt_put member marked rfl other
  | false => exact coherent.blocksAt_put member fresh rfl other

theorem Coherent.blocksAt_moved (coherent : Coherent env names cache) (now : Clock)
    {from_ to_ : Bytes} (member : to_ ∈ names) (found : cache.find from_ = some source)
    (other : Bytes)
    : (cache.moved env now from_ to_ source).blocksAt other
      = if other = to_ then source.blocks
        else if other = from_ then ∅ else cache.blocksAt other := by
  have emptied : Coherent env names (cache.set from_ (source.deleteInode now)) :=
    coherent.set found ⟨rfl, rfl⟩
  have named : (Inode.copyOf env now to_ source).Named env := rfl
  have copied := emptied.blocksAt_put member named rfl other
  rw [coherent.blocksAt_set found] at copied
  exact copied

theorem blocksAt_decLinks (cache : BlockCache) (path other : Bytes)
    : (cache.decLinks path).blocksAt other = ∅
      ∨ (cache.decLinks path).blocksAt other = cache.blocksAt other := by
  rw [blocksAt, find_decLinks, blocksAt]
  cases cache.find other with
  | none => exact Or.inl rfl
  | some inode =>
      rw [Option.map_some, Option.elim_some, Option.elim_some]
      split
      · unfold Inode.decLink
        split
        · exact Or.inl rfl
        · exact Or.inr rfl
      · exact Or.inr rfl

/-- The side table holds the blocks of every path. -/
def Mirrored (env : Env) (names : Set Bytes) (cache : BlockCache) : Prop :=
  ∀ path ∈ names, cache.dirtyBlock[Util.cryptoHash env path]?.getD ∅ = cache.blocksAt path

/-- No file loses a block. -/
def KeepsBlocks (cache next : BlockCache) : Prop :=
  ∀ path, ∀ blockIdx ∈ cache.blocksAt path, blockIdx ∈ next.blocksAt path

theorem KeepsBlocks.empty (keeps : KeepsBlocks cache next) (empty : next.blocksAt path = ∅)
    : cache.blocksAt path = ∅ := by
  refine Std.ExtTreeMap.ext_getElem? fun blockIdx => ?_
  rw [Std.ExtTreeMap.getElem?_empty]
  refine Std.ExtTreeMap.getElem?_eq_none fun member => ?_
  have still := keeps path blockIdx member
  rw [empty] at still
  exact Std.ExtTreeMap.not_mem_empty still

/-- A call that leaves the table alone leaves it right, unless it takes blocks away. -/
theorem Mirrored.kept (mirrored : Mirrored env names cache) (keeps : KeepsBlocks cache next)
    (dirty : next.dirtyBlock = cache.dirtyBlock)
    (fewer : ∀ path, next.blocksAt path = ∅ ∨ next.blocksAt path = cache.blocksAt path)
    : Mirrored env names next := by
  intro path member
  rw [dirty, mirrored path member]
  rcases fewer path with empty | same
  · rw [empty, keeps.empty empty]
  · exact same.symm

/-- One path loses its blocks, if it has any. -/
theorem Mirrored.emptied (mirrored : Mirrored env names cache) (keeps : KeepsBlocks cache next)
    (dirty : next.dirtyBlock = cache.dirtyBlock) (path : Bytes)
    (rest : ∀ other, next.blocksAt other = if other = path then ∅ else cache.blocksAt other)
    : Mirrored env names next := by
  refine mirrored.kept keeps dirty fun other => ?_
  rw [rest]
  split
  · exact Or.inl rfl
  · exact Or.inr rfl

/-- A removal takes the path off all links, and a file without links has no blocks. -/
theorem Mirrored.removed (mirrored : Mirrored env names cache)
    (coherent : Coherent env names cache) (now : Clock)
    (found : (cache.decLinks path).find path = some inode)
    (keeps : KeepsBlocks cache next) (idx : next.inodeIdx = cache.inodeIdx)
    (ptrs
      : next.inodePtrs = ((cache.decLinks path).set path (inode.deleteInode now)).inodePtrs)
    (dirty : next.dirtyBlock = cache.dirtyBlock)
    : Mirrored env names next := by
  refine mirrored.kept keeps dirty fun other => ?_
  have same : next.find other
      = ((cache.decLinks path).set path (inode.deleteInode now)).find other := by
    rw [find, idx, ptrs]
    rfl
  have blocks := (blocksAt_congr same).trans
    ((coherent.decLinks path).blocksAt_set found (inode.deleteInode now) other)
  rw [blocks]
  split
  · exact Or.inl rfl
  · exact blocksAt_decLinks cache path other

/-- One path hands its blocks on to another: to keep them all it has none or stays where it is. -/
theorem Mirrored.moved (mirrored : Mirrored env names cache) (keeps : KeepsBlocks cache next)
    (dirty : next.dirtyBlock = cache.dirtyBlock) (from_ to_ : Bytes)
    (rest
      : ∀ other, next.blocksAt other
          = if other = to_ then cache.blocksAt from_
            else if other = from_ then ∅ else cache.blocksAt other)
    : Mirrored env names next := by
  refine mirrored.kept keeps dirty fun other => ?_
  rw [rest]
  by_cases target : other = to_
  · rw [if_pos target]
    by_cases same : from_ = to_
    · exact Or.inr (by rw [target, same])
    · refine Or.inl (keeps.empty ?_)
      rw [rest, if_neg same, if_pos rfl]
  · rw [if_neg target]
    split
    · exact Or.inl rfl
    · exact Or.inr rfl

/-- Each block of a write goes to both tables. -/
theorem writeBlock_dirty {alloc blockIdx currIdx blockSize offsetAmt : Nat}
    (same : state.dirty = state.inode.blocks)
    : (writeBlock now buf alloc blockIdx currIdx blockSize offsetAmt state).dirty
      = (writeBlock now buf alloc blockIdx currIdx blockSize offsetAmt state).inode.blocks := by
  have again {temp : BlockRef} (present : state.inode.blocks[blockIdx]? = some temp)
      : state.inode.blocks.insert blockIdx temp = state.inode.blocks := by
    refine Std.ExtTreeMap.ext_getElem? fun other => ?_
    rw [Tables.getElem?_insert]
    split
    case isTrue there => rw [there, present]
    case isFalse => rfl
  unfold writeBlock
  rw [same]
  cases present : state.inode.blocks[blockIdx]? with
  | none => rfl
  | some temp => exact again present

theorem Mirrored.written (mirrored : Mirrored env names cache)
    (coherent : Coherent env names cache) (found : cache.find path = some inode)
    (loop : cache.runLoop now path buf offset inode = .ok state)
    : Mirrored env names (cache.written path state) := by
  obtain ⟨filed, member⟩ := coherent.idx (mem_of_find found)
  have both : state.dirty = state.inode.blocks := by
    refine writeLoop_invariant (P := fun state => state.dirty = state.inode.blocks)
      (fun _ _ _ _ _ same => writeBlock_dirty same) loop ?_
    have here := mirrored path member
    rw [blocksAt_of_find found] at here
    simp only [filed, Option.getD_some, grown_blocks]
    exact here
  intro other among
  have blocks : (cache.written path state).blocksAt other
      = if other = path then state.inode.blocks else cache.blocksAt other :=
    coherent.blocksAt_set found state.inode other
  have table : (cache.written path state).dirtyBlock[Util.cryptoHash env other]?
      = if Util.cryptoHash env other = Util.cryptoHash env path then some state.dirty
        else cache.dirtyBlock[Util.cryptoHash env other]? := by
    rw [BlockCache.written, filed, Option.getD_some, Tables.getElem?_insert]
  rw [blocks, table]
  by_cases same : other = path
  · rw [if_pos same, if_pos (congrArg _ same), Option.getD_some, both]
  · rw [if_neg same, if_neg fun hash => same (coherent.apart among member hash)]
    exact mirrored other among

/-- Every call on files leaves the table right, unless it takes blocks away. Nothing is loaded. -/
theorem Mirrored.effect (mirrored : Mirrored env names cache)
    (coherent : Coherent env names cache) (unmapped : cache.loader.mapped = false)
    (onFiles : op.onFiles = true) (members : ∀ path ∈ op.paths, path ∈ names)
    (keeps : KeepsBlocks cache next) (effect : Effect env now cache op result next)
    : Mirrored env names next := by
  cases effect with
  | makeFile path mode dirty =>
      exact mirrored.emptied keeps rfl path
        (coherent.blocksAt_makeFile now (members path (List.mem_cons_self ..)) mode dirty)
  | writeMissing missing => exact mirrored
  | @write path _ _ middle inode _ ready loop =>
      have found := ready.found
      cases ready with
      | loaded away lookup some => exact absurd (nothing_of_unmapped unmapped lookup) some
      | @cached before here there =>
          have marked : Mirrored env names (cache.set path before.setDirty.remakeInode) := by
            intro other member
            have blocks := coherent.blocksAt_set there before.setDirty.remakeInode other
            refine (mirrored other member).trans ?_
            rw [blocks]
            split
            case isTrue same => rw [same, blocksAt_of_find there]; rfl
            case isFalse => rfl
          exact marked.written (coherent.set there ⟨rfl, rfl⟩) found loop
  | truncateMissing away => exact mirrored
  | @truncate path size inode here found =>
      refine mirrored.kept keeps rfl fun other => Or.inr ?_
      refine (coherent.blocksAt_set found (inode.setSize now size) other).trans ?_
      split
      case isTrue same => rw [same, blocksAt_of_find found]; rfl
      case isFalse => rfl
  | removeMissing away => exact mirrored
  | remove here noNulls found => exact mirrored.removed coherent now found keeps rfl rfl rfl
  | rmdirMissing away => exact mirrored
  | @rmdir path inode here found =>
      exact mirrored.emptied keeps rfl path (coherent.blocksAt_set found (inode.deleteInode now))
  | renameMissing missing => exact mirrored
  | @renameOver from_ to_ first second source ensured target found =>
      obtain rfl := ensured.of_unmapped unmapped
      obtain rfl := target.of_unmapped unmapped
      refine mirrored.moved keeps rfl from_ to_ fun other => ?_
      rw [coherent.blocksAt_moved now (members to_ (by simp [Op.paths])) found,
        blocksAt_of_find found]
  | @renameNew from_ to_ first old source ensured target was found =>
      obtain rfl := ensured.of_unmapped unmapped
      have member := members to_ (by simp [Op.paths])
      have made : Coherent env names (first.makeFile env now to_ old.mode true) :=
        coherent.makeFile old.mode true member
      have different : from_ ≠ to_ := by
        rintro rfl
        cases target with
        | absent away lookup none => simp [inCache, mem_of_find was] at away
      have blocks (other : Bytes) := coherent.blocksAt_makeFile now member old.mode true other
      refine mirrored.moved keeps rfl from_ to_ fun other => ?_
      rw [made.blocksAt_moved now member found, ← blocksAt_of_find found, blocks, blocks,
        if_neg different]
      by_cases same : other = to_
      · rw [if_pos same, if_pos same]
      · rw [if_neg same, if_neg same, if_neg same]
  | open_ ensured => exact ensured.of_unmapped unmapped ▸ mirrored
  | read ensured found bytes => exact ensured.of_unmapped unmapped ▸ mirrored
  | _ => cases onFiles

-----------------------------------------------------------------------------------------
-- The next process
-----------------------------------------------------------------------------------------

/-- What is found of a path in the only file on disk: the attributes and the blocks of its call. -/
theorem lookup_single {file : TreeFile env} {call : AddCall} (named : path ≠ [])
    (held : file.find (Util.cryptoHash env path) = some call) (stamped : 0 < call.mtime)
    : ∃ di,
        BPLUSIndexLoader.findLatestInode env [file.image] path true = .ok di ∧ di.mtime ≠ 0
        ∧ di.attributes = call.attributes
        ∧ ∀ blockIdx : Nat, di.blockData[blockIdx]?
            = call.dirtyBlocks[blockIdx]?.map (Block.readBack env) := by
  have alone : heldBy [file] path = [call] := by simp [heldBy, held]
  have visited : visitedBy [file] path true = [call] := by
    simp [visitedBy, held, BPLUSIndexLoader.visited]
  obtain ⟨di, lookup, shows⟩ := @findLatestInode_attributes env [file] path named
    (by simpa [alone] using stamped) true
  rw [visited] at shows
  rcases shows with ⟨none, -⟩ | ⟨other, newest, same⟩
  · cases none
  obtain rfl := List.mem_singleton.mp newest.member
  have time : di.mtime = other.mtime := congrArg Attributes.mtime same
  refine ⟨di, lookup, by omega, same, fun blockIdx => ?_⟩
  rw [@findLatestInode_blocks env [file] path named _ lookup, visited]
  rcases scan_spec newer_le BlockVersion.mtime (versionsOf env blockIdx [other]) with
    ⟨nothing, none⟩ | ⟨version, best, isNewest⟩
  · rw [none, Option.map_none, eq_comm, Option.map_eq_none_iff]
    by_contra stored
    obtain ⟨block, stored⟩ := Option.ne_none_iff_exists'.mp stored
    have member : (⟨blockIdx, _, block.readBack env⟩ : BlockVersion)
        ∈ versionsOf env blockIdx [other] :=
      List.mem_filter.mpr ⟨List.mem_flatMap.mpr ⟨other, List.mem_singleton_self _,
        List.mem_map_of_mem (Std.ExtTreeMap.mem_toList_iff_getElem?_eq_some.mpr stored)⟩, by simp⟩
    rw [nothing] at member
    cases member
  · rw [best, Option.map_some]
    obtain ⟨among, number⟩ := List.mem_filter.mp isNewest.member
    obtain ⟨call, called, stored⟩ := List.mem_flatMap.mp among
    obtain rfl := List.mem_singleton.mp called
    obtain ⟨⟨blockId, block⟩, entry, rfl⟩ := List.mem_map.mp stored
    obtain rfl : blockId = blockIdx := of_decide_eq_true number
    rw [Std.ExtTreeMap.mem_toList_iff_getElem?_eq_some.mp entry, Option.map_some]

/-- A call on files that takes no block away from a file and lets no block outgrow its array. -/
structure Careful (env : Env) (cache : BlockCache) (event : Event) (next : BlockCache) : Prop where
  taken : Steps env cache event next
  keeps : KeepsBlocks cache next
  fits : KeepsSizes env cache (.call event)

/-- A cache whose files were all made in its own process. -/
structure Unsaved (env : Env) (names : Set Bytes) (cache : BlockCache) : Prop where
  coherent : Coherent env names cache
  sizes : SizesKept env names cache
  stamped : EveryInode Stamped cache
  unlinked : EveryInode Unlinked cache
  mirrored : Mirrored env names cache
  flagged : ∀ path ∈ cache.inodeIdx, cache.hasChanged = true
  unmapped : cache.loader.mapped = false
  disk : cache.disk = []

theorem Unsaved.new (first : VisitOrder) (size : Nat)
    (apart : Set.InjOn (Util.cryptoHash env) names)
    : Unsaved env names (BlockCache.new [] first size) where
  coherent := .new [] first size apart
  sizes := ⟨.new _ _ _, .new _ _ _, fun _ => Nat.zero_le _, .restart (by simp [Archived]) _ _⟩
  stamped := .new [] first size
  unlinked := .new [] first size
  mirrored := fun path _ => by simp [BlockCache.new, blocksAt, find]
  flagged := fun path here => by simp [BlockCache.new] at here
  unmapped := rfl
  disk := rfl

theorem Unsaved.step {event : Event} (unsaved : Unsaved env names cache)
    (onFiles : event.op.onFiles = true) (members : ∀ path ∈ event.op.paths, path ∈ names)
    (careful : Careful env cache event next)
    : Unsaved env names next := by
  have effect := step_effect careful.taken
  have same := effect.sameDisk onFiles
  exact {
    coherent := unsaved.coherent.effect (plain_of_onFiles onFiles members) effect
    sizes := unsaved.sizes.turn
      (show ∀ path ∈ (Turn.call event).paths, path ∈ names from members)
      careful.fits careful.taken
    stamped := unsaved.stamped.effect (stamped_lasts env) (stamped_loads env _) effect
    unlinked := unsaved.unlinked.effect (unlinked_lasts env) (unlinked_loads env _) effect
    mirrored := unsaved.mirrored.effect unsaved.coherent unsaved.unmapped onFiles members
      careful.keeps effect
    flagged := effect.flagged unsaved.flagged unsaved.unmapped onFiles
    unmapped := same.2 ▸ unsaved.unmapped
    disk := same.1 ▸ unsaved.disk
  }

theorem Coherent.id_of_find (coherent : Coherent env names cache)
    (found : cache.find path = some inode)
    : inode.inodeId = Util.cryptoHash env path ∧ path ∈ names := by
  obtain ⟨-, named, member⟩ := coherent.pointed.of_find found
  rw [coherent.own path inode found] at member
  rw [Inode.Named, coherent.own path inode found] at named
  exact ⟨named, member⟩

/-- The document that is made of what a flush wrote shows the file that was flushed. -/
theorem Unsaved.sameFile (unsaved : Unsaved env names cache) (found : cache.find path = some inode)
    {di : DiskInodeInfo}
    (attributes : di.attributes = (cache.flushCall (path, inode.inodeId) inode).attributes)
    (blocks
      : ∀ blockIdx : Nat, di.blockData[blockIdx]?
          = (cache.flushCall (path, inode.inodeId) inode).dirtyBlocks[blockIdx]?.map
            (Block.readBack env))
    (now : Clock)
    : (di.document env now path).SameFile env (inode.document cache.heap) := by
  obtain ⟨size, mode, deleted, -⟩ := loadedInode_shape env now path 0 di
  obtain ⟨-, nlink, -, -⟩ := loadedInode_stamps env now path 0 di
  obtain ⟨sameMode, sameNlink, -, -, sameSize, sameDeleted⟩ := Attributes.mk.inj attributes
  obtain ⟨named, member⟩ := unsaved.coherent.id_of_find found
  refine ⟨mode.trans sameMode, size.trans sameSize, deleted.trans sameDeleted, ?_, ?_⟩
  · refine nlink.trans ?_
    split
    case isTrue gone =>
      -- loading does not keep the count on disk, and the one in the cache is zero too
      exact (unsaved.unlinked.of_find found (sameDeleted.symm.trans gone)).1.symm
    case isFalse => exact sameNlink
  · intro blockIdx
    have table : cache.dirtyBlock[inode.inodeId]?.getD ∅ = inode.blocks := by
      rw [named, unsaved.mirrored path member, blocksAt_of_find found]
    have stored : (cache.flushCall (path, inode.inodeId) inode).dirtyBlocks[blockIdx]?
        = inode.blocks[blockIdx]?.map cache.heap := by
      rw [flushCall, dirtyBlocksOf, table, Std.ExtTreeMap.getElem?_map]
    have loaded : (di.document env now path).blocks[blockIdx]?
        = (inode.blocks[blockIdx]?.map cache.heap).map (Block.readBack env) :=
      (blocks blockIdx).trans (congrArg _ stored)
    rw [loaded, Inode.document_getElem?, Option.map_map]
    refine Option.map_congr fun block held => ?_
    obtain ⟨ref, -, rfl⟩ := Option.map_eq_some_iff.mp held
    exact Block.copied_readBack env (unsaved.sizes.small ref)

/-- The directory holds the one file that a flush writes. -/
theorem Unsaved.disk_flushed (unsaved : Unsaved env names cache) (nonempty : cache.inodeIdx ≠ ∅)
    (index : BPLUSIndex)
    : (cache.flushed index).disk = [index.image] := by
  rw [BlockCache.flushed, unsaved.disk, if_neg (by simpa using nonempty), List.nil_append]

/-- The next process finds the file that was flushed. -/
theorem Unsaved.fetched (unsaved : Unsaved env names cache) (nonempty : cache.inodeIdx ≠ ∅)
    {index : BPLUSIndex} (filled : cache.fill env = .ok index) (given : path ≠ [])
    (found : cache.find path = some inode) (visits : VisitOrder) (now : Clock)
    : ∃ doc, archives env (cache.flushed index).disk visits now path = .ok (some doc)
        ∧ doc.SameFile env (inode.document cache.heap) := by
  have pointed := unsaved.coherent.pointed
  have fits := unsaved.coherent.flushFits
  obtain ⟨other, filled', image⟩ := fits.fill_eq pointed nonempty
  obtain rfl := Except.ok.inj (filled.symm.trans filled')
  have held := fits.treeFile_find pointed nonempty found
  have named := (unsaved.coherent.id_of_find found).1
  obtain ⟨di, lookup, some, attributes, blocks⟩ :=
    lookup_single given ((congrArg _ named.symm).trans held) (unsaved.stamped.of_find found)
  have disk : visits.visit (cache.flushed index).disk
      = [(fits.treeFile pointed nonempty).image] := by
    rw [unsaved.disk_flushed nonempty index, image]
    exact List.perm_singleton.mp (visits.perm _)
  refine ⟨di.document env now path, ?_, unsaved.sameFile found attributes blocks now⟩
  rw [archives, Loader.fetch, Loader.findLatestInode, if_neg (by simp), disk, lookup, ok_bind,
    if_neg some]

/-- A read in a store that knows nothing yet reads the document that is fetched. -/
theorem read_fetched {fetch : Archive} {doc : Document} (root : path ≠ [47])
    (fetched : fetch path = .ok (some doc)) (count offset : Nat)
    : Store.read env fetch (fun _ => none) path count offset = (do
        let bytes ← doc.read env count offset
        .ok (Util.toInt count, bytes, Store.put (fun _ => none) path doc)) := by
  have unknown : Store.known (fun _ => none) path = false := by
    rw [Store.known, decide_eq_false_iff_not]
    simpa using root
  have ensured : Store.ensure fetch (fun _ => none) path
      = .ok (0, Store.put (fun _ => none) path doc) := by
    rw [Store.ensure, unknown, if_neg Bool.false_ne_true, Store.load, fetched, ok_bind]
  have got : Store.get (Store.put (fun _ => none) path doc) path = .ok doc := by
    rw [Store.get, Store.put, Function.update_self]
  rw [Store.read, ensured, ok_bind]
  dsimp only
  rw [got, ok_bind]

/-- A read of a cached path reads its document. -/
theorem read_cached (found : cache.find path = some inode) (count offset : Nat)
    : cache.read env now path count offset = (do
        let bytes ← (inode.document cache.heap).read env count offset
        .ok (Util.toInt count, bytes, cache)) := by
  have here : cache.inCache path = true := by
    simp [inCache, mem_of_find found]
  rw [BlockCache.read, ensureCached, if_pos here, ok_bind]
  dsimp only
  rw [getInodeByPath_eq_ok.mpr found, ok_bind, Inode.document_read, Inode.read, bind_assoc]
  simp only [ok_bind]

/-- A session of careful calls on an empty directory saves nothing before its last flush. -/
theorem unsaved_run {first : VisitOrder} {size : Nat} {events : List Event}
    (run : Run (Careful env) (BlockCache.new [] first size) events cache)
    (onFiles : ∀ event ∈ events, event.op.onFiles = true)
    (apart : Set.InjOn (Util.cryptoHash env) (named events))
    : Unsaved env (named events) cache := by
  refine run.recorded.state_invariant (Unsaved.new first size apart) ?_
  rintro state event next unsaved ⟨member, careful⟩
  exact unsaved.step (onFiles event member) (fun path among => ⟨event, member, among⟩) careful

/-- The last flush writes one file. -/
theorem Unsaved.flush_eq (unsaved : Unsaved env names cache) (nonempty : cache.inodeIdx ≠ ∅)
    : ∃ index, cache.fill env = .ok index
        ∧ cache.flushToShdw env true = .ok (0, cache.flushed index)
        ∧ (cache.flushed index).disk = [index.image] := by
  obtain ⟨index, filled⟩ := unsaved.coherent.flushFits.fill_ok unsaved.coherent.pointed
  have changed : cache.hasChanged = true := by
    obtain ⟨ent, listed⟩ := List.exists_mem_of_ne_nil _
      (fun none => nonempty (Std.ExtTreeMap.toList_eq_nil_iff.mp none))
    refine unsaved.flagged ent.1 (Std.ExtTreeMap.mem_iff_isSome_getElem?.mpr ?_)
    rw [Std.ExtTreeMap.mem_toList_iff_getElem?_eq_some.mp listed]
    rfl
  refine ⟨index, filled, ?_, unsaved.disk_flushed nonempty index⟩
  rw [flushToShdw, if_neg (by simp)]
  exact flushToDisk_eq changed filled

/-- Over the file that a flush wrote, every path shows the file that it was. -/
theorem Unsaved.readBack (unsaved : Unsaved env names cache)
    (apart : Set.InjOn (Util.cryptoHash env) names) (nonempty : cache.inodeIdx ≠ ∅)
    {index : BPLUSIndex} (filled : cache.fill env = .ok index) (given : path ≠ [])
    (root : path ≠ [47]) (found : cache.find path = some inode) (visits : VisitOrder) (size : Nat)
    (now : Clock)
    : (∃ doc, archives env (cache.flushed index).disk visits now path = .ok (some doc)
          ∧ doc.SameFile env (inode.document cache.heap))
        ∧ ∀ count offset,
          Related (fun left right => left.1 = right.1 ∧ left.2.1 = right.2.1)
            ((mounted (cache.flushed index).disk visits size).read env now path count offset)
            (cache.read env now path count offset) := by
  obtain ⟨doc, fetched, same⟩ := unsaved.fetched nonempty filled given found visits now
  refine ⟨⟨doc, fetched, same⟩, fun count offset => ?_⟩
  have shows := Shows.mounted (cache.flushed index).disk visits size apart
  have shown : Related _ (BlockCache.read env now _ path count offset) _ :=
    shows.read (unsaved.coherent.id_of_find found).2 count offset
  have next : Store.read env (Loader.fetch env now ⟨visits.visit (cache.flushed index).disk, true⟩)
      (fun _ => none) path count offset = _ := read_fetched root fetched count offset
  rw [next, same.read] at shown
  rw [read_cached found]
  refine @Related.trans _ _ _ _ _ (fun left right => left.1 = right.1 ∧ left.2.1 = right.2.1)
    _ _ _ _ shown ?_ ?_
  · refine (Related.of_eq fun _ => rfl).bind (R := Eq) ?_
    rintro bytes - rfl
    exact .ok ⟨rfl, rfl⟩
  · rintro one two three ⟨result, bytes, -⟩ ⟨result', bytes'⟩
    exact ⟨result.trans result', bytes.trans bytes'⟩

/-- The file that a flush wrote is the image that is mapped elsewhere. -/
theorem Unsaved.remapped (unsaved : Unsaved env names cache) (nonempty : cache.inodeIdx ≠ ∅)
    {index : BPLUSIndex} (filled : cache.fill env = .ok index)
    : Image.ofFile index.image.file = index.image := by
  obtain ⟨other, filled', image⟩ :=
    unsaved.coherent.flushFits.fill_eq unsaved.coherent.pointed nonempty
  obtain rfl := Except.ok.inj (filled.symm.trans filled')
  rw [image]
  exact TreeFile.remapped _

/-- A cache that knows a path is not empty. -/
theorem ne_empty_of_find (found : cache.find path = some inode) : cache.inodeIdx ≠ ∅ := by
  intro none
  have here := mem_of_find found
  rw [none] at here
  exact Std.ExtTreeMap.not_mem_empty here

/-- One session of careful calls: a file is created and written. -/
theorem careful_written
    : ∃ cache inode,
        Run (Careful Util.twoDigests) fresh
          [⟨.at_ 1, .makeFile [47, 97] 0o100644 true, 0⟩, ⟨.at_ 2, .write [47, 97] [1] 0, 1⟩] cache
        ∧ cache.find [47, 97] = some inode
        ∧ Set.InjOn (Util.cryptoHash Util.twoDigests)
          (named [⟨.at_ 1, .makeFile [47, 97] 0o100644 true, 0⟩,
            ⟨.at_ 2, .write [47, 97] [1] 0, 1⟩]) := by
  have tested : (withFile.writeCounted Util.twoDigests (.at_ 2) [47, 97] [1] 0).toOption.any
      (fun out => out.1 = 1 && (out.2.find [47, 97]).isSome) = true := by
    decide +kernel
  obtain ⟨⟨result, cache⟩, outcome, shown⟩ := (Option.any_eq_true _ _).mp tested
  obtain ⟨returned, there⟩ := (Bool.and_eq_true _ _).mp shown
  obtain rfl : result = 1 := of_decide_eq_true returned
  obtain ⟨inode, found⟩ := Option.isSome_iff_exists.mp there
  have apart : Set.InjOn (Util.cryptoHash Util.twoDigests) {[47, 97]} := Set.injOn_singleton _ _
  have bare (path : Bytes) : withFile.blocksAt path = ∅ := by
    have blocks :=
      (Coherent.new [] ⟨id, .refl⟩ 0 apart).blocksAt_makeFile (.at_ 1) rfl 0o100644 true path
    rw [show withFile.blocksAt path = _ from blocks]
    split <;> simp [blocksAt, BlockCache.new, find]
  have nothing {cache next : BlockCache} (bare : ∀ path, cache.blocksAt path = ∅)
      : KeepsBlocks cache next := by
    intro path blockIdx member
    rw [bare] at member
    exact absurd member Std.ExtTreeMap.not_mem_empty
  have made : Careful Util.twoDigests fresh ⟨.at_ 1, .makeFile [47, 97] 0o100644 true, 0⟩
      withFile :=
    ⟨rfl, nothing fun path => by simp [blocksAt, fresh, BlockCache.new, find],
      ⟨fun flushes => by simp [Event.Flushes] at flushes, trivial⟩⟩
  have written : Careful Util.twoDigests withFile ⟨.at_ 2, .write [47, 97] [1] 0, 1⟩ cache := by
    refine ⟨?_, nothing bare, ⟨fun flushes => by simp [Event.Flushes] at flushes, ?_⟩⟩
    · rw [Steps, step]
      cases done : withFile.writeCounted Util.twoDigests (.at_ 2) [47, 97] [1] 0 with
      | error fault => simp [done, Except.toOption] at outcome
      | ok out => rw [done] at outcome; exact congrArg Except.ok (Option.some.inj outcome)
    · exact fun _ _ _ _ _ => by decide
  refine ⟨cache, inode, Run.snoc (Run.snoc Run.nil made) written, found, apart.mono ?_⟩
  rintro path ⟨event, member, among⟩
  rcases List.mem_cons.mp member with rfl | later
  · exact List.mem_singleton.mp among
  · obtain rfl := List.mem_singleton.mp later
    exact List.mem_singleton.mp among

/-- In a session on an empty directory whose calls take no block away from a file and let no block
outgrow its array, the last flush succeeds, and the next process finds every file as it was: it has
the same mode, size, deleted flag, link count and blocks, and whatever is read of it, be it bytes
or a fault, is what the first process would have read.
-/
theorem remounted {first : VisitOrder} {size : Nat} {events : List Event}
    (run : Run (Careful env) (BlockCache.new [] first size) events cache)
    (onFiles : ∀ event ∈ events, event.op.onFiles = true)
    (apart : Set.InjOn (Util.cryptoHash env) (named events)) (nonempty : cache.inodeIdx ≠ ∅)
    : ∃ next, cache.flushToShdw env true = .ok (0, next)
        ∧ ∀ path inode, path ≠ [] → path ≠ [47] → cache.find path = some inode
          → ∀ visits size now,
            (∃ doc, archives env next.disk visits now path = .ok (some doc)
              ∧ doc.SameFile env (inode.document cache.heap))
            ∧ ∀ count offset,
              Related (fun left right => left.1 = right.1 ∧ left.2.1 = right.2.1)
                ((mounted next.disk visits size).read env now path count offset)
                (cache.read env now path count offset) := by
  have unsaved := unsaved_run run onFiles apart
  obtain ⟨index, filled, flushed, -⟩ := unsaved.flush_eq nonempty
  exact ⟨cache.flushed index, flushed, fun path inode given root found visits size now =>
    unsaved.readBack apart nonempty filled given root found visits size now⟩

/-- A file is created and written, and is read back after it was mounted again. -/
theorem remounted_written
    : ∃ cache next,
        Run (Steps Util.twoDigests) fresh
          [⟨.at_ 1, .makeFile [47, 97] 0o100644 true, 0⟩, ⟨.at_ 2, .write [47, 97] [1] 0, 1⟩] cache
        ∧ cache.flushToShdw Util.twoDigests true = .ok (0, next)
        ∧ ∀ visits size now count offset,
            Related (fun left right => left.1 = right.1 ∧ left.2.1 = right.2.1)
              ((mounted next.disk visits size).read Util.twoDigests now [47, 97] count offset)
              (cache.read Util.twoDigests now [47, 97] count offset) := by
  obtain ⟨cache, inode, run, found, apart⟩ := careful_written
  obtain ⟨next, flushed, same⟩ :=
    remounted run (by simp [Op.onFiles]) apart (ne_empty_of_find found)
  refine ⟨cache, next, run.weaken fun _ _ _ careful => careful.taken, flushed, ?_⟩
  exact fun visits size now => (same [47, 97] inode (by decide) (by decide) found visits size now).2

end BlockCache

end ZippyFS
