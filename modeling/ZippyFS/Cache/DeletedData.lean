import Mathlib.Data.Finset.Order
import ZippyFS.Cache.EveryInode
import ZippyFS.Cache.OtherPaths
import ZippyFS.Index.RecordList

/-! What is left of a removed path. The inode keeps its size and the side table its blocks, and both
are used for a file that is created under the path later.
-/

namespace ZippyFS

open Runs NewestWins Outcomes

-----------------------------------------------------------------------------------------
-- The law
-----------------------------------------------------------------------------------------

/-- The size of a file and the bytes of its blocks. -/
structure Contents where
  size : Nat
  blocks : Nat → Option Bytes

def FileState.contents (env : Env) (state : FileState) : Contents :=
  ⟨state.size, fun blockIdx => (state.blocks blockIdx).map fun block =>
    block.copied env block.actualSize⟩

/-- What a lookup of a path finds, in the cache or on disk. -/
def BlockCache.contents (env : Env) (cache : BlockCache) (path : Bytes)
    : Except Fault (Option Contents) :=
  (cache.fileState env path).map (Option.map (FileState.contents env))

/-- Calls that differ only in what they store in a path. -/
inductive Event.SameBut (path : Bytes) : Event → Event → Prop where
  | same {event : Event} (stays : ∀ to_, event.op ≠ .rename path to_) : SameBut path event event
  | write {now : Clock} {buf buf' : Bytes} {offset offset' : Nat} {result result' : Int}
    : SameBut path ⟨now, .write path buf offset, result⟩ ⟨now, .write path buf' offset', result'⟩
  | truncate {now : Clock} {size size' : Nat} {result result' : Int}
    : SameBut path ⟨now, .truncate path size, result⟩ ⟨now, .truncate path size', result'⟩

/-- The call creates a path by `make_file`. -/
def Event.MakesFile (path : Bytes) (event : Event) : Prop :=
  ∃ mode dirty, event.op = .makeFile path mode dirty

/-- The call writes to a path. -/
def Event.WritesTo (path : Bytes) (event : Event) : Prop :=
  ∃ buf offset, event.op = .write path buf offset ∧ event.result = buf.length

/-- The calls begin with the removal of a path, and one of the others creates it again. -/
def CreatedAgain (creates : Event → Prop) (path : Bytes) (events : List Event) : Prop :=
  ∃ removal rest creation, events = removal :: rest
    ∧ removal.op = .remove path ∧ removal.result = 0
    ∧ creation ∈ rest ∧ creates creation

/-- The calls come one after the other, and behind a time. -/
def Ascending (start : Nat) (events : List Event) : Prop :=
  (start :: events.map (fun event => Util.getTime event.now)).Pairwise (· < ·)

instance (start : Nat) (events : List Event) : Decidable (Ascending start events) :=
  inferInstanceAs (Decidable (List.Pairwise _ _))

/-- What a path contained before it was removed does not matter for a file that is created there
later: two runs that differ in nothing else end with the same size and blocks.
-/
def Forgets (env : Env) (creates : Event → Prop) (start : Nat) (cache : BlockCache) (path : Bytes)
    : Prop :=
  ∀ (before before' since : List Event) (final final' : BlockCache),
    List.Forall₂ (Event.SameBut path) before before'
    → CreatedAgain creates path since
    → Ascending start (before ++ since)
    → Run (Steps env) cache (before ++ since) final
    → Run (Steps env) cache (before' ++ since) final'
    → final.contents env path = final'.contents env path

namespace BlockCache

variable {env : Env} {now : Clock} {cache next final : BlockCache} {path buf : Bytes}
  {names : Set Bytes} {op : Op} {result : Int} {inode : Inode} {events : List Event} {block : Block}
  {mtime start : Nat}

-----------------------------------------------------------------------------------------
-- Every run
-----------------------------------------------------------------------------------------

/-- What is known along a run: the files on disk were written by flushes of stamped inodes. -/
structure Shelving (env : Env) (names : Set Bytes) (cache : BlockCache) : Prop where
  coherent : Coherent env names cache
  stamped : EveryInode Stamped cache
  backed : Backed env (fun call => Stamped call.inode) cache

theorem Shelving.restart {disk : List Image}
    (archived : Archived env (fun call => Stamped call.inode) disk)
    (apart : Set.InjOn (Util.cryptoHash env) names) (order : VisitOrder) (size : Nat)
    : Shelving env names (BlockCache.new disk order size) where
  coherent := Coherent.new disk order size apart
  stamped := EveryInode.new disk order size
  backed := Backed.restart archived order size

theorem Shelving.effect (shelving : Shelving env names cache) (plain : Plain names op)
    (effect : Effect env now cache op result next)
    : Shelving env names next where
  coherent := shelving.coherent.effect plain effect
  stamped := shelving.stamped.effect (stamped_lasts env) (stamped_loads env _) effect
  backed := shelving.backed.effect shelving.coherent.pointed
    (fun _ => shelving.coherent.flushFits) (fun _ _ found => shelving.stamped.of_find found) effect

theorem Shelving.run (shelving : Shelving env names cache) (run : Run (Steps env) cache events next)
    (plain : ∀ event ∈ events, Plain names event.op)
    : Shelving env names next := by
  refine run.recorded.state_invariant shelving ?_
  rintro state event next shelving ⟨member, taken⟩
  exact shelving.effect (plain event member) (step_effect taken)

theorem Shelving.turns {turns : List Turn} {first : VisitOrder} {size : Nat}
    (run : Run (Turns env) (BlockCache.new [] first size) turns cache)
    (plain : ∀ event, Turn.call event ∈ turns → Plain names event.op)
    (apart : Set.InjOn (Util.cryptoHash env) names)
    : Shelving env names cache := by
  have empty : Archived env (fun call => Stamped call.inode) [] :=
    fun image member => absurd member List.not_mem_nil
  refine run.recorded.state_invariant (Shelving.restart empty apart first size) ?_
  rintro state turn next shelving ⟨member, taken⟩
  cases turn with
  | call event => exact shelving.effect (plain event member) (step_effect taken)
  | restart order size =>
      rw [show next = BlockCache.new state.disk order size from taken]
      exact .restart shelving.backed.disk apart order size

/-- Operations on files leave the files on disk alone. -/
theorem sameDisk_run (run : Run (Steps env) cache events next)
    (onFiles : ∀ event ∈ events, event.op.onFiles = true)
    : SameDisk cache next := by
  refine run.recorded.state_invariant (P := SameDisk cache) ⟨rfl, rfl⟩ ?_
  rintro state event next same ⟨member, taken⟩
  exact same.trans ((step_effect taken).sameDisk (onFiles event member))

-----------------------------------------------------------------------------------------
-- What a removal leaves
-----------------------------------------------------------------------------------------

/-- The side table lists a block of a path, with a modification time. -/
def ListsBlock (env : Env) (cache : BlockCache) (path : Bytes) (blockIdx : Nat) (block : Block)
    (mtime : Nat)
    : Prop :=
  (cache.dirtyBlocksOf (Util.cryptoHash env path))[blockIdx]? = some block
  ∧ (cache.dirtyBlockMtime[Util.cryptoHash env path]?.getD ∅)[blockIdx]?.getD 0 = mtime

/-- A file of a size that has a single block in the side table. -/
structure OneBlock (env : Env) (cache : BlockCache) (path : Bytes) (size : Nat) (block : Block)
    (mtime : Nat)
    : Prop where
  found : ∃ inode, cache.find path = some inode ∧ inode.size = size
  listed : ListsBlock env cache path 0 block mtime

/-- Only the index, the inodes and the side table matter. -/
theorem OneBlock.congr {size : Nat} (stored : OneBlock env cache path size block mtime)
    (idx : next.inodeIdx = cache.inodeIdx) (ptrs : next.inodePtrs = cache.inodePtrs)
    (dirty : next.dirtyBlock = cache.dirtyBlock) (heap : next.heap = cache.heap)
    (mtimes : next.dirtyBlockMtime = cache.dirtyBlockMtime)
    : OneBlock env next path size block mtime where
  found := by
    unfold find
    rw [idx, ptrs]
    exact stored.found
  listed := by
    rw [ListsBlock, dirtyBlocksOf, dirty, heap, mtimes]
    exact stored.listed

/-- A removal keeps the size and the side table. -/
theorem OneBlock.remove {size : Nat} (stored : OneBlock env cache path size block mtime)
    (pointed : Pointed env names cache) (now : Clock)
    : ∃ next, cache.remove now path = .ok (0, next) ∧ OneBlock env next path size block mtime := by
  obtain ⟨inode, found, sized⟩ := stored.found
  obtain ⟨lowered, known, same, removes⟩ := remove_cached found pointed.noNulls now
  have emptied : OneBlock env ((cache.decLinks path).set path (lowered.deleteInode now)) path size
      block mtime :=
    ⟨⟨_, find_set_self (mem_of_find known), same.trans sized⟩, stored.listed⟩
  exact ⟨_, removes, emptied.congr rfl rfl rfl rfl rfl⟩

/-- The loop of a write of a short buffer to an inode without blocks lists one block. -/
theorem runLoop_oneBlock (cache : BlockCache) (path : Bytes) (inode : Inode)
    (empty : inode.blocks = ∅)
    (some : buf ≠ []) (short : buf.length ≤ SIZE) (now : Clock)
    : ∃ state ref, cache.runLoop now path buf 0 inode = .ok state
      ∧ state.inode.size = max inode.size buf.length
      ∧ state.dirty[0]? = Option.some ref
      ∧ state.heap ref = Block.new buf buf.length
      ∧ state.mtimes[0]? = Option.some (Util.getTime now) := by
  have width : SIZE = 4096 := rfl
  have limit : lastEnd = 17592186040320 := rfl
  have blocks (blockIdx : Nat)
      : (startOf now cache path inode (buf.length + 0)).inode.blocks[blockIdx]? = none := by
    rw [startOf, grown_blocks, empty, Std.ExtTreeMap.getElem?_empty]
  have filed : (startOf now cache path inode (buf.length + 0)).inode.Filed := by
    intro blockIdx ref held
    rw [blocks] at held
    cases held
  have wrote := rounds_wrote now buf cache.allocs 0 (roundCount buf 0) filed
  have touched : Touched 0 (roundCount buf 0) 0 := by
    have covered := (ulongCeil_spec (buf.length + 0)).1
    have bytes := List.length_pos_iff.mpr some
    have first : firstBlock 0 = 0 := rfl
    refine ⟨le_refl 0, ?_⟩
    rw [roundCount, first]
    rw [width] at covered ⊢
    omega
  have content : roundBlock buf 0 (0 - firstBlock 0) none = Block.new buf buf.length := by
    simp [roundBlock, before, share, firstBlock, short]
  have block := wrote.block 0
  rw [if_pos touched, Writing.block, Writing.block, blocks, Option.map_none, content,
    Option.map_eq_some_iff] at block
  obtain ⟨ref, held, block⟩ := block
  have dirty := wrote.dirty 0
  have mtimes := wrote.mtimes 0
  rw [if_pos touched] at dirty mtimes
  refine ⟨_, ref, runLoop_eq now cache path inode (by omega), ?_, dirty.trans held, block, mtimes⟩
  rw [wrote.same.size, startOf, grown_size]
  rfl

/-- What the loop listed is listed in the cache behind it. -/
theorem Coherent.written_oneBlock (coherent : Coherent env names cache)
    (here : path ∈ cache.inodeIdx) {state : Writing} {ref : BlockRef}
    (dirty : state.dirty[0]? = some ref) (mtimes : state.mtimes[0]? = some mtime)
    : OneBlock env (cache.written path state) path state.inode.size (state.heap ref) mtime := by
  have id := (coherent.idx here).1
  refine ⟨⟨_, find_written here state, rfl⟩, ?_, ?_⟩
  · rw [dirtyBlocksOf, Std.ExtTreeMap.getElem?_map, BlockCache.written, id]
    simp only [Option.getD_some, Std.ExtTreeMap.getElem?_insert_self]
    rw [dirty, Option.map_some]
  · rw [BlockCache.written, id]
    simp only [Option.getD_some, Std.ExtTreeMap.getElem?_insert_self]
    rw [mtimes, Option.getD_some]

/-- A write of a short buffer to a file without blocks lists one block with its bytes. -/
theorem Coherent.write_oneBlock (coherent : Coherent env names cache)
    (found : cache.find path = some inode) (empty : inode.blocks = ∅) (some : buf ≠ [])
    (short : buf.length ≤ SIZE) (now : Clock)
    : ∃ next, cache.writeCounted env now path buf 0 = .ok ((buf.length : Int), next)
      ∧ OneBlock env next path (max inode.size buf.length) (Block.new buf buf.length)
        (Util.getTime now) := by
  have here := mem_of_find found
  have ready : Coherent env names (cache.set path inode.setDirty.remakeInode) :=
    coherent.set found ⟨rfl, rfl⟩
  have there : path ∈ (cache.set path inode.setDirty.remakeInode).inodeIdx := here
  obtain ⟨state, ref, loop, size, dirty, block, mtimes⟩ :=
    runLoop_oneBlock (cache.set path inode.setDirty.remakeInode) path inode.setDirty.remakeInode
      empty some short now
  have stored := ready.written_oneBlock there dirty mtimes
  rw [size, block] at stored
  refine ⟨_, ?_, stored⟩
  rw [writeCounted_cached found, loop, ok_bind]

end BlockCache

-----------------------------------------------------------------------------------------
-- What a flush brings back
-----------------------------------------------------------------------------------------

section Reload

variable {env : Env} {P : AddCall → Prop} {path : Bytes} {images : List Image}
  {mtime blockIdx : Nat} {block : Block}

/-- The blocks that a call stores are older than a time. -/
def AddCall.BlocksBefore (env : Env) (mtime : Nat) (call : AddCall) : Prop :=
  ∀ version ∈ call.versions env, version.mtime < mtime

/-- All blocks on disk are older than some time. -/
theorem Archived.blocksBefore (archived : Archived env P images)
    : ∃ bound, ∀ mtime > bound,
        Archived env (fun call => P call ∧ call.BlocksBefore env mtime) images := by
  obtain ⟨files, rfl, holds⟩ := archived.files
  obtain ⟨bound, oldest⟩ := Finset.exists_le
    ((files.flatMap (·.calls)).flatMap (·.versions env) |>.map BlockVersion.mtime).toFinset
  refine ⟨bound, fun mtime later image member => ?_⟩
  obtain ⟨file, inside, rfl⟩ := List.mem_map.mp member
  refine ⟨file, rfl, fun call called => ⟨holds file inside call called, fun version stored => ?_⟩⟩
  refine lt_of_le_of_lt (oldest version.mtime ?_) later
  rw [List.mem_toFinset]
  refine List.mem_map_of_mem (List.mem_flatMap.mpr ⟨call, ?_, stored⟩)
  exact List.mem_flatMap.mpr ⟨file, inside, called⟩

/-- A block that the first file holds is found if all files behind it have older ones. -/
theorem findLatestInode_newest {file : TreeFile env} (rest : List (TreeFile env)) {call : AddCall}
    (named : path ≠ []) (held : file.find (Util.cryptoHash env path) = some call)
    (stored : call.dirtyBlocks[blockIdx]? = some block)
    (time : call.blockMtime[blockIdx]?.getD 0 = mtime) (stamped : 0 < call.inode.ulMtime)
    (older
      : ∀ file ∈ rest, ∀ call ∈ file.calls, 0 < call.inode.ulMtime ∧ call.BlocksBefore env mtime)
    : ∃ di,
        BPLUSIndexLoader.findLatestInode env ((file :: rest).map (·.image)) path true = .ok di
        ∧ di.mtime ≠ 0 ∧ di.blockData[blockIdx]? = some (block.readBack env) := by
  -- The first record has data, so the search goes on behind it.
  have data : ¬ (true = true ∧ call.dirtyBlocks.isEmpty = true) := by
    rintro ⟨-, empty⟩
    rw [Std.ExtTreeMap.isEmpty_iff.mp empty, Std.ExtTreeMap.getElem?_empty] at stored
    cases stored
  have visits : visitedBy (file :: rest) path true = call :: visitedBy rest path true := by
    rw [visitedBy, List.map_cons, held, BPLUSIndexLoader.visited, if_neg data]
    rfl
  have behind : ∀ other ∈ visitedBy rest path true,
      0 < other.inode.ulMtime ∧ other.BlocksBefore env mtime := by
    intro other member
    obtain ⟨-, file, inside, called⟩ := mem_of_visitedBy member
    exact older file inside other called
  have newest (other : BlockVersion)
      : IsNewest BlockVersion.mtime (versionsOf env blockIdx (visitedBy (file :: rest) path true))
          other
        ↔ other = ⟨blockIdx, mtime, block.readBack env⟩ := by
    rw [visits]
    refine isNewest_iff_of_latest ?_ (fun version member => ?_) other
    · refine List.mem_filter.mpr ⟨List.mem_flatMap.mpr ⟨call, List.mem_cons_self .., ?_⟩, by simp⟩
      rw [← time]
      exact List.mem_map.mpr
        ⟨(blockIdx, block), Std.ExtTreeMap.mem_toList_iff_getElem?_eq_some.mpr stored, rfl⟩
    · obtain ⟨among, number⟩ := List.mem_filter.mp member
      obtain ⟨other, called, listed⟩ := List.mem_flatMap.mp among
      rcases List.mem_cons.mp called with rfl | later
      · obtain ⟨⟨blockId, kept⟩, entry, rfl⟩ := List.mem_map.mp listed
        obtain rfl : blockId = blockIdx := of_decide_eq_true number
        have same := Std.ExtTreeMap.mem_toList_iff_getElem?_eq_some.mp entry
        obtain rfl := Option.some.inj (same.symm.trans stored)
        exact Or.inl (by rw [← time])
      · exact Or.inr ((behind other later).2 version listed)
  have positive : ∀ other ∈ heldBy (file :: rest) path, 0 < other.mtime := by
    intro other member
    obtain ⟨holder, inside, found⟩ := List.mem_filterMap.mp member
    rcases List.mem_cons.mp inside with rfl | later
    · obtain rfl := Option.some.inj (held.symm.trans found)
      exact stamped
    · exact (older holder later other ((holder.find_eq_some_iff _ _).mp found).1).1
  obtain ⟨di, lookup, shows⟩ := findLatestInode_attributes named positive true
  refine ⟨di, lookup, ?_, ?_⟩
  · rcases shows with ⟨none, -⟩ | ⟨other, isNewest, same⟩
    · rw [visits] at none
      cases none
    · have later := positive other ((visitedBy_sublist _ path true).subset isNewest.member)
      have mtime : di.mtime = other.mtime := congrArg Attributes.mtime same
      omega
  · rw [findLatestInode_blocks named lookup]
    rcases scan_spec newer_le BlockVersion.mtime
        (versionsOf env blockIdx (visitedBy (file :: rest) path true)) with
      ⟨none, -⟩ | ⟨other, found, isNewest⟩
    · have member := ((newest _).mpr rfl).member
      rw [none] at member
      cases member
    · rw [found, (newest other).mp isNewest, Option.map_some]

end Reload

/-- The files are visited from the last one that was written back to the first. -/
def newestFirst : VisitOrder := ⟨List.reverse, List.reverse_perm⟩

/-- A block of short data has its bytes. -/
theorem Block.copied_new (env : Env) {data : Bytes} (short : data.length ≤ SIZE)
    : (Block.new data data.length).copied env (Block.new data data.length).actualSize = data := by
  apply List.ext_getElem
  · simp
  · intro index _ inside
    simp only [copied, new_actualSize, List.getElem_map, List.getElem_range]
    rw [if_pos (by omega)]
    simp only [Block.new, insertData, Nat.zero_le, true_and, Nat.sub_zero]
    rw [if_pos ⟨by omega, inside⟩, List.getD_eq_getElem?_getD, List.getElem?_eq_getElem inside,
      Option.getD_some]

namespace BlockCache

variable {env : Env} {now : Clock} {cache next final : BlockCache} {path buf : Bytes}
  {names : Set Bytes} {inode : Inode} {block : Block} {mtime start blockIdx : Nat}

/-- A flush and a load bring back the blocks that were listed. -/
theorem Shelving.reload (shelving : Shelving env names cache)
    (found : cache.find path = some inode) (valid : IsFilePath path)
    (changed : cache.hasChanged = true) (listed : ListsBlock env cache path blockIdx block mtime)
    (older
      : Archived env (fun call => Stamped call.inode ∧ call.BlocksBefore env mtime) cache.disk)
    : ∃ next shown, cache.flushToDisk env = .ok (0, next)
      ∧ (next.loadTrees newestFirst).contents env path = .ok (some shown)
      ∧ shown.blocks blockIdx
        = some ((block.readBack env).copied env (block.readBack env).actualSize) := by
  have coherent := shelving.coherent
  obtain ⟨named, root⟩ := valid.proper
  have some_ : cache.inodeIdx ≠ ∅ := by
    intro none
    have here := mem_of_find found
    rw [none] at here
    exact Std.ExtTreeMap.not_mem_empty here
  obtain ⟨index, filled, image⟩ := coherent.flushFits.fill_eq coherent.pointed some_
  obtain ⟨files, onDisk, holds⟩ := older.files
  have id : inode.inodeId = Util.cryptoHash env path := by
    have known := (coherent.pointed.of_find found).1
    rw [(coherent.idx (mem_of_find found)).1, Option.some.injEq] at known
    exact known.symm
  have held := coherent.flushFits.treeFile_find coherent.pointed some_ found
  rw [id] at held
  obtain ⟨di, lookup, nonzero, bytes⟩ := findLatestInode_newest files.reverse named held
    listed.1 listed.2 (shelving.stamped.of_find found) fun file member =>
      holds file (List.mem_reverse.mp member)
  have loaded : newestFirst.visit (cache.flushed index).disk
      = (coherent.flushFits.treeFile coherent.pointed some_ :: files.reverse).map (·.image) := by
    rw [List.map_cons, List.map_reverse, ← onDisk, ← image]
    simp [newestFirst, BlockCache.flushed, some_]
  have away : ((cache.flushed index).loadTrees newestFirst).inCache path = false := by
    simp [BlockCache.inCache, BlockCache.loadTrees, BlockCache.flushed, root]
  refine ⟨_, di.fileState.contents env, flushToDisk_eq changed filled, ?_, ?_⟩
  · rw [BlockCache.contents, fileState, away, if_neg (by decide), Loader.findLatestInode,
      if_neg (by simp [BlockCache.loadTrees]), BlockCache.loadTrees]
    dsimp only
    rw [loaded, lookup, ok_bind, if_neg nonzero]
    rfl
  · rw [FileState.contents, DiskInodeInfo.fileState]
    dsimp only
    rw [bytes, Option.map_some]

-----------------------------------------------------------------------------------------
-- Two runs
-----------------------------------------------------------------------------------------

/-- A file is created and filled. -/
def filled (path buf : Bytes) (start : Nat) : List Event :=
  [⟨.at_ start, .makeFile path 0o100644 true, 0⟩, ⟨.at_ (start + 1), .write path buf 0, buf.length⟩]

/-- It is removed and then written to. -/
def writtenAgain (path : Bytes) (start : Nat) : List Event :=
  [⟨.at_ (start + 2), .remove path, 0⟩, ⟨.at_ (start + 3), .write path [0] 0, 1⟩]

/-- It is removed, created again, flushed, and loaded. -/
def madeAgain (path : Bytes) (start : Nat) : List Event :=
  [⟨.at_ (start + 2), .remove path, 0⟩, ⟨.at_ (start + 3), .makeFile path 0o100644 true, 0⟩,
    ⟨.at_ (start + 4), .flushToDisk, 0⟩, ⟨.at_ (start + 5), .loadTrees newestFirst, 0⟩]

/-- A created file has neither size nor blocks. -/
theorem find_makeFile (cache : BlockCache) (env : Env) (now : Clock) (path : Bytes) (mode : UInt32)
    : ∃ inode, (cache.makeFile env now path mode true).find path = some inode
      ∧ inode.size = 0 ∧ inode.blocks = ∅ := by
  refine ⟨((Inode.new env now path).setMode now mode).setDirty, ?_, rfl, rfl⟩
  rw [← find_put_self cache path]
  rfl

/-- The removed file has the size of the buffer, and its block is listed. -/
theorem Shelving.removed (shelving : Shelving env names cache) (member : path ∈ names)
    (some : buf ≠ []) (short : buf.length ≤ SIZE) (start : Nat)
    : ∃ next, Run (Steps env) cache
          (filled path buf start ++ [⟨.at_ (start + 2), .remove path, 0⟩]) next
        ∧ OneBlock env next path buf.length (Block.new buf buf.length)
          (Util.getTime (.at_ (start + 1))) := by
  obtain ⟨inode, found, size, empty⟩ := find_makeFile cache env (.at_ start) path 0o100644
  have created : Coherent env names (cache.makeFile env (.at_ start) path 0o100644 true) :=
    shelving.coherent.makeFile _ _ member
  obtain ⟨next, wrote, stored⟩ := created.write_oneBlock found empty some short (.at_ (start + 1))
  have taken : Steps env _ ⟨.at_ (start + 1), .write path buf 0, buf.length⟩ next := wrote
  have coherent : Coherent env names next :=
    created.effect (plain_of_onFiles rfl (by simpa [Op.paths] using member)) (step_effect taken)
  obtain ⟨last, removed, stored⟩ := stored.remove coherent.pointed (.at_ (start + 2))
  rw [size, Nat.zero_max] at stored
  exact ⟨last, .snoc (.snoc (.snoc .nil rfl) wrote) removed, stored⟩

/-- A write to a cached file never shrinks it. -/
theorem write_size {offset : Nat} (found : cache.find path = some inode)
    (ends : buf.length + offset ≤ lastEnd) (env : Env) (now : Clock)
    : ∃ next after, cache.writeCounted env now path buf offset = .ok ((buf.length : Int), next)
      ∧ next.find path = some after ∧ after.size = max inode.size (buf.length + offset) := by
  have there : path ∈ (cache.set path inode.setDirty.remakeInode).inodeIdx :=
    show path ∈ cache.inodeIdx from mem_of_find found
  obtain ⟨state, loop⟩ : ∃ state, (cache.set path inode.setDirty.remakeInode).runLoop now path buf
      offset inode.setDirty.remakeInode = .ok state := ⟨_, runLoop_eq now _ path _ ends⟩
  have same := runLoop_same loop
  have small : buf.length + offset < 2 ^ 64 := ends.trans_lt (by decide)
  refine ⟨_, state.inode, ?_, find_written there state, ?_⟩
  · rw [writeCounted_cached found, loop, ok_bind]
  · rw [same.size, grown_size, Nat.mod_eq_of_lt small]
    rfl

/-- What a lookup finds of a cached path. -/
theorem contents_cached (env : Env) (found : cache.find path = some inode)
    : cache.contents env path
      = .ok (some ((inode.shape.fileState cache.heap).contents env)) := by
  have here : cache.inCache path = true := by simp [inCache, mem_of_find found]
  rw [BlockCache.contents, fileState, if_pos here, found]
  rfl

/-- A file that is created by a write has the size of the removed one. -/
theorem Shelving.writtenAgain (shelving : Shelving env names cache) (member : path ∈ names)
    {buf : Bytes} (some : buf ≠ []) (short : buf.length ≤ SIZE) (start : Nat)
    : ∃ final shown,
        Run (Steps env) cache (filled path buf start ++ BlockCache.writtenAgain path start) final
        ∧ final.contents env path = .ok (Option.some shown) ∧ shown.size = buf.length := by
  obtain ⟨last, run, stored⟩ := shelving.removed member some short start
  obtain ⟨inode, found, size⟩ := stored.found
  have bytes := List.length_pos_iff.mpr some
  have ends : [(0 : UInt8)].length + 0 ≤ lastEnd := by decide
  obtain ⟨final, after, wrote, there, grown⟩ := write_size found ends env (.at_ (start + 3))
  have one : [(0 : UInt8)].length + 0 = 1 := rfl
  refine ⟨final, _, .snoc run wrote, contents_cached env there, ?_⟩
  rw [size, one, max_eq_left bytes] at grown
  exact grown

/-- A file that is created empty has the block of the removed one once it is loaded. -/
theorem Shelving.madeAgain (shelving : Shelving env names cache) (member : path ∈ names)
    (valid : IsFilePath path) (some : buf ≠ []) (short : buf.length ≤ SIZE) {start : Nat}
    (older
      : Archived env (fun call => Stamped call.inode
        ∧ call.BlocksBefore env (Util.getTime (.at_ (start + 1)))) cache.disk)
    : ∃ final shown,
        Run (Steps env) cache (filled path buf start ++ BlockCache.madeAgain path start) final
        ∧ final.contents env path = .ok (Option.some shown) ∧ shown.blocks 0 = Option.some buf := by
  obtain ⟨last, run, stored⟩ := shelving.removed member some short start
  obtain ⟨inode, found, -⟩ := find_makeFile last env (.at_ (start + 3)) path 0o100644
  have created : Run (Steps env) cache
      (filled path buf start ++ [⟨.at_ (start + 2), .remove path, 0⟩]
        ++ [⟨.at_ (start + 3), .makeFile path 0o100644 true, 0⟩])
      (last.makeFile env (.at_ (start + 3)) path 0o100644 true) := .snoc run rfl
  have onFiles : ∀ event ∈ filled path buf start ++ [⟨.at_ (start + 2), .remove path, 0⟩]
      ++ [⟨.at_ (start + 3), .makeFile path 0o100644 true, 0⟩], event.op.onFiles = true
      ∧ event.op.paths = [path] := by
    simp [filled, Op.onFiles, Op.paths]
  have shelving := shelving.run created fun event happened =>
    plain_of_onFiles (onFiles event happened).1 (by simpa [(onFiles event happened).2] using member)
  have same := sameDisk_run created fun event happened => (onFiles event happened).1
  rw [← same.disk] at older
  have listed : ListsBlock env (last.makeFile env (.at_ (start + 3)) path 0o100644 true) path 0
      (Block.new buf buf.length) (Util.getTime (.at_ (start + 1))) := stored.listed
  obtain ⟨next, shown, flushed, loaded, bytes⟩ := shelving.reload found valid rfl listed older
  have small : (Block.new buf buf.length).actualSize ≤ SIZE := by
    rwa [Block.new_actualSize]
  rw [Block.copied_readBack env small, Block.copied_new env short] at bytes
  have flush : Steps env _ ⟨.at_ (start + 4), .flushToDisk, 0⟩ next := flushed
  have load : Steps env next ⟨.at_ (start + 5), .loadTrees newestFirst, 0⟩
      (next.loadTrees newestFirst) := rfl
  exact ⟨_, shown, .snoc (.snoc created flush) load, loaded, bytes⟩

theorem getTime_at (millisec : Nat) : Util.getTime (.at_ millisec) = millisec + 1 := by
  rw [Util.getTime, Clock.at_, Nat.mul_div_cancel _ (by decide)]

/-- The two runs differ in what the file is filled with. -/
theorem filled_sameBut (path one two : Bytes) {start : Nat}
    : List.Forall₂ (Event.SameBut path) (filled path one start) (filled path two start) :=
  .cons (.same (by simp)) (.cons .write .nil)

/-- Their calls come one after the other. -/
theorem filled_ascending {path : Bytes} (buf : Bytes) {early start : Nat} (later : early ≤ start)
    : Ascending early (filled path buf start ++ writtenAgain path start)
      ∧ Ascending early (filled path buf start ++ madeAgain path start) := by
  constructor
  · simp [Ascending, filled, writtenAgain, getTime_at]
    omega
  · simp [Ascending, filled, madeAgain, getTime_at]
    omega

theorem Shelving.not_forgets_writtenAgain (shelving : Shelving env names cache)
    (member : path ∈ names) (start : Nat)
    : ¬ Forgets env (Event.WritesTo path) start cache path := by
  intro forgets
  have one : [(0 : UInt8)].length ≤ SIZE := by decide
  have two : [(0 : UInt8), 0].length ≤ SIZE := by decide
  obtain ⟨final, shown, run, seen, size⟩ := shelving.writtenAgain member (by simp) one start
  obtain ⟨final', shown', run', seen', size'⟩ := shelving.writtenAgain member (by simp) two start
  have same := forgets _ _ _ final final' (filled_sameBut path [0] [0, 0])
    ⟨_, _, _, rfl, rfl, rfl, List.mem_singleton_self _, [0], 0, rfl, rfl⟩
    (filled_ascending [0] (le_refl start)).1 run run'
  rw [seen, seen', Except.ok.injEq, Option.some.injEq] at same
  rw [same, size'] at size
  cases size

theorem Shelving.not_forgets_madeAgain (shelving : Shelving env names cache)
    (member : path ∈ names) (valid : IsFilePath path) (start : Nat)
    : ¬ Forgets env (Event.MakesFile path) start cache path := by
  intro forgets
  have short (byte : UInt8) : [byte].length ≤ SIZE := by simp [SIZE]
  obtain ⟨bound, older⟩ := shelving.backed.disk.blocksBefore
  have later : Util.getTime (.at_ (max start bound + 1)) > bound := by
    rw [getTime_at]
    omega
  have older := older _ later
  obtain ⟨final, shown, run, seen, block⟩ :=
    shelving.madeAgain member valid (List.cons_ne_nil 1 []) (short 1) older
  obtain ⟨final', shown', run', seen', block'⟩ :=
    shelving.madeAgain member valid (List.cons_ne_nil 2 []) (short 2) older
  have same := forgets _ _ _ final final' (filled_sameBut path [1] [2])
    ⟨_, _, _, rfl, rfl, rfl, List.mem_cons_self .., _, _, rfl⟩
    (filled_ascending [1] (le_max_left start bound)).2 run run'
  rw [seen, seen', Except.ok.injEq, Option.some.injEq] at same
  rw [same, block'] at block
  simp at block

/-- From every state that calls and restarts reach, and for every file path, there are runs that
differ only in what the path contained before its removal and end with different contents, whether
it is created again by a write or by `make_file`.
-/
theorem never_forgets {turns : List Turn} {first : VisitOrder} {size : Nat}
    (run : Run (Turns env) (BlockCache.new [] first size) turns cache)
    (plain : ∀ event, Turn.call event ∈ turns → Plain names event.op)
    (apart : Set.InjOn (Util.cryptoHash env) names) (member : path ∈ names)
    (valid : IsFilePath path) (start : Nat)
    : ¬ Forgets env (Event.WritesTo path) start cache path
      ∧ ¬ Forgets env (Event.MakesFile path) start cache path := by
  have shelving := Shelving.turns run plain apart
  exact ⟨shelving.not_forgets_writtenAgain member start,
    shelving.not_forgets_madeAgain member valid start⟩

/-- The path `/a`. -/
theorem isFilePath_a : IsFilePath [47, 97] := ⟨[[97]], by decide, by decide, rfl⟩

/-- A run that creates a file. -/
theorem never_forgets_created
    : ¬ Forgets Util.twoDigests (Event.WritesTo [47, 97]) 2 withFile [47, 97]
      ∧ ¬ Forgets Util.twoDigests (Event.MakesFile [47, 97]) 2 withFile [47, 97] := by
  have run : Run (Turns Util.twoDigests) fresh
      [.call ⟨.at_ 1, .makeFile [47, 97] 0o100644 true, 0⟩] withFile :=
    .snoc .nil (show Steps _ _ _ _ from rfl)
  have plain : ∀ event, Turn.call event ∈ [.call ⟨.at_ 1, .makeFile [47, 97] 0o100644 true, 0⟩]
      → Plain {[47, 97]} event.op := by
    intro event member
    obtain rfl := Turn.call.inj (List.mem_singleton.mp member)
    exact plain_of_onFiles rfl (by simp [Op.paths])
  exact never_forgets run plain (Set.injOn_singleton _ _) rfl isFilePath_a 2

/-- A file of two bytes leaves its size to a file that is created by a write of one byte, and a file
of one byte leaves its block to one that is created empty.
-/
theorem deleted_data_seen
    : (∃ final shown,
        Run (Steps Util.twoDigests) fresh (filled [47, 97] [1, 2] 0 ++ writtenAgain [47, 97] 0)
          final
        ∧ final.contents Util.twoDigests [47, 97] = .ok (some shown) ∧ shown.size = 2)
      ∧ (∃ final shown,
        Run (Steps Util.twoDigests) fresh (filled [47, 97] [1] 0 ++ madeAgain [47, 97] 0) final
        ∧ final.contents Util.twoDigests [47, 97] = .ok (some shown) ∧ shown.blocks 0 = some [1])
      ∧ ¬ Forgets Util.twoDigests (Event.WritesTo [47, 97]) 0 fresh [47, 97]
      ∧ ¬ Forgets Util.twoDigests (Event.MakesFile [47, 97]) 0 fresh [47, 97] := by
  have empty {P : AddCall → Prop} : Archived Util.twoDigests P fresh.disk :=
    fun image member => absurd member List.not_mem_nil
  have shelving : Shelving Util.twoDigests {[47, 97]} fresh :=
    Shelving.restart empty (Set.injOn_singleton _ _) ⟨id, fun _ => .refl _⟩ 0
  exact ⟨shelving.writtenAgain rfl (by simp) (by decide) 0,
    shelving.madeAgain rfl isFilePath_a (by simp) (by decide) empty,
    shelving.not_forgets_writtenAgain rfl 0,
    shelving.not_forgets_madeAgain rfl isFilePath_a 0⟩

end BlockCache

end ZippyFS
