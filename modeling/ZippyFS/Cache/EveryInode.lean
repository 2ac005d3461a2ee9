import ZippyFS.Cache.Ownership
import ZippyFS.Cache.Loading

/-! Properties of all cached inodes. A property that no change of an inode breaks holds of all of
them after every call.
-/

namespace ZippyFS

/-- No change that operations make to an inode breaks the property. -/
structure Inode.Lasts (env : Env) (Q : Inode → Prop) : Prop where
  created
    : ∀ (now : Clock) (path : Bytes) (mode : UInt32), Q ((Inode.new env now path).setMode now mode)
  copied
    : ∀ (now : Clock) (path : Bytes) (inode : Inode), Q inode → Q (Inode.copyOf env now path inode)
  marked : ∀ inode : Inode, Q inode → Q inode.setDirty
  remade : ∀ inode : Inode, Q inode → Q inode.remakeInode
  resized : ∀ (now : Clock) (inode : Inode) (size : Nat), Q inode → Q (inode.setSize now size)
  unlinked
    : ∀ (inode : Inode) (path : Bytes), path ∈ inode.links → Q inode → Q (inode.decLink path)
  emptied : ∀ (now : Clock) (inode : Inode), Q inode → Q (inode.deleteInode now)
  touched : ∀ (now : Clock) (inode : Inode), Q inode → Q (inode.touch now)
  filled
    : ∀ (now : Clock) (inode : Inode) (blockIdx : Nat) (ref : BlockRef), Q inode
      → Q (inode.addBlock now blockIdx ref)

namespace BlockCache

variable {env : Env} {Q : Inode → Prop} {now : Clock} {cache next : BlockCache} {path : Bytes}
  {inode : Inode} {result : Int}

/-- All inodes behind the pointers have the property. -/
def EveryInode (Q : Inode → Prop) (cache : BlockCache) : Prop :=
  ∀ id inode, cache.ptr id = some inode → Q inode

/-- So has every inode that is loaded. -/
def Loads (env : Env) (Q : Inode → Prop) (loader : Loader) : Prop :=
  ∀ now path alloc di, loader.findLatestInode env path true = .ok di → di.mtime ≠ 0
    → Q (loadedInode env now path alloc di).undoDirty

/-- In particular the inode of every cached path. -/
theorem EveryInode.of_find (every : EveryInode Q cache) (found : cache.find path = some inode)
    : Q inode :=
  every _ inode (ptr_of_find found)

/-- A new cache has no inodes. -/
theorem EveryInode.new (disk : List Image) (order : VisitOrder) (size : Nat)
    : EveryInode Q (BlockCache.new disk order size) := by
  intro id inode known
  simp [ptr, BlockCache.new] at known

/-- Only the table of pointers counts. -/
theorem EveryInode.congr (every : EveryInode Q cache) (ptrs : next.inodePtrs = cache.inodePtrs)
    : EveryInode Q next := by
  intro id inode known
  rw [ptr, ptrs] at known
  exact every id inode known

/-- An inode with the property may be filed under any path. -/
theorem EveryInode.put (every : EveryInode Q cache) (path : Bytes) (holds : Q inode)
    : EveryInode Q (cache.put path inode) := by
  intro id found known
  rw [ptr_put] at known
  split at known
  · rwa [← Option.some.inj known]
  · exact every id found known

/-- It may also take the place of the inode of a path. -/
theorem EveryInode.set (every : EveryInode Q cache) (path : Bytes) (holds : Q inode)
    : EveryInode Q (cache.set path inode) := by
  intro id found known
  rw [ptr_set] at known
  split at known
  · rwa [← Option.some.inj known]
  · exact every id found known

/-- A link is only taken off inodes that have it. -/
theorem EveryInode.decLinks (every : EveryInode Q cache) (lasts : Inode.Lasts env Q)
    (path : Bytes)
    : EveryInode Q (cache.decLinks path) := by
  intro id found known
  rw [ptr_decLinks, Option.map_eq_some_iff] at known
  obtain ⟨inode, there, rfl⟩ := known
  split
  case isTrue linked => exact lasts.unlinked inode path linked (every id inode there)
  case isFalse => exact every id inode there

/-- What is loaded has the property by assumption. -/
theorem EveryInode.loaded (every : EveryInode Q cache) (loads : Loads env Q cache.loader)
    {di : DiskInodeInfo} (now : Clock)
    (lookup : cache.loader.findLatestInode env path true = .ok di) (some : di.mtime ≠ 0)
    : EveryInode Q (cache.loaded env now path di) := by
  have allocated : EveryInode Q (cache.withBlocks di) := every.congr rfl
  exact allocated.put path (loads now path cache.allocs di lookup some)

theorem EveryInode.ensured (every : EveryInode Q cache) (loads : Loads env Q cache.loader)
    (ensured : Ensured env now cache path result next)
    : EveryInode Q next := by
  cases ensured with
  | cached here => exact every
  | absent away lookup none => exact every
  | loaded away lookup some => exact every.loaded loads now lookup some

/-- A created file starts with a new inode, marked or not. -/
theorem EveryInode.makeFile (every : EveryInode Q cache) (lasts : Inode.Lasts env Q)
    (path : Bytes) (mode : UInt32) (dirty : Bool)
    : EveryInode Q (cache.makeFile env now path mode dirty) := by
  have created := lasts.created now path mode
  cases dirty with
  | true => exact (every.put path (lasts.marked _ created)).congr rfl
  | false => exact (every.put path created).congr rfl

/-- A rename empties the source and copies it to the target. -/
theorem EveryInode.moved {from_ to_ : Bytes} (every : EveryInode Q cache)
    (lasts : Inode.Lasts env Q) (found : cache.find from_ = some inode)
    : EveryInode Q (cache.moved env now from_ to_ inode) := by
  have holds := every.of_find found
  have emptied := every.set from_ (lasts.emptied now inode holds)
  exact (emptied.put to_ (lasts.copied now to_ inode holds)).congr rfl

theorem EveryInode.ready (every : EveryInode Q cache) (lasts : Inode.Lasts env Q)
    (loads : Loads env Q cache.loader) (ready : Ready env now cache path next inode)
    : EveryInode Q next := by
  cases ready with
  | cached here found =>
      have holds := every.of_find found
      exact every.set path (lasts.remade _ (lasts.marked _ holds))
  | loaded away lookup some => exact every.loaded loads now lookup some

/-- The block loop of a write keeps the property. -/
theorem runLoop_lasts {buf : Bytes} {offset : Nat} {state : Writing} (lasts : Inode.Lasts env Q)
    (holds : Q inode) (loop : cache.runLoop now path buf offset inode = .ok state)
    : Q state.inode := by
  refine writeLoop_invariant (P := fun state => Q state.inode) ?_ loop ?_
  · intro blockIdx currIdx blockSize offsetAmt state holds
    unfold writeBlock
    split
    · exact lasts.touched now _ holds
    · exact lasts.filled now _ blockIdx _ holds
  · unfold grown
    split
    · exact lasts.resized now _ _ holds
    · exact holds

/-- A flush drops all inodes. -/
theorem EveryInode.flushed (every : EveryInode Q cache) (flush : Flushed env cache result next)
    : EveryInode Q next := by
  cases flush with
  | nothing unchanged => exact every
  | flushed changed filled =>
      intro id inode known
      simp [ptr, BlockCache.flushed] at known

/-- Every call keeps a lasting property of all inodes. -/
theorem EveryInode.effect {op : Op} (every : EveryInode Q cache) (lasts : Inode.Lasts env Q)
    (loads : Loads env Q cache.loader) (effect : Effect env now cache op result next)
    : EveryInode Q next := by
  cases effect with
  | makeFile path mode dirty => exact every.makeFile lasts path mode dirty
  | writeMissing missing => exact every
  | @write path buf offset middle inode state ready loop =>
      have middle := every.ready lasts loads ready
      exact (middle.set path (runLoop_lasts lasts (middle.of_find ready.found) loop)).congr rfl
  | truncateMissing away => exact every
  | @truncate path size inode here found =>
      exact (every.set path (lasts.resized now inode size (every.of_find found))).congr rfl
  | removeMissing away => exact every
  | @remove path inode here noNulls found =>
      have fewer := every.decLinks lasts path
      exact (fewer.set path (lasts.emptied now inode (fewer.of_find found))).congr rfl
  | rmdirMissing away => exact every
  | @rmdir path inode here found =>
      exact (every.set path (lasts.emptied now inode (every.of_find found))).congr rfl
  | renameMissing missing => exact every
  | renameOver ensured target found =>
      have first := every.ensured loads ensured
      exact (first.ensured (ensured.loader ▸ loads) target).moved lasts found
  | renameNew ensured target was found =>
      exact ((every.ensured loads ensured).makeFile lasts _ _ _).moved lasts found
  | symlink from_ to_ => exact (every.put to_ (lasts.created now from_ _)).congr rfl
  | open_ ensured => exact every.ensured loads ensured
  | read ensured found bytes => exact every.ensured loads ensured
  | readlink outcome => exact every
  | getattr outcome => exact every
  | getRefs outcome => exact every
  | inCache path => exact every
  | loadFromDisk loaded =>
      cases loaded with
      | absent lookup none => exact every
      | kept here found lookup some newer => exact every.congr rfl
      | replaced here found lookup some older => exact every.loaded loads now lookup some
      | loaded away lookup some => exact every.loaded loads now lookup some
  | getInodeByPath path =>
      exact fun id inode known => every id inode ((ptr_indexed cache path id).symm.trans known)
  | flushToDisk flushed => exact every.flushed flushed
  | flushToShdwKept small => exact every
  | flushToShdw flushed => exact every.flushed flushed
  | loadTrees order => exact every.congr rfl
  | readdir order path => exact every.congr rfl

-----------------------------------------------------------------------------------------
-- Stamps
-----------------------------------------------------------------------------------------

/-- The inode has a modification time. -/
def Stamped (inode : Inode) : Prop := 0 < inode.ulMtime

/-- Every change stamps an inode or leaves the stamp it has. -/
theorem stamped_lasts (env : Env) : Inode.Lasts env Stamped where
  created := fun now _ _ => Util.getTime_pos now
  copied := fun now _ _ _ => Util.getTime_pos now
  marked := fun _ stamped => stamped
  remade := fun _ stamped => stamped
  resized := fun now _ _ _ => Util.getTime_pos now
  unlinked := fun _ _ _ stamped => stamped
  emptied := fun now _ _ => Util.getTime_pos now
  touched := fun now _ _ => Util.getTime_pos now
  filled := fun now _ _ _ _ => Util.getTime_pos now

/-- What is found on disk has a time, and what is loaded of it has that or the time of loading. -/
theorem stamped_loads (env : Env) (loader : Loader) : Loads env Stamped loader := by
  intro now path alloc di lookup some
  obtain ⟨-, -, -, mtime⟩ := loadedInode_stamps env now path alloc di
  change 0 < (loadedInode env now path alloc di).ulMtime
  rw [mtime]
  split
  · exact Nat.pos_of_ne_zero some
  · exact Util.getTime_pos now

-----------------------------------------------------------------------------------------
-- Deletions
-----------------------------------------------------------------------------------------

/-- A deleted inode has no links. -/
def Unlinked (inode : Inode) : Prop :=
  inode.deleted = true → inode.nlink = 0 ∧ inode.links = ∅

/-- A deletion takes all links, and none can be taken off after that. -/
theorem unlinked_lasts (env : Env) : Inode.Lasts env Unlinked where
  created := fun _ _ _ gone => absurd gone Bool.false_ne_true
  copied := fun _ _ _ _ gone => absurd gone Bool.false_ne_true
  marked := fun _ unlinked => unlinked
  remade := fun _ _ gone => absurd gone Bool.false_ne_true
  resized := fun _ _ _ unlinked => unlinked
  unlinked := by
    intro inode path linked unlinked gone
    rw [(unlinked gone).2] at linked
    exact absurd linked (Finset.notMem_empty path)
  emptied := fun _ _ _ _ => ⟨rfl, rfl⟩
  touched := fun _ _ unlinked => unlinked
  filled := fun _ _ _ _ unlinked => unlinked

/-- A deletion that is found on disk takes the links of the inode that is loaded. -/
theorem unlinked_loads (env : Env) (loader : Loader) : Loads env Unlinked loader := by
  intro now path alloc di _ _ gone
  have deleted : di.deleted = true :=
    (loadedInode_shape env now path alloc di).2.2.1.symm.trans gone
  have nlink := (loadedInode_stamps env now path alloc di).2.1
  have links := loadedInode_links env now path alloc di
  rw [if_pos deleted] at nlink links
  exact ⟨nlink, links⟩

end BlockCache

end ZippyFS
