import Mathlib.Data.Set.List
import ZippyFS.Cache.Attributes
import ZippyFS.Cache.EveryInode
import ZippyFS.Cache.Archive
import ZippyFS.Cache.Listing

/-! Listings compared with lookups. A listing takes the newest record of a path from all files on
disk and does not look into the cache. A lookup looks into the cache, and then asks the files that
were loaded before, of which the first one decides.
-/

namespace ZippyFS

open Runs NewestWins Outcomes

-----------------------------------------------------------------------------------------
-- Files that flushes write
-----------------------------------------------------------------------------------------

/-- A file as flushes write it: it has as many records as it has room for, with file paths and
modification times.
-/
structure FlushedFile (env : Env) extends TreeFile env where
  full : calls.length = caps.numEnts
  paths : ∀ call ∈ calls, IsFilePath call.inode.path
  stamped : ∀ call ∈ calls, BlockCache.Stamped call.inode

namespace FlushedFile

variable {env : Env}

/-- Its records end where a cursor of 32 bits can get to. -/
def Scannable (file : FlushedFile env) : Prop :=
  608 + file.calls.length * inodeLayout.size < 2 ^ 32

/-- The header tells where they end. -/
theorem scannable_iff (file : FlushedFile env)
    : file.Scannable
      ↔ file.image.header.inodeList + file.image.header.numInodes * inodeLayout.size < 2 ^ 32 := by
  obtain ⟨index, _, _, _, outcome, _⟩ := addAll_built env file.made file.fits file.valid
  have short : ∀ call ∈ file.calls, call.inode.inodeId.length ≤ HASH_SIZE :=
    fun call member => (file.valid.short call member).le
  obtain ⟨root, header⟩ := (addAll_laid file.made file.fits short outcome).header
  have image : file.image = index.image := by simp only [TreeFile.image, outcome]
  have is : file.image.header = ⟨file.caps.numEnts, 608, root⟩ := image ▸ header
  rw [is, Scannable, file.full]

/-- A file whose records can be scanned. -/
def filled (file : FlushedFile env) (scannable : file.Scannable) : FilledTree env :=
  .ofValid env file.caps file.made file.full file.fits file.valid (file.full ▸ scannable) file.paths

/-- A scan finds the entries of the records that lie in the directory. -/
theorem children (file : FlushedFile env) (scannable : file.Scannable) {dir : Bytes}
    (absolute : dir.head? = some 47)
    : file.image.children dir
      = (file.calls.map AddCall.entry).filter (fun entry => decide (InDirectory dir entry.path)) :=
  (file.filled scannable).children absolute

end FlushedFile

/-- All files were written by flushes. -/
def Shelved (env : Env) (images : List Image) : Prop :=
  ∀ image ∈ images, ∃ file : FlushedFile env, file.image = image

/-- The files behind the images. -/
theorem Shelved.files {env : Env} {images : List Image} (shelved : Shelved env images)
    : ∃ files : List (FlushedFile env), files.map (·.image) = images := by
  have all : images ∈ {images | ∀ image ∈ images,
      image ∈ Set.range (fun file : FlushedFile env => file.image)} := shelved
  rwa [← Set.range_list_map] at all

variable {env : Env} {cache next : BlockCache} {order : VisitOrder} {dir path : Bytes}
  {visited files : List (FlushedFile env)}

-----------------------------------------------------------------------------------------
-- What a listing shows
-----------------------------------------------------------------------------------------

/-- A file path that lies directly in an absolute directory. -/
structure IsChild (dir path : Bytes) : Prop where
  absolute : dir.head? = some 47
  inside : InDirectory dir path
  valid : IsFilePath path
  proper : basename path ≠ [46] ∧ basename path ≠ [46, 46]

/-- `zippyfs_readdir` passes the base name of the path to the filler. -/
def Listed (cache : BlockCache) (order : VisitOrder) (dir path : Bytes) : Prop :=
  ∃ names next, FuseOps.readdir cache order dir = .ok (names, next) ∧ basename path ∈ names

/-- The records of a path, in the order of the files. -/
def entriesOf (files : List (FlushedFile env)) (path : Bytes) : List IndexEntry :=
  (files.flatMap (fun file => file.calls.map AddCall.entry)).filter
    (fun entry => decide (entry.path = path))

/-- The newest record of the path, the last of several that are, is not a deletion. -/
def NewestAlive (files : List (FlushedFile env)) (path : Bytes) : Prop :=
  ∃ entry, scan (fun old new => old ≤ new) IndexEntry.mtime (entriesOf files path) = some entry
    ∧ entry.deleted = false

/-- The entries that are found in the files. -/
theorem getChildren_flushed (scannable : ∀ file ∈ files, file.Scannable)
    (absolute : dir.head? = some 47)
    : BPLUSIndexLoader.getChildren dir (files.map (·.image)) []
      = .ok ((files.flatMap (fun file => file.calls.map AddCall.entry)).filter
        (fun entry => decide (InDirectory dir entry.path))) := by
  have ends : ∀ image ∈ files.map (·.image),
      image.header.inodeList + image.header.numInodes * inodeLayout.size < 2 ^ 32 := by
    intro image member
    obtain ⟨file, inside, rfl⟩ := List.mem_map.mp member
    exact file.scannable_iff.mp (scannable file inside)
  rw [BPLUSIndexLoader.getChildren_eq dir ends, List.nil_append, List.flatMap_map,
    List.filter_flatMap]
  congr 1
  exact List.flatMap_congr fun file inside => file.children (scannable file inside) absolute

/-- Two paths of one directory with the same base name are the same path. -/
theorem IsChild.eq_of_basename {other : Bytes} (child : IsChild dir path)
    (inside : InDirectory dir other) (valid : IsFilePath other)
    (same : basename other = basename path)
    : other = path := by
  rw [(inside.path_eq valid).1, (child.inside.path_eq child.valid).1, same]

/-- A path is listed exactly if the newest of the records is not a deletion. -/
theorem listed_iff (child : IsChild dir path)
    (onDisk : visited.map (·.image) = order.visit cache.disk)
    : Listed cache order dir path
      ↔ (∀ file ∈ visited, file.Scannable) ∧ NewestAlive visited path := by
  by_cases scannable : ∀ file ∈ visited, file.Scannable
  · have children := getChildren_flushed scannable child.absolute
    rw [onDisk] at children
    have kept := BlockCache.addNames_getElem?
      ((visited.flatMap (fun file => file.calls.map AddCall.entry)).filter
        (fun entry => decide (InDirectory dir entry.path))) path
    have same : ((visited.flatMap (fun file => file.calls.map AddCall.entry)).filter
          (fun entry => decide (InDirectory dir entry.path))).filter
            (fun entry => decide (entry.path = path))
        = entriesOf visited path := by
      rw [List.filter_filter, entriesOf]
      refine List.filter_congr fun entry _ => ?_
      by_cases here : entry.path = path
      · simp [here, child.inside]
      · simp [here]
    rw [same] at kept
    rw [and_iff_right scannable, Listed, NewestAlive, FuseOps.readdir_eq children, ← kept]
    constructor
    · rintro ⟨names, next, outcome, member⟩
      obtain ⟨rfl, -⟩ := Prod.mk.inj (Except.ok.inj outcome)
      rcases List.mem_append.mp member with listed | dots
      · obtain ⟨⟨other, entry⟩, alive, name⟩ := List.mem_map.mp listed
        obtain ⟨there, alive⟩ := List.mem_filter.mp alive
        have found := Std.ExtTreeMap.mem_toList_iff_getElem?_eq_some.mp there
        obtain ⟨rfl, inside, -⟩ := BlockCache.addNames_newest found
        obtain ⟨stored, within⟩ := List.mem_filter.mp inside
        obtain ⟨file, among, made⟩ := List.mem_flatMap.mp stored
        obtain ⟨call, called, rfl⟩ := List.mem_map.mp made
        have equal := child.eq_of_basename (of_decide_eq_true within) (file.paths call called) name
        exact ⟨_, equal ▸ found, by simpa using alive⟩
      · rcases List.mem_cons.mp dots with one | two
        · exact absurd one child.proper.1
        · exact absurd (List.mem_singleton.mp two) child.proper.2
    · rintro ⟨entry, found, alive⟩
      refine ⟨_, _, rfl, List.mem_append_left _ (List.mem_map.mpr ⟨(path, entry), ?_, rfl⟩)⟩
      refine List.mem_filter.mpr ⟨?_, by simp [alive]⟩
      exact Std.ExtTreeMap.mem_toList_iff_getElem?_eq_some.mpr found
  · refine iff_of_false ?_ (fun both => scannable both.1)
    rintro ⟨names, next, outcome, -⟩
    rw [FuseOps.readdir] at outcome
    obtain ⟨listing, read, -⟩ := bind_eq_ok.mp outcome
    rw [BlockCache.readdir] at read
    obtain ⟨found, children, -⟩ := bind_eq_ok.mp read
    refine scannable fun file inside => file.scannable_iff.mpr ?_
    refine BPLUSIndexLoader.ends_of_getChildren children _ ?_
    have there : file.image ∈ visited.map (·.image) := List.mem_map_of_mem inside
    rwa [onDisk] at there

-----------------------------------------------------------------------------------------
-- What a lookup finds
-----------------------------------------------------------------------------------------

/-- `zippyfs_getattr` succeeds. -/
def Found (env : Env) (cache : BlockCache) (path : Bytes) : Prop :=
  ∃ stat, FuseOps.getattr env cache path = .ok (0, stat)

/-- The first of the files has a record of the path. -/
def HeldFirst (files : List (FlushedFile env)) (path : Bytes) : Prop :=
  ∃ file ∈ files.head?, ∃ call ∈ file.calls, call.inode.inodeId = Util.cryptoHash env path

/-- The path is cached, or the loader can read its files and the first one has a record of it. -/
def Shown (cache : BlockCache) (loaded : List (FlushedFile env)) (path : Bytes) : Prop :=
  path ∈ cache.inodeIdx ∨ cache.loader.mapped = true ∧ HeldFirst loaded path

/-- A lookup asks the first file only. -/
theorem firstHolds_flushed (files : List (FlushedFile env)) (named : path ≠ [])
    : FirstHolds env (files.map (·.image)) path ↔ HeldFirst files path := by
  have same : files.map (·.image) = (files.map (·.toTreeFile)).map (·.image) := by simp
  have stamped : ∀ file ∈ files.map (·.toTreeFile), ∀ call ∈ file.calls,
      0 < call.inode.ulMtime := by
    intro file member
    obtain ⟨flushed, _, rfl⟩ := List.mem_map.mp member
    exact flushed.stamped
  rw [same, firstHolds_iff named stamped]
  cases files with
  | nil => simp [visitedBy, BPLUSIndexLoader.visited, HeldFirst]
  | cons file rest =>
      rw [List.map_cons, visitedBy_cons, Option.isSome_iff_exists]
      simp only [TreeFile.find_eq_some_iff, HeldFirst, List.head?_cons, Option.mem_some_iff,
        exists_eq_left']

/-- A path is found exactly if it is cached or in the first file of a loader that can read it. -/
theorem found_iff {names : Set Bytes} (pointed : BlockCache.Pointed env names cache)
    (valid : IsFilePath path) (loaded : files.map (·.image) = cache.loader.fileToMem)
    : Found env cache path ↔ Shown cache files path := by
  obtain ⟨named, root⟩ := valid.proper
  rw [Found, FuseOps.getattr, if_neg valid.one_lt_length.ne', Shown]
  by_cases here : path ∈ cache.inodeIdx
  · obtain ⟨inode, found⟩ := pointed.found here
    exact iff_of_true ⟨_, BlockCache.getattr_cached found⟩ (Or.inl here)
  · have archived : Archived env (fun call => BlockCache.Stamped call.inode)
        cache.loader.fileToMem := by
      intro image member
      rw [← loaded] at member
      obtain ⟨file, _, rfl⟩ := List.mem_map.mp member
      exact ⟨file.toTreeFile, rfl, file.stamped⟩
    rw [or_iff_right here, ← firstHolds_flushed files named, loaded]
    by_cases readable : cache.loader.fileToMem = [] ∨ cache.loader.mapped = true
    · obtain ⟨shown, hidden⟩ :=
        archived.getattr_uncached (fun _ stamped => stamped) readable root here
      constructor
      · rintro ⟨stat, seen⟩
        have first : FirstHolds env cache.loader.fileToMem path := by
          by_contra none
          have code := (Prod.mk.inj (Except.ok.inj ((hidden none).symm.trans seen))).1
          cases code
        obtain ⟨image, rest, _, some, _⟩ := id first
        exact ⟨readable.resolve_left (by simp [some]), first⟩
      · exact fun first => shown first.2
    · obtain ⟨some, unmapped⟩ := not_or.mp readable
      refine iff_of_false ?_ (fun first => unmapped first.1)
      rintro ⟨stat, seen⟩
      have outside : cache.inCache path = false := by simp [BlockCache.inCache, here, root]
      rw [BlockCache.getattr, if_neg (by simp [outside]), Loader.findLatestInode,
        if_pos ⟨named, by simpa using some, by simpa using unmapped⟩] at seen
      cases seen

-----------------------------------------------------------------------------------------
-- Every run
-----------------------------------------------------------------------------------------

namespace BlockCache

variable {names : Set Bytes} {now : Clock} {op : Op} {result : Int}

/-- What is known along a run: all files were written by flushes. -/
structure Filed (env : Env) (names : Set Bytes) (cache : BlockCache) : Prop where
  coherent : Coherent env names cache
  stamped : EveryInode Stamped cache
  disk : Shelved env cache.disk
  loader : Shelved env cache.loader.fileToMem

/-- A new process over such files. -/
theorem Filed.restart {disk : List Image} (shelved : Shelved env disk)
    (apart : Set.InjOn (Util.cryptoHash env) names) (order : VisitOrder) (size : Nat)
    : Filed env names (BlockCache.new disk order size) where
  coherent := Coherent.new disk order size apart
  stamped := EveryInode.new disk order size
  disk := shelved
  loader := fun image member => shelved image ((order.perm disk).mem_iff.mp member)

/-- A flush of coherent inodes writes such a file. -/
theorem Filed.flushedFile (filed : Filed env names cache) (valid : ∀ path ∈ names, IsFilePath path)
    (some : cache.inodeIdx ≠ ∅)
    : ∃ file : FlushedFile env,
        file.toTreeFile = filed.coherent.flushFits.treeFile filed.coherent.pointed some := by
  have coherent := filed.coherent
  have full : cache.flushCalls.length = cache.inodeIdx.size := by
    have ids := congrArg List.length coherent.pointed.flushCalls_ids
    rwa [List.length_map, List.length_map, Std.ExtTreeMap.length_toList] at ids
  refine ⟨⟨_, full, ?_, ?_⟩, rfl⟩
  · refine coherent.flushFits.treeFile_calls coherent.pointed some fun path inode found => ?_
    exact valid _ (coherent.pointed.of_find found).2.2
  · refine coherent.flushFits.treeFile_calls coherent.pointed some fun path inode found => ?_
    exact filed.stamped.of_find found

theorem Filed.effect (filed : Filed env names cache) (valid : ∀ path ∈ names, IsFilePath path)
    (plain : Plain names op) (effect : Effect env now cache op result next)
    : Filed env names next := by
  have coherent := filed.coherent.effect plain effect
  have stamped := filed.stamped.effect (stamped_lasts env) (stamped_loads env _) effect
  rcases effect.disk with same | ⟨-, flushed⟩ | ⟨order, rfl⟩
  · exact ⟨coherent, stamped, same.disk ▸ filed.disk, same.loader ▸ filed.loader⟩
  · obtain ⟨loader, disk⟩ := flushed.added filed.coherent.pointed
      (fun _ => filed.coherent.flushFits)
    refine ⟨coherent, stamped, ?_, loader ▸ filed.loader⟩
    rcases disk with same | ⟨_, some, added⟩
    · exact same ▸ filed.disk
    · rw [added]
      intro image member
      rcases List.mem_append.mp member with old | new
      · exact filed.disk image old
      · obtain ⟨file, made⟩ := filed.flushedFile valid some
        exact ⟨file, by rw [List.mem_singleton.mp new, made]⟩
  · exact ⟨coherent, stamped, filed.disk, fun image member =>
      filed.disk image ((order.perm cache.disk).mem_iff.mp member)⟩

/-- After every run all files were written by flushes. -/
theorem Filed.run {turns : List Turn} {first : VisitOrder} {size : Nat}
    (run : Run (Turns env) (BlockCache.new [] first size) turns cache)
    (plain : ∀ event, Turn.call event ∈ turns → Plain names event.op)
    (valid : ∀ path ∈ names, IsFilePath path) (apart : Set.InjOn (Util.cryptoHash env) names)
    : Filed env names cache := by
  refine run.recorded.state_invariant (Filed.restart (by simp [Shelved]) apart first size) ?_
  rintro state turn next filed ⟨member, taken⟩
  cases turn with
  | call event => exact filed.effect valid (plain event member) (step_effect taken)
  | restart order size =>
      rw [show next = BlockCache.new state.disk order size from taken]
      exact .restart filed.disk apart order size

/-- After every run of calls and restarts, over the files that the listing visits and the files
that were loaded before: a listing and a lookup agree on a path if and only if it is cached, or
in the first file that was loaded, exactly when the records can be scanned and the newest one of
the path is not a deletion.
-/
theorem listed_iff_found_iff {turns : List Turn} {first : VisitOrder} {size : Nat}
    (run : Run (Turns env) (BlockCache.new [] first size) turns cache)
    (plain : ∀ event, Turn.call event ∈ turns → Plain (namedIn turns) event.op)
    (valid : ∀ path ∈ namedIn turns, IsFilePath path)
    (apart : Set.InjOn (Util.cryptoHash env) (namedIn turns)) (child : IsChild dir path)
    (order : VisitOrder)
    : ∃ visited loaded : List (FlushedFile env),
        visited.map (·.image) = order.visit cache.disk
        ∧ loaded.map (·.image) = cache.loader.fileToMem
        ∧ ((Listed cache order dir path ↔ Found env cache path)
          ↔ (Shown cache loaded path
            ↔ (∀ file ∈ visited, file.Scannable) ∧ NewestAlive visited path)) := by
  have filed := Filed.run run plain valid apart
  have shelved : Shelved env (order.visit cache.disk) := fun image member =>
    filed.disk image ((order.perm cache.disk).mem_iff.mp member)
  obtain ⟨visited, onDisk⟩ := shelved.files
  obtain ⟨loaded, known⟩ := filed.loader.files
  refine ⟨visited, loaded, onDisk, known, ?_⟩
  rw [listed_iff child onDisk, found_iff filed.coherent.pointed child.valid known]
  exact iff_comm

/-- The path `/a` in the root. -/
theorem isChild_root : IsChild [47] [47, 97] where
  absolute := rfl
  inside := by decide
  valid := ⟨[[97]], by decide, by decide, rfl⟩
  proper := by decide

theorem run_withFile
    : Run (Turns Util.twoDigests) fresh
        [.call ⟨.at_ 1, .makeFile [47, 97] 0o100644 true, 0⟩] withFile :=
  .snoc .nil (show Steps _ _ _ _ from rfl)

/-- A run that creates a file. -/
theorem listed_iff_found_iff_created
    : ∃ visited loaded : List (FlushedFile Util.twoDigests),
        visited.map (·.image) = withFile.disk
        ∧ loaded.map (·.image) = withFile.loader.fileToMem
        ∧ ((Listed withFile ⟨id, .refl⟩ [47] [47, 97] ↔ Found Util.twoDigests withFile [47, 97])
          ↔ (Shown withFile loaded [47, 97]
            ↔ (∀ file ∈ visited, file.Scannable) ∧ NewestAlive visited [47, 97])) := by
  have only {path : Bytes}
      (member : path ∈ namedIn [.call ⟨.at_ 1, .makeFile [47, 97] 0o100644 true, 0⟩])
      : path = [47, 97] := by
    obtain ⟨turn, made, named⟩ := member
    rw [List.mem_singleton.mp made] at named
    exact List.mem_singleton.mp named
  refine listed_iff_found_iff run_withFile ?_ ?_ ?_ isChild_root ⟨id, .refl⟩
  · intro event member
    obtain rfl := Turn.call.inj (List.mem_singleton.mp member)
    refine ⟨by simp, fun path named => ?_, by simp⟩
    exact ⟨_, List.mem_singleton_self _, named⟩
  · intro path member
    rw [only member]
    exact isChild_root.valid
  · intro one first two second _
    rw [only first, only second]

/-- After the file was created it is found but not listed. -/
theorem found_unlisted
    : Run (Turns Util.twoDigests) fresh
        [.call ⟨.at_ 1, .makeFile [47, 97] 0o100644 true, 0⟩] withFile
      ∧ IsChild [47] [47, 97]
      ∧ ¬ (Listed withFile ⟨id, .refl⟩ [47] [47, 97]
        ↔ Found Util.twoDigests withFile [47, 97]) := by
  refine ⟨run_withFile, isChild_root, fun agree => ?_⟩
  obtain ⟨inode, found, -⟩ := find_withFile
  have seen : withFile.getattr Util.twoDigests [47, 97] = .ok (0, some inode.stat) :=
    getattr_cached found
  have none : ([] : List (FlushedFile Util.twoDigests)).map (·.image) = withFile.disk := rfl
  obtain ⟨-, entry, newest, -⟩ := (listed_iff isChild_root none).mp (agree.mpr ⟨_, seen⟩)
  cases newest

end BlockCache

end ZippyFS
