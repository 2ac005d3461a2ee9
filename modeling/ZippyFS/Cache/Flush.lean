import ZippyFS.Cache.Coherence
import ZippyFS.Index.TreeFile
import ZippyFS.Lib.Tables

/-! A flush is a sequence of `add_inode` calls, one for each entry of the cache index, on an
index whose regions are sized from the totals computed before. Links are filed under the hash
of their target, so two entries can lead to one inode.
-/

namespace ZippyFS

open CellMemory StructLayout Runs

open AddCall

/-- The writes of a call lie in the regions that were allocated for them. -/
structure Place.Inside (caps : Capacities) (place : Place) (call : AddCall)
    : Prop where
  path
    : caps.pathArr ≤ place.pathOf ∧ place.pathOf + call.inode.path.length ≤ caps.base
  key
    : caps.hashArr ≤ place.keyOf ∧ call.inode.inodeId.length ≤ HASH_SIZE
      ∧ place.keyOf + HASH_SIZE ≤ caps.pathArr
  record : 608 ≤ place.inodeOf ∧ place.inodeOf + inodeLayout.size ≤ caps.blockArr
  data : caps.blockArr ≤ place.dataOf ∧ place.dataOf + call.blockBytes ≤ caps.bdArr
  entries
    : caps.bdArr ≤ place.entryOf
      ∧ place.entryOf + blockDataLayout.size * call.dirtyBlocks.size ≤ caps.hashArr

/-- Calls that fit write into their regions. -/
theorem Capacities.Respected.inside {caps : Capacities} {before after : List AddCall}
    {call : AddCall} (fits : caps.Respected (before ++ call :: after))
    (short : call.inode.inodeId.length ≤ HASH_SIZE)
    : (placeAfter caps before).Inside caps call := by
  obtain ⟨entries, bytes, blocks, paths⟩ := fits
  simp only [List.length_append, List.length_cons, totalBytes, totalBlocks, totalPaths,
    List.map_append, List.map_cons, List.sum_append, List.sum_cons] at *
  have inodes : (before.length + 1) * inodeLayout.size ≤ caps.numEnts * inodeLayout.size :=
    Nat.mul_le_mul_right _ (by omega)
  have hashes : (before.length + 1) * HASH_SIZE ≤ caps.numEnts * HASH_SIZE :=
    Nat.mul_le_mul_right _ (by omega)
  have descriptors : ((before.map (·.dirtyBlocks.size)).sum + call.dirtyBlocks.size)
      * blockDataLayout.size ≤ caps.numBlocks * blockDataLayout.size :=
    Nat.mul_le_mul_right _ (by omega)
  rw [Nat.add_mul, Nat.one_mul] at inodes hashes
  rw [Nat.add_mul] at descriptors
  refine ⟨⟨?_, ?_⟩, ⟨?_, short, ?_⟩, ⟨?_, ?_⟩, ⟨?_, ?_⟩, ⟨?_, ?_⟩⟩ <;>
    simp only [placeAfter, Capacities.base, Capacities.pathArr, Capacities.hashArr,
      Capacities.bdArr, Capacities.blockArr, totalBytes, totalBlocks, totalPaths,
      Nat.mul_comm inodeLayout.size, Nat.mul_comm blockDataLayout.size] <;>
    omega

/-- Paths that stay in their region are no longer in total than it. -/
theorem totalPaths_le_of_inside {caps : Capacities} {calls : List AddCall}
    (inside
      : ∀ before call after, calls = before ++ call :: after
        → (placeAfter caps before).Inside caps call)
    : totalPaths calls ≤ caps.pathSize := by
  rcases List.eq_nil_or_concat calls with rfl | ⟨before, call, split⟩
  · exact Nat.zero_le _
  · rw [List.concat_eq_append] at split
    have upper := (inside before call [] split).path.2
    rw [split]
    simp only [placeAfter, Capacities.base, totalPaths, List.map_append, List.map_cons,
      List.map_nil, List.sum_append, List.sum_cons, List.sum_nil] at upper ⊢
    omega

namespace BlockCache

variable {env : Env} {now : Clock} {cache next : BlockCache} {path : Bytes} {result : Int}
  {inode : Inode} {names : Set Bytes}

-----------------------------------------------------------------------------------------
-- The calls
-----------------------------------------------------------------------------------------

/-- The totals that `flush_to_disk` computes first. -/
def capacities (cache : BlockCache) : Capacities where
  numEnts := cache.inodeIdx.size
  blocksize := ((cache.dirtyBlock.toList.flatMap (fun ent => ent.2.toList)).map
    (fun bl => (cache.heap bl.2).actualSize)).sum
  numBlocks := (cache.dirtyBlock.toList.flatMap (fun ent => ent.2.toList)).length
  pathSize := (cache.inodeIdx.toList.map (fun ent => ent.1.length)).sum

/-- The arguments of `add_inode` for an entry of the cache index. -/
def flushCall (cache : BlockCache) (ent : Bytes × Bytes) (inode : Inode) : AddCall where
  inode := inode
  dirtyBlocks := cache.dirtyBlocksOf ent.2
  blockMtime := cache.dirtyBlockMtime[ent.2]?.getD ∅

/-- The calls of `add_inode` that `flush_to_disk` makes. -/
def flushCalls (cache : BlockCache) : List AddCall :=
  cache.inodeIdx.toList.filterMap (fun ent => (cache.find ent.1).map (cache.flushCall ent))

/-- The paths that the inodes behind the cache index name as their own. -/
def ownPaths (cache : BlockCache) : List Bytes :=
  cache.inodeIdx.toList.filterMap (fun ent => (cache.find ent.1).map (·.path))

/-- The entries of the index lead to inodes filed under the ids of the entries. -/
theorem Pointed.entry (pointed : Pointed env names cache) {ent : Bytes × Bytes}
    (member : ent ∈ cache.inodeIdx.toList)
    : ∃ inode, cache.find ent.1 = some inode ∧ inode.inodeId = ent.2 ∧ inode.Named env
        ∧ inode.path ∈ names := by
  have known := Std.ExtTreeMap.mem_toList_iff_getElem?_eq_some.mp member
  obtain ⟨inode, found⟩ := pointed.found (Std.ExtTreeMap.isSome_getElem?_iff_mem.mp (by
    rw [known]; rfl))
  obtain ⟨filed, named⟩ := pointed.of_find found
  rw [known, Option.some.injEq] at filed
  exact ⟨inode, found, filed.symm, named⟩

/-- A loop that looks up each entry goes over what the entries lead to, by induction on them. -/
theorem foldlM_getInodeByPath {index : BPLUSIndex} {entries : List (Bytes × Bytes)}
    (found : ∀ ent ∈ entries, ∃ inode, cache.find ent.1 = some inode)
    : entries.foldlM
        (fun flusher ent => do
          let inode ← cache.getInodeByPath ent.1
          flusher.addInode env inode (cache.dirtyBlocksOf ent.2)
            (cache.dirtyBlockMtime[ent.2]?.getD ∅))
        index
      = (entries.filterMap (fun ent => (cache.find ent.1).map (cache.flushCall ent))).foldlM
        (fun index call => index.addInode env call.inode call.dirtyBlocks call.blockMtime)
        index := by
  induction entries generalizing index with
  | nil => rfl
  | cons ent rest ih =>
      obtain ⟨inode, here⟩ := found ent (List.mem_cons_self ..)
      have looked : cache.getInodeByPath ent.1 = .ok inode := getInodeByPath_eq_ok.mpr here
      simp only [List.foldlM_cons, List.filterMap_cons, here, Option.map_some, looked]
      apply bind_congr
      intro index
      exact ih (fun ent member => found ent (List.mem_cons_of_mem _ member))

/-- The loop of `flush_to_disk` makes these calls. -/
theorem Pointed.fill_eq (pointed : Pointed env names cache)
    : cache.fill env = addAll env cache.capacities cache.flushCalls := by
  unfold fill
  rw [foldlM_getInodeByPath (fun ent member =>
    (pointed.entry member).imp fun inode known => known.1)]
  rfl

/-- What the calls give to the index can be read off the entries, by induction on them. -/
theorem map_flushCalls {A : Type} {f : AddCall → A} {g : Bytes × Bytes → A}
    {entries : List (Bytes × Bytes)}
    (same
      : ∀ ent ∈ entries, ∃ inode, cache.find ent.1 = some inode
        ∧ f (cache.flushCall ent inode) = g ent)
    : (entries.filterMap (fun ent => (cache.find ent.1).map (cache.flushCall ent))).map f
      = entries.map g := by
  induction entries with
  | nil => rfl
  | cons ent rest ih =>
      obtain ⟨inode, here, equal⟩ := same ent (List.mem_cons_self ..)
      simp only [List.filterMap_cons, here, Option.map_some, List.map_cons, equal]
      rw [ih (fun ent member => same ent (List.mem_cons_of_mem _ member))]

/-- The ids of the calls are the ids in the cache index. -/
theorem Pointed.flushCalls_ids (pointed : Pointed env names cache)
    : cache.flushCalls.map (·.inode.inodeId) = cache.inodeIdx.toList.map Prod.snd :=
  map_flushCalls (fun _ member =>
    (pointed.entry member).imp fun _ known => ⟨known.1, known.2.1⟩)

theorem flushCalls_paths (cache : BlockCache)
    : cache.flushCalls.map (·.inode.path) = cache.ownPaths := by
  unfold flushCalls ownPaths
  rw [List.map_filterMap]
  congr 1
  funext ent
  cases cache.find ent.1 <;> rfl

/-- The ids are the hashes of the inodes' own paths. -/
theorem Pointed.flushCalls_hashes (pointed : Pointed env names cache)
    : cache.flushCalls.map (·.inode.inodeId)
      = cache.ownPaths.map (Util.cryptoHash env) := by
  rw [← flushCalls_paths, List.map_map]
  apply List.map_congr_left
  intro call member
  obtain ⟨ent, here, made⟩ := List.mem_filterMap.mp member
  obtain ⟨inode, found, _, named, _⟩ := pointed.entry here
  rw [found, Option.map_some, Option.some.injEq] at made
  rw [← made]
  exact named

-----------------------------------------------------------------------------------------
-- The totals
-----------------------------------------------------------------------------------------

/-- The blocks listed under an id keep their number and sizes when they are copied. -/
theorem dirtyBlocksOf_sizes (cache : BlockCache) (id : Bytes)
    : (cache.dirtyBlocksOf id).toList.map (fun entry => entry.2.actualSize)
      = (cache.dirtyBlock[id]?.getD ∅).toList.map (fun bl => (cache.heap bl.2).actualSize) := by
  rw [dirtyBlocksOf, Std.ExtTreeMap.toList_map, List.map_map]
  rfl

/-- With distinct ids, the calls write no more than was counted. -/
theorem Pointed.capacities_respected (pointed : Pointed env names cache)
    (distinct : (cache.flushCalls.map (·.inode.inodeId)).Nodup)
    (short : totalPaths cache.flushCalls ≤ cache.capacities.pathSize)
    : cache.capacities.Respected cache.flushCalls := by
  have ids := pointed.flushCalls_ids
  rw [ids] at distinct
  refine ⟨?_, ?_, ?_, short⟩
  · have count := congrArg List.length ids
    simp only [List.length_map, Std.ExtTreeMap.length_toList] at count
    exact count.le
  · have bytes := Tables.sum_lookups_le cache.dirtyBlock
      (fun blocks => (blocks.toList.map (fun bl => (cache.heap bl.2).actualSize)).sum) distinct
    have calls : cache.flushCalls.map blockBytes = cache.inodeIdx.toList.map (fun ent =>
        (cache.dirtyBlock[ent.2]?.map (fun blocks =>
          (blocks.toList.map (fun bl => (cache.heap bl.2).actualSize)).sum)).getD 0) := by
      apply map_flushCalls
      intro ent member
      obtain ⟨inode, found, _⟩ := pointed.entry member
      refine ⟨inode, found, ?_⟩
      simp only [blockBytes, flushCall, dirtyBlocksOf_sizes]
      cases cache.dirtyBlock[ent.2]? with
      | none => simp [Std.ExtTreeMap.toList_eq_nil_iff.mpr]
      | some blocks => rfl
    rw [totalBytes, calls]
    rw [List.map_map] at bytes
    refine bytes.trans (le_of_eq ?_)
    simp only [capacities, List.flatMap_def, List.map_flatten, List.sum_flatten, List.map_map,
      Function.comp_def]
  · have blocks := Tables.sum_lookups_le cache.dirtyBlock (·.size) distinct
    have calls : cache.flushCalls.map (·.dirtyBlocks.size) = cache.inodeIdx.toList.map (fun ent =>
        (cache.dirtyBlock[ent.2]?.map (·.size)).getD 0) := by
      apply map_flushCalls
      intro ent member
      obtain ⟨inode, found, _⟩ := pointed.entry member
      refine ⟨inode, found, ?_⟩
      have listed := congrArg List.length (dirtyBlocksOf_sizes cache ent.2)
      simp only [List.length_map, Std.ExtTreeMap.length_toList] at listed
      simp only [flushCall, listed]
      cases cache.dirtyBlock[ent.2]? with
      | none => simp
      | some blocks => rfl
    rw [totalBlocks, calls]
    rw [List.map_map] at blocks
    refine blocks.trans (le_of_eq ?_)
    simp only [capacities, List.length_flatMap, Std.ExtTreeMap.length_toList]

-----------------------------------------------------------------------------------------
-- Flushes stay within what was counted
-----------------------------------------------------------------------------------------

/-- The calls of a flush insert different ids and write into their regions only. -/
structure FlushFits (cache : BlockCache) : Prop where
  distinct : (cache.flushCalls.map (·.inode.inodeId)).Nodup
  inside
    : ∀ before call after, cache.flushCalls = before ++ call :: after
      → (placeAfter cache.capacities before).Inside cache.capacities call

/-- A flush fits if and only if the inodes to write have different paths of their own that are
in total no longer than the paths in the cache index.
-/
theorem Pointed.flushFits_iff_ownPaths (pointed : Pointed env names cache)
    (apart : Set.InjOn (Util.cryptoHash env) names)
    : cache.FlushFits
      ↔ cache.ownPaths.Nodup
        ∧ (cache.ownPaths.map List.length).sum ≤ cache.capacities.pathSize := by
  have hashes := pointed.flushCalls_hashes
  have total : (cache.ownPaths.map List.length).sum = totalPaths cache.flushCalls := by
    rw [← flushCalls_paths, List.map_map]
    rfl
  rw [total]
  constructor
  · rintro ⟨distinct, inside⟩
    rw [hashes] at distinct
    exact ⟨distinct.of_map, totalPaths_le_of_inside inside⟩
  · rintro ⟨different, short⟩
    have members : ∀ path ∈ cache.ownPaths, path ∈ names := by
      intro path member
      obtain ⟨ent, here, own⟩ := List.mem_filterMap.mp member
      obtain ⟨inode, found, _, _, known⟩ := pointed.entry here
      rw [found, Option.map_some, Option.some.injEq] at own
      rwa [← own]
    have distinct : (cache.flushCalls.map (·.inode.inodeId)).Nodup := by
      rw [hashes]
      exact different.map_on fun first one second two =>
        apart (members first one) (members second two)
    refine ⟨distinct, ?_⟩
    intro before call after split
    have fits := pointed.capacities_respected distinct short
    rw [split] at fits
    refine fits.inside ?_
    have member : call.inode.inodeId ∈ cache.flushCalls.map (·.inode.inodeId) :=
      List.mem_map.mpr ⟨call, by simp [split], rfl⟩
    rw [hashes, List.mem_map] at member
    obtain ⟨path, _, hash⟩ := member
    rw [← hash]
    exact (Util.cryptoHash_length env path).2.trans (by decide)

/-- Without links to other paths the inodes' own paths are the keys of the index. -/
theorem Coherent.ownPaths_eq (coherent : Coherent env names cache)
    : cache.ownPaths = cache.inodeIdx.toList.map Prod.fst := by
  rw [← flushCalls_paths]
  refine map_flushCalls ?_
  intro ent member
  obtain ⟨inode, found, _⟩ := coherent.pointed.entry member
  exact ⟨inode, found, coherent.own ent.1 inode found⟩

/-- Without links to other paths every flush fits. -/
theorem Coherent.flushFits (coherent : Coherent env names cache) : cache.FlushFits := by
  rw [coherent.pointed.flushFits_iff_ownPaths coherent.apart, coherent.ownPaths_eq]
  refine ⟨?_, ?_⟩
  · rw [Std.ExtTreeMap.map_fst_toList_eq_keys]
    exact Std.ExtTreeMap.nodup_keys
  · rw [List.map_map]
    exact le_refl _

/-- The file that a flush that fits leaves on disk. -/
def FlushFits.treeFile (fits : cache.FlushFits) (pointed : Pointed env names cache)
    (some : cache.inodeIdx ≠ ∅)
    : TreeFile env where
  caps := cache.capacities
  calls := cache.flushCalls
  made := by
    intro none
    have ids := pointed.flushCalls_ids
    rw [none, List.map_nil, eq_comm, List.map_eq_nil_iff, Std.ExtTreeMap.toList_eq_nil_iff] at ids
    exact some ids
  fits := pointed.capacities_respected fits.distinct (totalPaths_le_of_inside fits.inside)
  valid := by
    have hashed : ∀ call ∈ cache.flushCalls,
        ∃ path, call.inode.inodeId = Util.cryptoHash env path := by
      intro call member
      have there : call.inode.inodeId ∈ cache.flushCalls.map (·.inode.inodeId) :=
        List.mem_map_of_mem member
      rw [pointed.flushCalls_hashes, List.mem_map] at there
      obtain ⟨path, _, hash⟩ := there
      exact ⟨path, hash.symm⟩
    refine ⟨?_, ?_, fits.distinct⟩
    · intro call member
      obtain ⟨path, hash⟩ := hashed call member
      rw [hash]
      exact Nat.lt_succ_of_le (Util.cryptoHash_length env path).2
    · intro call member
      obtain ⟨path, hash⟩ := hashed call member
      rw [hash]
      exact Util.cryptoHash_clean env path

/-- A flush that fits returns, and leaves that file. -/
theorem FlushFits.fill_eq (fits : cache.FlushFits) (pointed : Pointed env names cache)
    (some : cache.inodeIdx ≠ ∅)
    : ∃ index, cache.fill env = .ok index ∧ index.image = (fits.treeFile pointed some).image := by
  obtain ⟨index, _, _, _, outcome, _⟩ := addAll_built env
    (fits.treeFile pointed some).made (fits.treeFile pointed some).fits
    (fits.treeFile pointed some).valid
  refine ⟨index, by rw [pointed.fill_eq]; exact outcome, ?_⟩
  rw [TreeFile.image, outcome]

/-- A flush of a changed cache returns what was filled. -/
theorem flushToDisk_eq {index : BPLUSIndex} (changed : cache.hasChanged = true)
    (filled : cache.fill env = .ok index)
    : cache.flushToDisk env = .ok (0, cache.flushed index) := by
  rw [flushToDisk, if_pos changed, filled]
  rfl

/-- A flush that fits does not fail. -/
theorem FlushFits.fill_ok (fits : cache.FlushFits) (pointed : Pointed env names cache)
    : ∃ index, cache.fill env = .ok index := by
  by_cases none : cache.inodeIdx = ∅
  · refine ⟨cache.capacities.index, ?_⟩
    have empty : cache.inodeIdx.toList = [] := Std.ExtTreeMap.toList_eq_nil_iff.mpr none
    rw [pointed.fill_eq, flushCalls, empty]
    rfl
  · obtain ⟨index, outcome, _⟩ := fits.fill_eq pointed none
    exact ⟨index, outcome⟩

/-- That file was made by a call for every cached path. -/
theorem FlushFits.treeFile_find (fits : cache.FlushFits) (pointed : Pointed env names cache)
    (nonempty : cache.inodeIdx ≠ ∅) (found : cache.find path = some inode)
    : (fits.treeFile pointed nonempty).find inode.inodeId
      = some (cache.flushCall (path, inode.inodeId) inode) := by
  have entry : (path, inode.inodeId) ∈ cache.inodeIdx.toList :=
    Std.ExtTreeMap.mem_toList_iff_getElem?_eq_some.mpr (pointed.of_find found).1
  have member : cache.flushCall (path, inode.inodeId) inode
      ∈ (fits.treeFile pointed nonempty).calls :=
    List.mem_filterMap.mpr ⟨_, entry, by rw [found]; rfl⟩
  exact ((fits.treeFile pointed nonempty).find_eq_some_iff inode.inodeId _).mpr ⟨member, rfl⟩

/-- The file that a flush left holds a record for every cached path. -/
theorem FlushFits.recordOf (fits : cache.FlushFits) (pointed : Pointed env names cache)
    (found : cache.find path = some inode) {index : BPLUSIndex}
    (filled : cache.fill env = .ok index)
    : ∃ place,
        BPLUSIndexLoader.findInTree index.image inode.inodeId = .ok (some (place.inodeOf : Int))
        ∧ RecordAt env index.image.mem place (cache.flushCall (path, inode.inodeId) inode) := by
  have here := mem_of_find found
  have some : cache.inodeIdx ≠ ∅ := by
    rintro none
    rw [none] at here
    exact Std.ExtTreeMap.not_mem_empty here
  obtain ⟨other, filled', image⟩ := fits.fill_eq pointed some
  obtain rfl := Except.ok.inj (filled.symm.trans filled')
  have stored := fits.treeFile_find pointed some found
  rw [image]
  rcases (fits.treeFile pointed some).search inode.inodeId with
    ⟨absent, _⟩ | ⟨call, place, present, search, record⟩
  · rw [stored] at absent
    cases absent
  · obtain rfl := Option.some.inj (stored.symm.trans present)
    exact ⟨place, search, record⟩

/-- After every run, a flush fits if and only if no two cached paths lead to inodes of one
path (as a link and its cached target do) and the inodes' own paths are in total no longer than
the cached paths. In particular it fits after every run that links no path to another.
-/
theorem flushFits_iff {disk : List Image} {order : VisitOrder} {size : Nat}
    {events : List Event} {cache : BlockCache}
    (run : Run (Steps env) (BlockCache.new disk order size) events cache)
    (inside : ∀ event ∈ events, ∀ path, event.op ≠ .getInodeByPath path)
    (apart : Set.InjOn (Util.cryptoHash env) (named events))
    : (cache.FlushFits
        ↔ cache.ownPaths.Nodup
          ∧ (cache.ownPaths.map List.length).sum
            ≤ (cache.inodeIdx.toList.map (fun ent => ent.1.length)).sum)
      ∧ ((∀ event ∈ events, ∀ from_ to_, event.op = .symlink from_ to_ → from_ = to_)
        → cache.FlushFits) := by
  have pointed := Pointed.run run inside
  refine ⟨pointed.flushFits_iff_ownPaths apart, ?_⟩
  intro unlinked
  have plain : ∀ event ∈ events, Plain (named events) event.op := fun event member =>
    ⟨inside event member, fun path here => ⟨event, member, here⟩, unlinked event member⟩
  exact (Coherent.run run plain apart).flushFits

/-- A cache with the files `/a` and `/b`, and one with the file `/a` and a link to it. -/
def fresh : BlockCache := BlockCache.new [] ⟨id, fun _ => .refl _⟩ 0
def withFile : BlockCache := fresh.makeFile Util.twoDigests (.at_ 1) [47, 97] 0o100644 true
def withFiles : BlockCache := withFile.makeFile Util.twoDigests (.at_ 2) [47, 98] 0o100644 true
def withLink : BlockCache := withFile.symlink Util.twoDigests (.at_ 2) [47, 97] [47, 98]

/-- The file `/a` can be removed. -/
theorem withFile_removed : ∃ next, withFile.remove (.at_ 2) [47, 97] = .ok (0, next) := by
  have there : (withFile.find [47, 97]).isSome = true := by decide +kernel
  obtain ⟨inode, found⟩ := Option.isSome_iff_exists.mp there
  obtain ⟨lowered, -, -, removes⟩ := remove_cached found (by decide +kernel) (.at_ 2)
  exact ⟨_, removes⟩

/-- A flush of the file `/a`. -/
theorem flush_withFile
    : ∃ index, withFile.flushToDisk Util.twoDigests = .ok (0, withFile.flushed index) := by
  have apart : Set.InjOn (Util.cryptoHash Util.twoDigests) {[47, 97]} :=
    Set.injOn_singleton _ _
  have coherent : Coherent Util.twoDigests {[47, 97]} withFile :=
    (Coherent.new [] ⟨id, fun _ => .refl _⟩ 0 apart).makeFile _ _ rfl
  obtain ⟨index, filled⟩ := coherent.flushFits.fill_ok coherent.pointed
  exact ⟨index, flushToDisk_eq rfl filled⟩

/-- A run that creates two files. -/
theorem flushFits_iff_two : withFiles.FlushFits := by
  have run : Run (Steps Util.twoDigests) fresh
      [⟨.at_ 1, .makeFile [47, 97] 0o100644 true, 0⟩,
        ⟨.at_ 2, .makeFile [47, 98] 0o100644 true, 0⟩]
      withFiles := .snoc (.snoc .nil rfl) rfl
  refine (flushFits_iff run (by simp) (twoDigests_apart.mono ?_)).2 (by simp)
  rintro path ⟨event, member, named⟩
  simp only [List.mem_cons, List.not_mem_nil, or_false] at member
  rcases member with rfl | rfl
  · exact Or.inl (List.mem_singleton.mp named)
  · exact Or.inr (List.mem_singleton.mp named)

/-- A link and its cached target are written under one id. -/
theorem flushFits_linked
    : Run (Steps Util.twoDigests) fresh
        [⟨.at_ 1, .makeFile [47, 97] 0o100644 true, 0⟩, ⟨.at_ 2, .symlink [47, 97] [47, 98], 0⟩]
        withLink
      ∧ ¬ withLink.FlushFits := by
  refine ⟨.snoc (.snoc .nil rfl) rfl, ?_⟩
  rintro ⟨distinct, _⟩
  have twice : ¬ (withLink.flushCalls.map (·.inode.inodeId)).Nodup := by decide +kernel
  exact twice distinct

end BlockCache

end ZippyFS
