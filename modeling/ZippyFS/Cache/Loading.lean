import ZippyFS.Cache.Flush
import ZippyFS.Cache.Transparency

/-! How exactly a path is loaded. The setters that rebuild an inode stamp it with the time of the
call, and not all of them come before the time found on disk is set.
-/

namespace ZippyFS

open Runs

/-- An inode that is what was found on disk. -/
structure Inode.Mirrors (heap : BlockRef → Block) (inode : Inode) (di : DiskInodeInfo)
    : Prop where
  id : inode.inodeId = di.inodeId
  mode : inode.mode = di.mode
  nlink : inode.nlink = di.nlink
  size : inode.size = di.size
  mtime : inode.ulMtime = di.mtime
  ctime : inode.ulCtime = di.ctime
  deleted : inode.deleted = di.deleted
  blocks : ∀ blockIdx : Nat, inode.blocks[blockIdx]?.map heap = di.blockData[blockIdx]?
  clean : inode.dirty = false

/-- No setter that stamps the inode comes after its times are set, or it stamps the same time;
and no link count is lost.
-/
structure DiskInodeInfo.Undisturbed (now : Clock) (di : DiskInodeInfo) : Prop where
  unlinked : di.deleted = false ∨ di.nlink = 0
  unstamped : (di.deleted = false ∧ di.blockData.isEmpty) ∨ Util.getTime now = di.mtime

namespace BlockCache

variable {env : Env} {now : Clock} {cache next : BlockCache} {path : Bytes} {di : DiskInodeInfo}

/-- A flush that fits writes a record of this time for the path. -/
def FlushesAs (env : Env) (cache : BlockCache) (path : Bytes) (mtime : Nat) : Prop :=
  ∀ names, Pointed env names cache → cache.FlushFits → ∀ index, cache.fill env = .ok index
    → ∃ inodeoff,
      BPLUSIndexLoader.findInTree index.image (Util.cryptoHash env path) = .ok (some inodeoff)
      ∧ (index.image.inode inodeoff.toNat).mtime = mtime

/-- What a flush writes for a path has the time of its inode. -/
theorem flushesAs (inode : Inode) (found : cache.find path = some inode)
    (own : inode.path = path)
    : FlushesAs env cache path inode.ulMtime := by
  intro names pointed fits index filled
  obtain ⟨place, search, record⟩ := fits.recordOf pointed found filled
  have named : inode.inodeId = Util.cryptoHash env path := own ▸ (pointed.of_find found).2.1
  refine ⟨place.inodeOf, named ▸ search, ?_⟩
  rw [Int.toNat_natCast]
  exact record.mtime

/-- The blocks stamp a loaded inode, and so does a deletion, which takes the links too. -/
theorem loadedInode_stamps (env : Env) (now : Clock) (path : Bytes) (alloc : Nat)
    (di : DiskInodeInfo)
    : (loadedInode env now path alloc di).path = path
      ∧ (loadedInode env now path alloc di).nlink = (if di.deleted then 0 else di.nlink)
      ∧ (loadedInode env now path alloc di).ulCtime = di.ctime
      ∧ (loadedInode env now path alloc di).ulMtime
        = if di.deleted = false ∧ di.blockData.isEmpty then di.mtime else Util.getTime now := by
  have kept {A : Type} (member : Inode → A)
      (keeps
        : ∀ (inode : Inode) (blockIdx : Nat) (ref : BlockRef),
          member (inode.addBlock now blockIdx ref) = member inode)
      (inode : Inode) :=
    Inode.foldl_addBlock_keeps member now keeps di.blockData.toList alloc inode
  have stamped (blocks : List (Nat × Block)) (inode : Inode)
      : (blocks.foldl (fun inode blk => inode.addBlock now blk.1 (alloc, blk.1)) inode).ulMtime
        = if blocks.isEmpty then inode.ulMtime else Util.getTime now := by
    induction blocks generalizing inode with
    | nil => rfl
    | cons head rest ih =>
        refine (ih (inode.addBlock now head.1 (alloc, head.1))).trans ?_
        split <;> rfl
  unfold loadedInode
  dsimp only
  rw [kept Inode.path (fun _ _ _ => rfl), kept Inode.nlink (fun _ _ _ => rfl),
    kept Inode.ulCtime (fun _ _ _ => rfl), stamped, Std.ExtTreeMap.isEmpty_toList]
  cases di.deleted with
  | false =>
      refine ⟨rfl, rfl, rfl, ?_⟩
      simp only [true_and]
      rfl
  | true =>
      refine ⟨rfl, rfl, rfl, ?_⟩
      simp only [Bool.true_eq_false, false_and, if_false]
      split <;> rfl

/-- The inode that is loaded is what was found exactly if no setter disturbs it. -/
theorem loadedInode_mirrors_iff
    : (loadedInode env now path cache.allocs di).undoDirty.Mirrors
        (cache.loaded env now path di).heap di
      ↔ di.Undisturbed now := by
  obtain ⟨-, nlink, ctime, mtime⟩ := loadedInode_stamps env now path cache.allocs di
  obtain ⟨size, mode, deleted, id⟩ := loadedInode_shape env now path cache.allocs di
  constructor
  · rintro ⟨-, -, links, -, time, -, -, -, -⟩
    refine ⟨?_, ?_⟩
    · cases gone : di.deleted with
      | false => exact Or.inl rfl
      | true =>
          rw [gone, if_pos rfl] at nlink
          exact Or.inr (links.symm.trans nlink)
    · by_cases plain : di.deleted = false ∧ di.blockData.isEmpty
      · exact Or.inl plain
      · rw [if_neg plain] at mtime
        exact Or.inr (mtime.symm.trans time)
  · rintro ⟨unlinked, unstamped⟩
    refine ⟨id, mode, nlink.trans ?_, size, mtime.trans ?_, ctime, deleted, ?_, rfl⟩
    · rcases unlinked with alive | none
      · rw [alive]
        rfl
      · rw [none, ite_self]
    · rcases unstamped with plain | same
      · rw [if_pos plain]
      · rw [same, ite_self]
    · intro blockIdx
      have blocks : (loadedInode env now path cache.allocs di).blocks[blockIdx]?
          = if blockIdx ∈ di.blockData then some (cache.allocs, blockIdx) else none :=
        loadedInode_blocks now path cache.allocs di blockIdx
      simp only [Inode.undoDirty, blocks]
      cases known : di.blockData[blockIdx]? with
      | none =>
          rw [if_neg (by rw [← Std.ExtTreeMap.isSome_getElem?_iff_mem, known]; decide)]
          rfl
      | some block =>
          rw [if_pos (by rw [← Std.ExtTreeMap.isSome_getElem?_iff_mem, known]; rfl)]
          simp [BlockCache.loaded, put, withBlocks, known]

/-- A path that is not cached and is found on disk is loaded exactly as it was found, and flushed
again with the time it had, if and only if nothing disturbs it.
-/
theorem load_exact_iff (now : Clock) (away : cache.inCache path = false)
    (lookup : cache.loader.findLatestInode env path true = .ok di) (there : di.mtime ≠ 0)
    : ∃ next inode,
        cache.loadFromDisk env now path = .ok (0, next)
        ∧ next.find path = some inode
        ∧ (inode.Mirrors next.heap di ∧ FlushesAs env next path di.mtime ↔ di.Undisturbed now) := by
  have found : (cache.loaded env now path di).find path
      = some (loadedInode env now path cache.allocs di).undoDirty := find_put_self ..
  refine ⟨cache.loaded env now path di, _, loadFromDisk_away now away lookup there, found, ?_⟩
  constructor
  · rintro ⟨mirrors, -⟩
    exact loadedInode_mirrors_iff.mp mirrors
  · intro undisturbed
    have mirrors : (loadedInode env now path cache.allocs di).undoDirty.Mirrors
        (cache.loaded env now path di).heap di := loadedInode_mirrors_iff.mpr undisturbed
    refine ⟨mirrors, ?_⟩
    rw [← mirrors.mtime]
    exact flushesAs _ found (loadedInode_stamps env now path cache.allocs di).1

/-- What is found of the path `/a`, in the millisecond of its time and later. -/
theorem lookup_mapped_block
    : ∃ di, mapped.loader.findLatestInode Util.twoDigests [47, 97] true = .ok di
        ∧ di.mtime = 7 ∧ di.deleted = false ∧ di.blockData.isEmpty = false := by
  have named : ([47, 97] : Bytes) ≠ [] := by decide
  obtain ⟨di, lookup, shows⟩ : ∃ di,
      BPLUSIndexLoader.findLatestInode Util.twoDigests ([fileOfA [1, 2] 7].map (·.image)) [47, 97]
          true = .ok di
        ∧ di.mtime = 7 ∧ di.deleted = false ∧ di.blockData.isEmpty = false := by
    refine ⟨_, findLatestInode_eq named true, ?_⟩
    decide +kernel
  exact ⟨di, lookup, shows⟩

/-- In that millisecond the path is loaded as it was found. -/
theorem load_exact_at_once
    : ∃ di next inode,
        mapped.loadFromDisk Util.twoDigests (.at_ 6) [47, 97] = .ok (0, next)
        ∧ next.find [47, 97] = some inode
        ∧ inode.Mirrors next.heap di ∧ FlushesAs Util.twoDigests next [47, 97] di.mtime := by
  obtain ⟨di, lookup, mtime, alive, -⟩ := lookup_mapped_block
  obtain ⟨next, inode, load, found, exactly⟩ :=
    load_exact_iff (.at_ 6) rfl lookup (by rw [mtime]; decide)
  refine ⟨di, next, inode, load, found, exactly.mpr ⟨Or.inl alive, Or.inr ?_⟩⟩
  rw [mtime]
  decide

/-- Later it is loaded as a new version. -/
theorem load_inexact
    : ∃ di next inode,
        mapped.inCache [47, 97] = false
        ∧ mapped.loader.findLatestInode Util.twoDigests [47, 97] true = .ok di
        ∧ di.mtime ≠ 0
        ∧ mapped.loadFromDisk Util.twoDigests (.at_ 8) [47, 97] = .ok (0, next)
        ∧ next.find [47, 97] = some inode
        ∧ ¬ inode.Mirrors next.heap di := by
  obtain ⟨di, lookup, mtime, alive, data⟩ := lookup_mapped_block
  have there : di.mtime ≠ 0 := by
    rw [mtime]
    decide
  refine ⟨di, _, _, rfl, lookup, there, loadFromDisk_away (.at_ 8) rfl lookup there,
    find_put_self .., ?_⟩
  intro mirrors
  rcases (loadedInode_mirrors_iff.mp mirrors).unstamped with ⟨_, empty⟩ | same
  · rw [data] at empty
    cases empty
  · rw [mtime] at same
    exact absurd same (by decide)

end BlockCache

end ZippyFS
