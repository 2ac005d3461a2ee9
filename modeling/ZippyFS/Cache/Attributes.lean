import ZippyFS.Cache.Flush
import ZippyFS.Index.LatestInode

/-! The two branches of `getattr`: what it reports of a cached file, and what it reports of the
same file once it is only on disk.
-/

namespace ZippyFS

open Runs

/-- A time with the resolution of the disk format. -/
def Timespec.millisec (time : Timespec) : Nat := time.sec * 1000 + time.nsec / 1000000

/-- Two results of `getattr` that tell the same of a file. -/
structure Stat.Agrees (left right : Stat) : Prop where
  mode : left.stMode = right.stMode
  nlink : left.stNlink = right.stNlink
  size : left.stSize = right.stSize
  blocks : left.stBlocks = right.stBlocks
  mtim : left.stMtim.millisec = right.stMtim.millisec
  ctim : left.stCtim.millisec = right.stCtim.millisec

/-- The blocks are numbered from 0 up to the size, without a gap. -/
def Inode.Dense (inode : Inode) : Prop :=
  ∀ blockIdx : Nat, blockIdx ∈ inode.blocks ↔ blockIdx * SIZE < inode.size

/-- Dense blocks are as many as the size needs. -/
theorem Inode.Dense.size_blocks {inode : Inode} (dense : inode.Dense)
    : inode.blocks.size = Util.ulongCeil inode.size SIZE := by
  have range : inode.blocks.keys.toFinset = Finset.range (Util.ulongCeil inode.size SIZE) := by
    ext blockIdx
    rw [List.mem_toFinset, Std.ExtTreeMap.mem_keys, dense, Finset.mem_range]
    unfold Util.ulongCeil SIZE
    split <;> omega
  rw [← Std.ExtTreeMap.length_keys, ← List.toFinset_card_of_nodup Std.ExtTreeMap.nodup_keys, range,
    Finset.card_range]

namespace BlockCache

variable {env : Env} {cache next : BlockCache} {path : Bytes} {inode : Inode}

/-- The number of blocks that `getattr` computes from a size on disk. -/
def diskBlocks (size : Nat) : Nat := size / SIZE + (if size % SIZE = 0 then 1 else 0)

/-- It is one too small, or one too large for a size of whole blocks. -/
theorem diskBlocks_ne (size : Nat) : diskBlocks size ≠ Util.ulongCeil size SIZE := by
  unfold diskBlocks Util.ulongCeil
  split <;> omega

/-- What is reported of a cached path. -/
theorem getattr_cached (found : cache.find path = some inode)
    : cache.getattr env path = .ok (0, some inode.stat) := by
  have here : cache.inCache path = true := by
    unfold inCache
    simp [mem_of_find found]
  unfold getattr
  rw [if_pos here, getInodeByPath_eq_ok.mpr found]
  rfl

/-- What is reported of a path that is only on disk. -/
theorem getattr_away {status : Int} {stat : Stat} (away : path ∉ cache.inodeIdx)
    (outcome : cache.getattr env path = .ok (status, some stat))
    : stat.stBlocks = diskBlocks stat.stSize := by
  unfold getattr at outcome
  split at outcome
  · obtain ⟨inode, found, -⟩ := bind_eq_ok.mp outcome
    exact absurd (mem_of_find (getInodeByPath_eq_ok.mp found)) away
  · obtain ⟨di, -, outcome⟩ := bind_eq_ok.mp outcome
    split at outcome
    · cases (Prod.mk.inj (Except.ok.inj outcome)).2
    · obtain rfl := Option.some.inj (Prod.mk.inj (Except.ok.inj outcome)).2
      rfl

/-- If the sizes agree, the numbers of blocks do not. -/
theorem not_agrees (dense : inode.Dense) (flush : cache.flushToDisk env = .ok (0, next))
    (order : VisitOrder) {after : Stat}
    (onDisk : (next.loadTrees order).getattr env path = .ok (0, some after))
    : ¬ inode.stat.Agrees after := by
  intro agrees
  have away : path ∉ (next.loadTrees order).inodeIdx := by
    cases flushToDisk_flushed flush with
    | flushed changed filled => exact Std.ExtTreeMap.not_mem_empty
  have formula := getattr_away away onDisk
  rw [← agrees.size, ← agrees.blocks] at formula
  exact diskBlocks_ne inode.size (formula.symm.trans dense.size_blocks)

/-- Whatever the files on disk are, what `getattr` reports of a file with dense blocks before a
flush is never what it reports afterwards.
-/
theorem getattr_never_agrees (found : cache.find path = some inode) (dense : inode.Dense)
    (flush : cache.flushToDisk env = .ok (0, next)) (order : VisitOrder) {before after : Stat}
    (cached : cache.getattr env path = .ok (0, some before))
    (onDisk : (next.loadTrees order).getattr env path = .ok (0, some after))
    : ¬ before.Agrees after := by
  rw [getattr_cached found] at cached
  obtain rfl := Option.some.inj (Prod.mk.inj (Except.ok.inj cached)).2
  exact not_agrees dense flush order onDisk

/-- What is reported of a path that only one tree holds. -/
theorem getattr_single {file : TreeFile env} {call : AddCall} {order : VisitOrder}
    (named : path ≠ []) (away : cache.inCache path = false) (disk : cache.disk = [file.image])
    (held : file.find (Util.cryptoHash env path) = some call) (positive : 0 < call.mtime)
    : (cache.loadTrees order).getattr env path = .ok (0, some {
        stMode := call.inode.mode
        stNlink := call.inode.nlink
        stBlocks := diskBlocks call.inode.size
        stSize := call.inode.size
        stCtim := Util.getTimeTs call.inode.ulCtime
        stMtim := Util.getTimeTs call.inode.ulMtime
        stAtim := none }) := by
  have alone : heldBy [file] path = [call] := by
    simp [heldBy, held]
  obtain ⟨di, lookup, shows⟩ := @findLatestInode_attributes env [file] path named
    (by simpa [alone] using positive) false
  have visited : visitedBy [file] path false = [call] := by
    rw [visitedBy, List.map_cons, held]
    rfl
  rw [visited] at shows
  rcases shows with ⟨none, -⟩ | ⟨other, newest, same⟩
  · cases none
  · obtain rfl := List.mem_singleton.mp newest.member
    have mtime : di.mtime = other.mtime := congrArg Attributes.mtime same
    have mapped : order.visit cache.disk = [file.image] := by
      rw [disk]
      exact List.perm_singleton.mp (order.perm _)
    have here : (cache.loadTrees order).loader.findLatestInode env path false = .ok di := by
      rw [Loader.findLatestInode, if_neg (by simp [loadTrees])]
      simp only [loadTrees, mapped]
      exact lookup
    have away : (cache.loadTrees order).inCache path = false := away
    rw [getattr, away, here]
    simp only [Bool.false_eq_true, if_false, bind, Except.bind]
    rw [if_neg (by omega)]
    obtain ⟨mode, nlink, _, ctime, size, _⟩ := Attributes.mk.inj same
    rw [mode, nlink, ctime, size, mtime]
    rfl

/-- The file `/a` after its creation: it has no blocks and needs none. -/
theorem find_withFile
    : ∃ inode, withFile.find [47, 97] = some inode ∧ inode.Dense ∧ inode.deleted = false := by
  have put (inode : Inode) : (fresh.put [47, 97] inode).find [47, 97] = some inode :=
    find_put_self ..
  refine ⟨_, put (((Inode.new Util.twoDigests (.at_ 1) [47, 97]).setMode (.at_ 1)
    0o100644).setDirty), fun blockIdx => ?_, rfl⟩
  exact iff_of_false Std.ExtTreeMap.not_mem_empty (Nat.not_lt_zero _)

/-- It is found again once it was flushed and the trees are loaded. -/
theorem getattr_flushed
    : ∃ next after,
        withFile.flushToDisk Util.twoDigests = .ok (0, next)
        ∧ (next.loadTrees ⟨id, .refl⟩).getattr Util.twoDigests [47, 97] = .ok (0, some after) := by
  have apart : Set.InjOn (Util.cryptoHash Util.twoDigests) {[47, 97]} := Set.injOn_singleton _ _
  have coherent : Coherent Util.twoDigests {[47, 97]} withFile :=
    (Coherent.new [] ⟨id, .refl⟩ 0 apart).makeFile _ _ rfl
  have some : withFile.inodeIdx ≠ ∅ := by
    intro none
    have size := congrArg Std.ExtTreeMap.size none
    exact absurd size (by decide +kernel)
  obtain ⟨index, filled, image⟩ := coherent.flushFits.fill_eq coherent.pointed some
  have stored : ((withFile.flushCalls.find? (fun call => decide (call.inode.inodeId
      = Util.cryptoHash Util.twoDigests [47, 97]))).map AddCall.mtime) = Option.some 2 := by
    decide +kernel
  obtain ⟨call, held, mtime⟩ := Option.map_eq_some_iff.mp stored
  have files : (withFile.flushed index).disk
      = [(coherent.flushFits.treeFile coherent.pointed some).image] := by
    rw [← image]
    rfl
  exact ⟨withFile.flushed index, _, flushToDisk_eq rfl filled,
    getattr_single (by decide) rfl files held (by rw [mtime]; decide)⟩

/-- A file that was created and flushed. -/
theorem getattr_never_agrees_created
    : ∃ next before after,
        withFile.flushToDisk Util.twoDigests = .ok (0, next)
        ∧ withFile.getattr Util.twoDigests [47, 97] = .ok (0, some before)
        ∧ (next.loadTrees ⟨id, .refl⟩).getattr Util.twoDigests [47, 97] = .ok (0, some after)
        ∧ ¬ before.Agrees after := by
  obtain ⟨inode, found, dense, -⟩ := find_withFile
  obtain ⟨next, after, flush, onDisk⟩ := getattr_flushed
  exact ⟨next, inode.stat, after, flush, getattr_cached found, onDisk,
    getattr_never_agrees found dense flush _ (getattr_cached found) onDisk⟩

/-- It is an empty regular file that was created by one call, and the only one on disk. -/
theorem getattr_disagrees
    : ∃ inode next before after,
        Run (Steps Util.twoDigests) fresh [⟨.at_ 1, .makeFile [47, 97] 0o100644 true, 0⟩] withFile
        ∧ withFile.find [47, 97] = some inode ∧ inode.deleted = false ∧ inode.Dense
        ∧ withFile.flushToDisk Util.twoDigests = .ok (0, next)
        ∧ (∃ image, next.disk = [image])
        ∧ withFile.getattr Util.twoDigests [47, 97] = .ok (0, some before)
        ∧ (next.loadTrees ⟨id, .refl⟩).getattr Util.twoDigests [47, 97] = .ok (0, some after)
        ∧ ¬ before.Agrees after := by
  obtain ⟨inode, found, dense, alive⟩ := find_withFile
  obtain ⟨next, after, flush, onDisk⟩ := getattr_flushed
  refine ⟨inode, next, inode.stat, after, .snoc .nil rfl, found, alive, dense, flush, ?_,
    getattr_cached found, onDisk, not_agrees dense flush _ onDisk⟩
  cases flushToDisk_flushed flush with
  | flushed changed filled => exact ⟨_, rfl⟩

end BlockCache

end ZippyFS
