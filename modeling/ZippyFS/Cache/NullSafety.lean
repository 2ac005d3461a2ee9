import ZippyFS.Cache.Ownership
import ZippyFS.Lib.Outcomes
import ZippyFS.Cache.Flush

/-! Null pointers. `get_inode_by_path` creates null entries for paths it does not know, so every
operation has to make sure of its path first; some do not, and all of them take the root for
cached.
-/

namespace ZippyFS

open Runs Outcomes

-----------------------------------------------------------------------------------------
-- What never meets a null inode
-----------------------------------------------------------------------------------------

theorem TireFire.getOffset_never (tires : TireFire) (index : Nat)
    : Never .nullInode (tires.getOffset index) := by
  unfold getOffset
  split
  · exact .ok _
  · exact .error (by decide)

theorem findNodeFrom_never (mem : CellMemory.Mem) (key : Bytes) (fuel curOffset : Nat)
    : Never .nullInode (findNodeFrom mem key fuel curOffset) := by
  induction fuel generalizing curOffset with
  | zero => exact .error (by decide)
  | succ fuel ih =>
      rw [findNodeFrom]
      exact .ite (fun _ => .ok _) fun _ => .ite (fun _ => ih _) fun _ =>
        .ite (fun _ => ih _) fun _ => ih _

namespace BPLUSIndex

theorem growRoot_never (index : BPLUSIndex) (nodeoffset rightOffset : Nat) (nkey : Int)
    : Never .nullInode (index.growRoot nodeoffset rightOffset nkey) := by
  unfold growRoot
  exact (TireFire.getOffset_never _ _).bind fun _ _ =>
    (TireFire.getOffset_never _ _).bind fun _ _ => .ok _

theorem splitHalves_never (index : BPLUSIndex) (nodeoffset : Nat) (k v : Int) (isparent : Bool)
    (targ : Int)
    : Never .nullInode (index.splitHalves nodeoffset k v isparent targ) := by
  unfold splitHalves
  refine (TireFire.getOffset_never _ _).bind fun rightOffset _ => ?_
  dsimp only
  refine .ite (fun _ => ?_) fun _ => ?_
  · exact (TireFire.getOffset_never _ _).bind fun _ _ => (Never.ok _).bind fun _ _ => .ok _
  · exact (Never.ok _).bind fun _ _ => .ok _

theorem listRight_never {split : BPLUSIndex → Nat → Int → Int → Except Fault (Int × BPLUSIndex)}
    (index : BPLUSIndex) (nodeoffset rightidx rightOffset : Nat) (medKeyOf v : Int)
    (isparent : Bool)
    (splits : ∀ index paroff key targ, Never .nullInode (split index paroff key targ))
    : Never .nullInode
        (index.listRight split nodeoffset rightidx rightOffset medKeyOf v isparent) := by
  unfold listRight
  exact .ite (fun _ => growRoot_never _ _ _ _) fun _ =>
    .ite (fun _ => (splits _ _ _ _).bind fun _ _ => .ok _) fun _ => .ok _

theorem splitInsertNode_never (fuel : Nat) (index : BPLUSIndex) (nodeoffset : Nat) (k v : Int)
    (isparent : Bool) (targ : Int)
    : Never .nullInode (splitInsertNode fuel index nodeoffset k v isparent targ) := by
  induction fuel generalizing index nodeoffset k v isparent targ with
  | zero => exact .error (by decide)
  | succ fuel ih =>
      rw [splitInsertNode]
      refine .ite (fun _ => .ok _) fun _ => ?_
      exact (splitHalves_never _ _ _ _ _ _).bind fun _ _ =>
        listRight_never _ _ _ _ _ _ _ fun _ _ _ _ => ih _ _ _ _ _ _

theorem allocateRegions_never (index : BPLUSIndex)
    : Never .nullInode index.allocateRegions := by
  unfold allocateRegions
  exact (TireFire.getOffset_never _ _).bind fun _ _ =>
    (TireFire.getOffset_never _ _).bind fun _ _ =>
      (TireFire.getOffset_never _ _).bind fun _ _ => .ok _

theorem writeRecord_never (env : Env) (index : BPLUSIndex) (inode : Inode)
    (dirtyBlocks : Std.ExtTreeMap Nat Block) (blockMtime : Std.ExtTreeMap Nat Nat)
    : Never .nullInode (index.writeRecord env inode dirtyBlocks blockMtime) := by
  unfold writeRecord
  exact (TireFire.getOffset_never _ _).bind fun _ _ =>
    (TireFire.getOffset_never _ _).bind fun _ _ =>
      (TireFire.getOffset_never _ _).bind fun _ _ =>
        (TireFire.getOffset_never _ _).bind fun _ _ =>
          (TireFire.getOffset_never _ _).bind fun _ _ => .ok _

theorem insertKey_never (index : BPLUSIndex) (key : Bytes) (keyOf inodeOf : Int)
    : Never .nullInode (index.insertKey key keyOf inodeOf) := by
  unfold insertKey findNodeToStore
  refine Never.bind ?_ fun _ _ => ?_
  · exact .ite (fun _ => .error (by decide)) fun _ =>
      (TireFire.getOffset_never _ _).bind fun _ _ => findNodeFrom_never _ _ _ _
  · exact .ite (fun _ => (splitInsertNode_never _ _ _ _ _ _ _).bind fun _ _ => .ok _)
      fun _ => .ok _

/-- `add_inode` does not look at other inodes. -/
theorem addInode_never (env : Env) (index : BPLUSIndex) (inode : Inode)
    (dirtyBlocks : Std.ExtTreeMap Nat Block) (blockMtime : Std.ExtTreeMap Nat Nat)
    : Never .nullInode (index.addInode env inode dirtyBlocks blockMtime) := by
  have rest (index : BPLUSIndex) (isroot : Bool) : Never .nullInode (do
      let recorded ← index.writeRecord env inode dirtyBlocks blockMtime
      if isroot then
        let rootOffset ← recorded.2.2.mem.getOffset recorded.2.2.rootIdx
        let root := recorded.2.2.mem.load nodeLayout rootOffset
        .ok { recorded.2.2 with
          mem := recorded.2.2.mem.store nodeLayout rootOffset
            ((root.setKey 0 recorded.1).setValue 0 recorded.2.1) }
      else recorded.2.2.insertKey inode.inodeId recorded.1 recorded.2.1) := by
    refine (writeRecord_never _ _ _ _ _).bind fun _ _ => ?_
    exact .ite (fun _ => (TireFire.getOffset_never _ _).bind fun _ _ => .ok _)
      fun _ => insertKey_never _ _ _ _
  unfold addInode
  dsimp only
  refine .ite (fun _ => ?_) fun _ => ?_
  · exact (allocateRegions_never _).bind fun index _ => rest index _
  · exact (Never.ok _).bind fun index _ => rest index _

end BPLUSIndex

namespace BPLUSIndexLoader

theorem descend_never (mem : CellMemory.Mem) (phash : Bytes) (fuel curOffset : Nat)
    : Never .nullInode (descend mem phash fuel curOffset) := by
  induction fuel generalizing curOffset with
  | zero => exact .error (by decide)
  | succ fuel ih =>
      rw [descend]
      refine .ite (fun _ => .ok _) fun _ => ?_
      split
      · exact ih _
      · exact .error (by decide)

theorem visitTrees_never (phash : Bytes) (getData : Bool) (trees : List Image)
    (latestTime : Nat) (latest : DiskInodeInfo)
    : Never .nullInode (visitTrees phash getData trees latestTime latest) := by
  induction trees generalizing latestTime latest with
  | nil => exact .ok _
  | cons tree rest ih =>
      rw [visitTrees]
      refine Never.bind ?_ fun inodeoff _ => ?_
      · exact (descend_never _ _ _ _).bind fun _ _ => .ok _
      · cases inodeoff with
        | none => exact .ok _
        | some inodeoff =>
            exact .ite (fun _ => .ite (fun _ => .ok _) fun _ => ih _ _) fun _ => ih _ _

theorem getChildren_never (path : Bytes) (trees : List Image) (names : List IndexEntry)
    : Never .nullInode (getChildren path trees names) := by
  have scan (tree : Image) (fuel ii : Nat) (names : List IndexEntry)
      : Never .nullInode (scanRecords tree path fuel ii names) := by
    induction fuel generalizing ii names with
    | zero => exact .error (by decide)
    | succ fuel ih =>
        rw [scanRecords]
        exact .ite (fun _ => ih _ _) fun _ => .ok _
  induction trees generalizing names with
  | nil => exact .ok _
  | cons tree rest ih =>
      rw [getChildren]
      exact (scan _ _ _ _).bind fun _ _ => ih _

end BPLUSIndexLoader

/-- Lookups do not look at cached inodes. -/
theorem Loader.findLatestInode_never (env : Env) (loader : Loader) (path : Bytes)
    (getData : Bool)
    : Never .nullInode (loader.findLatestInode env path getData) := by
  unfold findLatestInode BPLUSIndexLoader.findLatestInode
  exact .ite (fun _ => .error (by decide)) fun _ =>
    .ite (fun _ => .ok _) fun _ => BPLUSIndexLoader.visitTrees_never _ _ _ _ _

theorem Inode.readBytes_never (env : Env) (heap : BlockRef → Block) (inode : Inode)
    (size offset : Nat)
    : Never .nullInode (inode.readBytes env heap size offset) := by
  have loop (fuel blockIdx offsetAmt : Nat) (buf : Bytes)
      : Never .nullInode (inode.readLoop env heap size fuel blockIdx offsetAmt buf) := by
    induction fuel generalizing blockIdx offsetAmt buf with
    | zero => exact .error (by decide)
    | succ fuel ih =>
        rw [readLoop]
        refine .ite (fun _ => ?_) fun _ => .ok _
        split
        · exact .error (by decide)
        · exact ih _ _ _
  exact loop _ _ _ _

theorem Inode.read_never (env : Env) (heap : BlockRef → Block) (inode : Inode)
    (size offset : Nat)
    : Never .nullInode (inode.read env heap size offset) :=
  (Inode.readBytes_never _ _ _ _ _).bind fun _ _ => .ok _

namespace BlockCache

variable {env : Env} {now : Clock} {cache next : BlockCache} {path buf : Bytes} {result : Int}
  {offset : Nat} {inode : Inode}

theorem runLoop_never (now : Clock) (cache : BlockCache) (path buf : Bytes) (offset : Nat)
    (inode : Inode)
    : Never .nullInode (cache.runLoop now path buf offset inode) := by
  have loop (alloc numBlocks fuel blockIdx currIdx blockSize offsetAmt : Nat) (state : Writing)
      : Never .nullInode
          (writeLoop now buf alloc numBlocks fuel blockIdx currIdx blockSize offsetAmt state) := by
    induction fuel generalizing blockIdx currIdx blockSize offsetAmt state with
    | zero => exact .error (by decide)
    | succ fuel ih =>
        rw [writeLoop]
        exact .ite (fun _ => ih _ _ _ _ _) fun _ => .ite (fun _ => .ok _) fun _ =>
          .error (by decide)
  exact loop _ _ _ _ _ _ _ _

-----------------------------------------------------------------------------------------
-- When a call meets a null inode
-----------------------------------------------------------------------------------------

/-- Every entry of the index leads to an inode. -/
def Sound (cache : BlockCache) : Prop := ∀ path ∈ cache.inodeIdx, (cache.find path).isSome

/-- A path that is neither cached nor found on disk. -/
def Absent (env : Env) (cache : BlockCache) (path : Bytes) : Prop :=
  path ∉ cache.inodeIdx
    ∧ ∀ getData, ∃ di, cache.loader.findLatestInode env path getData = .ok di ∧ di.mtime = 0

/-- The path that a call takes for a file that is there. -/
def subject : Op → Option Bytes
  | .write path _ _ | .truncate path _ | .remove path | .rmdir path | .rename path _
  | .open_ path | .read path _ _ | .readlink path _ | .getattr path | .getRefs path
  | .inCache path | .loadFromDisk path | .getInodeByPath path => some path
  | .makeFile _ _ _ | .symlink _ _ | .flushToDisk | .flushToShdw _ | .loadTrees _
  | .readdir _ _ => none

/-- A call leaves no dangling entry, dereferences no null inode, and fails for a path that is
nowhere without filing anything.
-/
structure NeverDangles (env : Env) (now : Clock) (cache : BlockCache) (op : Op) : Prop where
  sound : ∀ result next, step env now cache op = .ok (result, next) → next.Sound
  bound : Never .nullInode (step env now cache op)
  absent
    : ∀ path result next, subject op = some path → cache.Absent env path
      → step env now cache op = .ok (result, next)
      → result < 0 ∧ next.inodeIdx = cache.inodeIdx ∧ next.inodePtrs = cache.inodePtrs

/-- The root is cached, or another path is meant. -/
def Rooted (cache : BlockCache) (path : Bytes) : Prop := path = [47] → path ∈ cache.inodeIdx

/-- Where a call is safe: the root has to be cached where it counts as cached, and some calls
want more.
-/
def Safe (env : Env) (cache : BlockCache) : Op → Prop
  | .write path _ _ | .truncate path _ | .remove path | .rmdir path | .readlink path _
  | .getattr path | .getRefs path => cache.Rooted path
  | .read path _ _ =>
      path ∈ cache.inodeIdx
        ∨ (path ≠ [47]
          ∧ ∀ di, cache.loader.findLatestInode env path true = .ok di → di.mtime ≠ 0)
  | .loadFromDisk path =>
      cache.Rooted path
        ∨ ∀ di, cache.loader.findLatestInode env path true = .ok di → di.mtime = 0
  | .rename from_ to_ =>
      cache.Rooted from_
        ∨ (cache.inCache to_ = false
          ∧ ∀ di, cache.loader.findLatestInode env to_ true ≠ .ok di)
  | .open_ path => ¬ cache.Absent env path
  | .inCache path => cache.Rooted path ∨ ¬ cache.Absent env path
  | .getInodeByPath path => path ∈ cache.inodeIdx
  | .makeFile _ _ _ | .symlink _ _ | .flushToDisk | .flushToShdw _ | .loadTrees _
  | .readdir _ _ => True

/-- The root counts as cached. -/
theorem inCache_root (cache : BlockCache) : cache.inCache [47] = true := by
  simp [inCache]

/-- Away from the root, the cached paths are those in the index. -/
theorem Rooted.mem (rooted : cache.Rooted path) (here : cache.inCache path = true)
    : path ∈ cache.inodeIdx := by
  rcases (decide_eq_true_iff.mp here) with here | root
  · exact here
  · exact rooted root

/-- A path outside the index has no inode. -/
theorem find_of_not_mem (away : path ∉ cache.inodeIdx) : cache.find path = none := by
  simp only [find, Std.ExtTreeMap.getElem?_eq_none away]

theorem getInodeByPath_of_not_mem (away : path ∉ cache.inodeIdx)
    : cache.getInodeByPath path = .error .nullInode := by
  simp only [getInodeByPath, find_of_not_mem away]

/-- The uncached root is taken for cached. -/
theorem not_rooted (unrooted : ¬ cache.Rooted path)
    : path = [47] ∧ path ∉ cache.inodeIdx ∧ cache.inCache path = true := by
  obtain ⟨rfl, away⟩ := Classical.not_imp.mp unrooted
  exact ⟨rfl, away, inCache_root cache⟩

theorem Sound.find (sound : cache.Sound) (here : path ∈ cache.inodeIdx)
    : ∃ inode, cache.find path = some inode :=
  Option.isSome_iff_exists.mp (sound path here)

theorem Sound.getInodeByPath_never (sound : cache.Sound) (here : path ∈ cache.inodeIdx)
    : Never .nullInode (cache.getInodeByPath path) := by
  obtain ⟨inode, found⟩ := sound.find here
  rw [getInodeByPath_eq_ok.mpr found]
  exact .ok inode

/-- The first lines of most calls: the inode of a path that counts as cached. -/
theorem Sound.ifCached_never {A : Type} (sound : cache.Sound) (rooted : cache.Rooted path)
    {rest : Inode → Except Fault A} {otherwise : Except Fault A}
    (tail : ∀ inode, Never .nullInode (rest inode)) (missing : Never .nullInode otherwise)
    : Never .nullInode
        (if cache.inCache path then cache.getInodeByPath path >>= rest else otherwise) :=
  .ite (fun here => (sound.getInodeByPath_never (rooted.mem here)).bind fun inode _ => tail inode)
    fun _ => missing

/-- With the uncached root they meet a null inode. -/
theorem ifCached_null {A : Type} (unrooted : ¬ cache.Rooted path) {rest : Inode → Except Fault A}
    {otherwise : Except Fault A}
    : (if cache.inCache path then cache.getInodeByPath path >>= rest else otherwise)
      = .error .nullInode := by
  obtain ⟨_, away, here⟩ := not_rooted unrooted
  rw [if_pos here, getInodeByPath_of_not_mem away]
  rfl

theorem Pointed.sound {names : Set Bytes} (pointed : Pointed env names cache) : cache.Sound := by
  intro path here
  obtain ⟨inode, found⟩ := pointed.found here
  rw [found]
  rfl

/-- Loading a path that does not count as cached. -/
theorem loadFromDisk_never (away : cache.inCache path = false)
    : Never .nullInode (cache.loadFromDisk env now path) := by
  unfold loadFromDisk
  refine (Loader.findLatestInode_never _ _ _ _).bind fun di _ => .ite (fun _ => .ok _) fun _ => ?_
  rw [if_neg (by simp [away])]
  exact .ok _

theorem ensureCached_never (env : Env) (now : Clock) (cache : BlockCache) (path : Bytes)
    : Never .nullInode (cache.ensureCached env now path) := by
  cases here : cache.inCache path with
  | true =>
      rw [ensureCached, if_pos here]
      exact .ok _
  | false =>
      rw [ensureCached, if_neg (by simp [here])]
      exact loadFromDisk_never here

/-- Ensuring a path fails only where the lookup does. -/
theorem ensureCached_error {fault : Fault}
    (outcome : cache.ensureCached env now path = .error fault)
    : (path ∉ cache.inodeIdx ∧ path ≠ [47])
      ∧ cache.loader.findLatestInode env path true = .error fault := by
  cases here : cache.inCache path with
  | true =>
      rw [ensureCached, if_pos here] at outcome
      cases outcome
  | false =>
      refine ⟨not_or.mp (decide_eq_false_iff_not.mp here), ?_⟩
      rw [ensureCached, if_neg (by simp [here]), loadFromDisk] at outcome
      cases lookup : cache.loader.findLatestInode env path true with
      | error other =>
          rw [lookup, error_bind] at outcome
          exact congrArg Except.error (Except.error.inj outcome)
      | ok di =>
          rw [lookup] at outcome
          simp [bind, Except.bind, here] at outcome
          split at outcome <;> cases outcome

/-- Ensuring a path keeps what is in the index. -/
theorem Ensured.mem {other : Bytes} (ensured : Ensured env now cache path result next)
    (here : other ∈ cache.inodeIdx)
    : other ∈ next.inodeIdx := by
  cases ensured with
  | cached => exact here
  | absent => exact here
  | loaded => exact Std.ExtTreeMap.mem_insert.mpr (Or.inr here)

/-- A path that was made sure of is in the index. -/
theorem Ensured.mem_self (ensured : Ensured env now cache path 0 next)
    (rooted : cache.Rooted path)
    : path ∈ next.inodeIdx := by
  cases ensured with
  | cached here => exact rooted.mem here
  | loaded away lookup some => exact mem_of_find (find_put_self _ _ _)

/-- What `write` goes on with is there. -/
theorem readyToWrite_found {found : Int}
    (outcome : cache.readyToWrite env now path = .ok (found, next)) (notMissing : found ≠ -1)
    : ∃ inode, next.find path = some inode := by
  unfold readyToWrite at outcome
  cases here : cache.inCache path with
  | true =>
      rw [if_pos here] at outcome
      obtain ⟨inode, known, same⟩ := bind_eq_ok.mp outcome
      obtain ⟨rfl, rfl⟩ := Prod.mk.inj (Except.ok.inj same)
      exact ⟨_, find_set_self (mem_of_find (getInodeByPath_eq_ok.mp known))⟩
  | false =>
      rw [if_neg (by simp [here])] at outcome
      cases loadFromDisk_ensured here outcome with
      | cached there => simp [here] at there
      | absent => exact absurd rfl notMissing
      | loaded away lookup some => exact ⟨_, find_put_self _ _ _⟩

theorem Sound.writeCounted_never (sound : cache.Sound) (rooted : cache.Rooted path)
    : Never .nullInode (cache.writeCounted env now path buf offset) := by
  refine Never.bind ?_ ?_
  · refine .ite (fun here => ?_) fun away => ?_
    · exact (sound.getInodeByPath_never (rooted.mem here)).bind fun _ _ => .ok _
    · exact loadFromDisk_never (Bool.not_eq_true _ ▸ away)
  · rintro ⟨found, middle⟩ ready
    refine .ite (fun _ => .ok _) fun notMissing => ?_
    obtain ⟨inode, there⟩ := readyToWrite_found ready notMissing
    rw [getInodeByPath_eq_ok.mpr there]
    exact (Never.ok _).bind fun _ _ => (runLoop_never _ _ _ _ _ _).bind fun _ _ => .ok _

/-- A read meets a null inode exactly where nothing was cached or loaded. -/
theorem Sound.read_never_iff (sound : cache.Sound) (size : Nat)
    : Never .nullInode (cache.read env now path size offset)
      ↔ Safe env cache (.read path size offset) := by
  have rest {middle : BlockCache} {inode : Inode} (found : middle.find path = some inode)
      : Never .nullInode (do
        let inode ← middle.getInodeByPath path
        let shown ← inode.read env middle.heap size offset
        .ok (shown.1, shown.2, middle)) := by
    rw [getInodeByPath_eq_ok.mpr found]
    exact (Never.ok _).bind fun _ _ => (Inode.read_never _ _ _ _ _).bind fun _ _ => .ok _
  have fails {middle : BlockCache} (away : path ∉ middle.inodeIdx)
      : (do
        let inode ← middle.getInodeByPath path
        let shown ← inode.read env middle.heap size offset
        .ok (shown.1, shown.2, middle)) = Except.error Fault.nullInode := by
    rw [getInodeByPath_of_not_mem away]
    rfl
  unfold read
  cases run : cache.ensureCached env now path with
  | error fault =>
      obtain ⟨away, lookup⟩ := ensureCached_error run
      refine iff_of_true ?_ (Or.inr ⟨away.2, fun di found => ?_⟩)
      · have other := ensureCached_never env now cache path
        rw [run] at other
        exact fun same => other (by rw [Except.error.inj same])
      · rw [lookup] at found
        cases found
  | ok made =>
      obtain ⟨result, middle⟩ := made
      cases ensureCached_ensured run with
      | cached here =>
          by_cases there : path ∈ cache.inodeIdx
          · obtain ⟨inode, found⟩ := sound.find there
            exact iff_of_true (rest found) (Or.inl there)
          · refine iff_of_false (fun never => never (fails there)) ?_
            rintro (filed | ⟨other, _⟩)
            · exact there filed
            · exact (decide_eq_true_iff.mp here).elim there other
      | absent away lookup none =>
          obtain ⟨outside, _⟩ := not_or.mp (decide_eq_false_iff_not.mp away)
          refine iff_of_false (fun never => never (fails outside)) ?_
          rintro (filed | ⟨_, some⟩)
          · exact outside filed
          · exact some _ lookup none
      | @loaded di away lookup some =>
          refine iff_of_true (rest (find_put_self _ _ _)) (Or.inr ⟨?_, fun other found => ?_⟩)
          · exact (not_or.mp (decide_eq_false_iff_not.mp away)).2
          · rw [lookup] at found
            rwa [← Except.ok.inj found]

/-- With the uncached root, a write meets a null inode. -/
theorem writeCounted_null (unrooted : ¬ cache.Rooted path)
    : cache.writeCounted env now path buf offset = .error .nullInode := by
  unfold writeCounted readyToWrite
  rw [ifCached_null unrooted]
  rfl

theorem remove_null (unrooted : ¬ cache.Rooted path)
    : cache.remove now path = .error .nullInode := by
  obtain ⟨_, away, here⟩ := not_rooted unrooted
  have none : path ∉ (cache.decLinks path).inodeIdx := away
  unfold remove
  rw [if_pos here, getInodeByPath_of_not_mem none]
  split <;> rfl

theorem Pointed.remove_never {names : Set Bytes} (pointed : Pointed env names cache)
    (rooted : cache.Rooted path)
    : Never .nullInode (cache.remove now path) := by
  unfold remove
  rw [if_pos pointed.noNulls]
  exact .ite
    (fun here => ((pointed.decLinks path).sound.getInodeByPath_never (rooted.mem here)).bind
      fun _ _ => .ok _)
    fun _ => .ok _

/-- A load meets a null inode where something is found for the uncached root. -/
theorem Sound.loadFromDisk_never_iff (sound : cache.Sound)
    : Never .nullInode (cache.loadFromDisk env now path)
      ↔ Safe env cache (.loadFromDisk path) := by
  simp only [loadFromDisk, Safe]
  cases lookup : cache.loader.findLatestInode env path true with
  | error fault =>
      refine iff_of_true ?_ (Or.inr fun di same => by cases same)
      have other := Loader.findLatestInode_never env cache.loader path true
      rw [lookup] at other
      exact fun same => other (by rw [Except.error.inj same])
  | ok di =>
      by_cases none : di.mtime = 0
      · refine iff_of_true ?_ (Or.inr fun other same => ?_)
        · exact (Never.ok di).bind fun _ same => by
            obtain rfl := Except.ok.inj same
            exact .ite (fun _ => .ok _) fun some => absurd none some
        · rwa [← Except.ok.inj same]
      · by_cases rooted : cache.Rooted path
        · refine iff_of_true ?_ (Or.inl rooted)
          refine (Never.ok di).bind fun found _ => .ite (fun _ => .ok _) fun _ => ?_
          exact sound.ifCached_never rooted (fun _ => .ite (fun _ => .ok _) fun _ => .ok _) (.ok _)
        · refine iff_of_false (fun never => never ?_) ?_
          · rw [ok_bind, if_neg none]
            exact ifCached_null rooted
          · exact fun either => either.elim rooted fun all => none (all di rfl)

/-- The last lines of `rename` work on a source that is filed. -/
theorem Pointed.rename_rest {names : Set Bytes} {first : BlockCache} {from_ to_ : Bytes}
    (pointed : Pointed env names first) (member : to_ ∈ names) (filed : from_ ∈ first.inodeIdx)
    : Never .nullInode (do
        let (res, cache) ← first.ensureCached env now to_
        let old ← cache.getInodeByPath from_
        let cache := if res = -1 then cache.makeFile env now to_ old.mode true else cache
        let source ← cache.getInodeByPath from_
        .ok ((0 : Int), cache.moved env now from_ to_ source)) := by
  refine (ensureCached_never _ _ _ _).bind ?_
  rintro ⟨res, second⟩ run
  have target := ensureCached_ensured run
  have ready := pointed.ensured member target
  have still := target.mem filed
  refine (ready.sound.getInodeByPath_never still).bind fun old _ => ?_
  refine Never.bind ?_ fun _ _ => .ok _
  by_cases missing : res = -1
  · simp only [if_pos missing]
    have made : Pointed env names (second.makeFile env now to_ old.mode true) :=
      ready.makeFile old.mode true member
    exact made.sound.getInodeByPath_never (Std.ExtTreeMap.mem_insert.mpr (Or.inr still))
  · simp only [if_neg missing]
    exact ready.sound.getInodeByPath_never still

/-- A rename of the uncached root meets a null inode unless its target cannot be looked up. -/
theorem rename_never_iff {from_ to_ : Bytes} (pointed : Pointed env Set.univ cache)
    : Never .nullInode (cache.rename env now from_ to_)
      ↔ Safe env cache (.rename from_ to_) := by
  simp only [Safe]
  by_cases rooted : cache.Rooted from_
  · refine iff_of_true ?_ (Or.inl rooted)
    refine (ensureCached_never _ _ _ _).bind ?_
    rintro ⟨res, first⟩ run
    have ensured := ensureCached_ensured run
    refine .ite (fun _ => .ok _) fun notMissing => ?_
    rcases ensured.result_cases with rfl | ⟨missing, _⟩
    · have ready := pointed.ensured (Set.mem_univ _) ensured
      exact ready.rename_rest (Set.mem_univ _) (ensured.mem_self rooted)
    · exact absurd missing notMissing
  · obtain ⟨rfl, away, here⟩ := not_rooted rooted
    rw [or_iff_right rooted]
    have start : cache.ensureCached env now [47] = .ok (0, cache) := by
      rw [ensureCached, if_pos here]
    unfold rename
    rw [start, ok_bind]
    dsimp only
    rw [if_neg (by decide)]
    cases run : cache.ensureCached env now to_ with
    | error fault =>
        obtain ⟨⟨outside, other⟩, lookup⟩ := ensureCached_error run
        refine iff_of_true ?_ ⟨by simp [inCache, outside, other], fun di found => ?_⟩
        · have never := ensureCached_never env now cache to_
          rw [run] at never
          exact fun same => never (by rw [Except.error.inj same])
        · rw [lookup] at found
          cases found
    | ok made =>
        obtain ⟨res, second⟩ := made
        have target := ensureCached_ensured run
        have still : [47] ∉ second.inodeIdx := by
          cases target with
          | cached => exact away
          | absent => exact away
          | loaded outside lookup some =>
              intro filed
              rcases Std.ExtTreeMap.mem_insert.mp filed with same | filed
              · rw [Std.LawfulEqCmp.eq_of_compare same, inCache_root] at outside
                cases outside
              · exact away filed
        refine iff_of_false (fun never => never ?_) ?_
        · rw [ok_bind]
          dsimp only
          rw [getInodeByPath_of_not_mem still, error_bind]
        · rintro ⟨outside, nothing⟩
          cases target with
          | cached there => simp [outside] at there
          | absent _ lookup => exact nothing _ lookup
          | loaded _ lookup => exact nothing _ lookup

/-- Nothing is created for a path that is filed. -/
theorem Sound.indexed_eq (sound : cache.Sound) (here : path ∈ cache.inodeIdx)
    : cache.indexed path = cache := by
  obtain ⟨inode, found⟩ := sound.find here
  obtain ⟨id, known, there⟩ := inodePtrs_of_find found
  have filed : id ∈ cache.inodePtrs := Std.ExtTreeMap.isSome_getElem?_iff_mem.mp (by
    rw [there]
    rfl)
  unfold indexed
  rw [known, Option.getD_some, Tables.insertIfNew_of_mem here, Tables.insertIfNew_of_mem filed]

/-- The entry created for a path that is not filed dangles: no inode has an empty id. -/
theorem Pointed.indexed_dangles {names : Set Bytes} (pointed : Pointed env names cache)
    (away : path ∉ cache.inodeIdx)
    : ¬ (cache.indexed path).Sound := by
  intro sound
  obtain ⟨inode, found⟩ := sound.find (Std.ExtTreeMap.mem_insertIfNew_self ..)
  obtain ⟨id, known, there⟩ := inodePtrs_of_find found
  have outside := Std.ExtTreeMap.getElem?_eq_none away
  have fresh : (cache.indexed path).inodeIdx[path]? = some [] := by
    simp only [indexed, Std.ExtTreeMap.getElem?_insertIfNew, away, not_false_eq_true, and_true,
      Std.ReflCmp.compare_self, if_true]
  rw [fresh] at known
  obtain rfl := Option.some.inj known
  have null : cache.inodePtrs[([] : Bytes)]? = some (some inode) := by
    simp only [indexed, outside, Option.getD_none, Std.ExtTreeMap.getElem?_insertIfNew] at there
    split at there
    · cases there
    · exact there
  obtain ⟨same, pointer, filed, named, _⟩ := pointed.pointers _ _ null
  have long := (Util.cryptoHash_length env same.path).1
  rw [← named, filed] at long
  exact absurd long (by decide)

/-- A flush works on filed paths only. -/
theorem Sound.flushToDisk_never (sound : cache.Sound)
    : Never .nullInode (cache.flushToDisk env) := by
  refine .ite (fun _ => Never.bind ?_ fun _ _ => .ok _) fun _ => .ok _
  refine .foldlM fun flusher ent member => ?_
  have here : ent.1 ∈ cache.inodeIdx := Std.ExtTreeMap.isSome_getElem?_iff_mem.mp (by
    rw [Std.ExtTreeMap.mem_toList_iff_getElem?_eq_some.mp member]
    rfl)
  exact (sound.getInodeByPath_never here).bind fun _ _ => BPLUSIndex.addInode_never _ _ _ _ _

/-- Where the dereferences of a call are safe, for all calls but those that are wrong in another
way.
-/
theorem step_never_iff {op : Op} (pointed : Pointed env Set.univ cache)
    (noOpen : ∀ path, op ≠ .open_ path) (noTest : ∀ path, op ≠ .inCache path)
    (inside : ∀ path, op ≠ .getInodeByPath path)
    : Never .nullInode (step env now cache op) ↔ Safe env cache op := by
  have sound := pointed.sound
  have choose {A : Type} {path : Bytes} {outcome : Except Fault A}
      (safe : cache.Rooted path → Never .nullInode outcome)
      (null : ¬ cache.Rooted path → outcome = .error .nullInode)
      : Never .nullInode outcome ↔ cache.Rooted path :=
    ⟨fun never => by_contra fun unrooted => never (null unrooted), safe⟩
  cases op with
  | makeFile path mode dirty => exact iff_of_true (.ok _) trivial
  | write path buf offset => exact choose sound.writeCounted_never writeCounted_null
  | truncate path size =>
      exact choose (fun rooted => sound.ifCached_never rooted (fun _ => .ok _) (.ok _))
        fun unrooted => ifCached_null unrooted
  | remove path => exact choose pointed.remove_never remove_null
  | rmdir path =>
      exact choose (fun rooted => sound.ifCached_never rooted (fun _ => .ok _) (.ok _))
        fun unrooted => ifCached_null unrooted
  | rename from_ to_ => exact rename_never_iff pointed
  | symlink from_ to_ => exact iff_of_true (.ok _) trivial
  | open_ path => exact absurd rfl (noOpen path)
  | read path size offset =>
      exact (Never.bind_iff fun _ => .ok _).trans (sound.read_never_iff size)
  | readlink path size =>
      refine (Never.bind_iff fun _ => .ok _).trans (choose (fun rooted => ?_)
        fun unrooted => ifCached_null unrooted)
      refine sound.ifCached_never rooted (fun inode => .ite (fun _ => ?_) fun _ => .ok _) (.ok _)
      exact Inode.read_never _ _ _ _ _
  | getattr path =>
      refine (Never.bind_iff fun _ => .ok _).trans (choose (fun rooted => ?_)
        fun unrooted => ifCached_null unrooted)
      refine sound.ifCached_never rooted (fun _ => .ok _) ?_
      exact (Loader.findLatestInode_never _ _ _ _).bind fun _ _ =>
        .ite (fun _ => .ok _) fun _ => .ok _
  | getRefs path =>
      refine (Never.bind_iff fun _ => .ok _).trans (choose (fun rooted => ?_)
        fun unrooted => ifCached_null unrooted)
      exact sound.ifCached_never rooted (fun _ => .ok _) (.error (by decide))
  | inCache path => exact absurd rfl (noTest path)
  | loadFromDisk path => exact sound.loadFromDisk_never_iff
  | getInodeByPath path => exact absurd rfl (inside path)
  | flushToDisk => exact iff_of_true sound.flushToDisk_never trivial
  | flushToShdw onClose =>
      exact iff_of_true (.ite (fun _ => .ok _) fun _ => sound.flushToDisk_never) trivial
  | loadTrees order => exact iff_of_true (.ok _) trivial
  | readdir order path =>
      refine iff_of_true ?_ trivial
      exact ((BPLUSIndexLoader.getChildren_never _ _ _).bind fun _ _ => .ok _).bind fun _ _ => .ok _

/-- A rename whose source is nowhere does not go on. -/
theorem Ensured.not_absent_rename {from_ to_ : Bytes} {first second : BlockCache}
    (ensured : Ensured env now cache from_ 0 first) (safe : Safe env cache (.rename from_ to_))
    (outside : from_ ∉ cache.inodeIdx)
    (missed
      : ∀ {found : DiskInodeInfo}, cache.loader.findLatestInode env from_ true = .ok found
        → found.mtime = 0)
    (target : Ensured env now first to_ result second)
    : False := by
  cases ensured with
  | cached here =>
      rcases safe with rooted | ⟨away, nothing⟩
      · exact outside (rooted.mem here)
      · cases target with
        | cached there => simp [away] at there
        | absent _ lookup => exact nothing _ lookup
        | loaded _ lookup => exact nothing _ lookup
  | loaded _ lookup some => exact some (missed lookup)

/-- A safe call for a path that is nowhere fails and files nothing. -/
theorem Effect.of_absent {op : Op} (effect : Effect env now cache op result next)
    (safe : Safe env cache op) (named : subject op = some path) (absent : cache.Absent env path)
    : result < 0 ∧ next.inodeIdx = cache.inodeIdx ∧ next.inodePtrs = cache.inodePtrs := by
  obtain ⟨outside, nowhere⟩ := absent
  have missed {found : DiskInodeInfo}
      (lookup : cache.loader.findLatestInode env path true = .ok found)
      : found.mtime = 0 := by
    obtain ⟨di, same, none⟩ := nowhere true
    rw [lookup] at same
    rwa [Except.ok.inj same]
  have unfound {found : DiskInodeInfo}
      (lookup : cache.loader.findLatestInode env path true = .ok found) (some : found.mtime ≠ 0)
      : False :=
    some (missed lookup)
  have uncached (rooted : cache.Rooted path) (here : cache.inCache path = true) : False :=
    outside (rooted.mem here)
  cases effect with
  | makeFile => cases named
  | writeMissing => exact ⟨by decide, rfl, rfl⟩
  | write ready loop =>
      obtain rfl := Option.some.inj named
      cases ready with
      | cached here => exact (uncached safe here).elim
      | loaded _ lookup some => exact (unfound lookup some).elim
  | truncateMissing => exact ⟨by decide, rfl, rfl⟩
  | truncate here =>
      obtain rfl := Option.some.inj named
      exact (uncached safe here).elim
  | removeMissing => exact ⟨by decide, rfl, rfl⟩
  | remove here =>
      obtain rfl := Option.some.inj named
      exact (uncached safe here).elim
  | rmdirMissing => exact ⟨by decide, rfl, rfl⟩
  | rmdir here =>
      obtain rfl := Option.some.inj named
      exact (uncached safe here).elim
  | renameMissing => exact ⟨by decide, rfl, rfl⟩
  | renameOver ensured target =>
      obtain rfl := Option.some.inj named
      exact (ensured.not_absent_rename safe outside missed target).elim
  | renameNew ensured target =>
      obtain rfl := Option.some.inj named
      exact (ensured.not_absent_rename safe outside missed target).elim
  | symlink => cases named
  | open_ =>
      obtain rfl := Option.some.inj named
      exact absurd ⟨outside, nowhere⟩ safe
  | read =>
      obtain rfl := Option.some.inj named
      obtain ⟨di, lookup, none⟩ := nowhere true
      rcases safe with here | ⟨_, some⟩
      · exact absurd here outside
      · exact absurd none (some di lookup)
  | readlink outcome =>
      obtain rfl := Option.some.inj named
      rw [BlockCache.readlink, if_neg (uncached safe)] at outcome
      obtain ⟨rfl, _⟩ := Prod.mk.inj (Except.ok.inj outcome)
      exact ⟨by decide, rfl, rfl⟩
  | getattr outcome =>
      obtain rfl := Option.some.inj named
      obtain ⟨di, lookup, none⟩ := nowhere false
      rw [BlockCache.getattr, if_neg (uncached safe), lookup, ok_bind, if_pos none] at outcome
      obtain ⟨rfl, _⟩ := Prod.mk.inj (Except.ok.inj outcome)
      exact ⟨by decide, rfl, rfl⟩
  | getRefs outcome =>
      obtain rfl := Option.some.inj named
      rw [BlockCache.getRefs, if_neg (uncached safe)] at outcome
      cases outcome
  | inCache =>
      obtain rfl := Option.some.inj named
      rcases safe with rooted | elsewhere
      · rw [if_neg (uncached rooted)]
        exact ⟨by decide, rfl, rfl⟩
      · exact absurd ⟨outside, nowhere⟩ elsewhere
  | loadFromDisk loaded =>
      obtain rfl := Option.some.inj named
      cases loaded with
      | absent => exact ⟨by decide, rfl, rfl⟩
      | kept _ _ lookup some => exact (unfound lookup some).elim
      | replaced _ _ lookup some => exact (unfound lookup some).elim
      | loaded _ lookup some => exact (unfound lookup some).elim
  | getInodeByPath =>
      obtain rfl := Option.some.inj named
      exact absurd safe outside
  | flushToDisk => cases named
  | flushToShdwKept => cases named
  | flushToShdw => cases named
  | loadTrees => cases named
  | readdir => cases named

/-- Opening a path that is nowhere succeeds. -/
theorem Absent.open_eq (absent : cache.Absent env path)
    : cache.open_ env now path = .ok (0, cache) := by
  obtain ⟨di, lookup, none⟩ := absent.2 true
  unfold open_ ensureCached
  split
  · rfl
  · rw [loadFromDisk, lookup, ok_bind, if_pos none]
    rfl

/-- Safe calls keep the pointers in order. -/
theorem Pointed.safe_effect {op : Op} (pointed : Pointed env Set.univ cache)
    (safe : Safe env cache op) (effect : Effect env now cache op result next)
    : Pointed env Set.univ next := by
  by_cases inside : ∀ path, op ≠ .getInodeByPath path
  · exact pointed.effect inside (fun _ _ => Set.mem_univ _) effect
  · obtain ⟨path, same⟩ := not_forall.mp inside
    obtain rfl := not_not.mp same
    cases effect
    rwa [pointed.sound.indexed_eq safe]

/-- From a state whose pointers are in order, a call goes wrong exactly where it is not safe. -/
theorem Pointed.neverDangles_iff_safe (pointed : Pointed env Set.univ cache) (now : Clock) (op : Op)
    : NeverDangles env now cache op ↔ Safe env cache op := by
  constructor
  · intro never
    cases op with
    | open_ path =>
        intro absent
        have failed := never.absent path 0 cache rfl absent absent.open_eq
        exact absurd failed.1 (by decide)
    | inCache path =>
        by_contra neither
        obtain ⟨unrooted, absent⟩ := not_or.mp neither
        have here := (not_rooted unrooted).2.2
        have failed := never.absent path 0 cache rfl (not_not.mp absent) (by
          rw [step, if_pos here])
        exact absurd failed.1 (by decide)
    | getInodeByPath path =>
        by_contra away
        exact pointed.indexed_dangles away (never.sound 0 _ rfl)
    | _ => exact (step_never_iff pointed (by simp) (by simp) (by simp)).mp never.bound
  · intro safe
    refine ⟨fun result next taken => ?_, ?_, fun path result next named absent taken => ?_⟩
    · exact (pointed.safe_effect safe (step_effect taken)).sound
    · cases op with
      | open_ path => exact (ensureCached_never _ _ _ _).bind fun _ _ => .ok _
      | inCache path => exact .ok _
      | getInodeByPath path => exact .ok _
      | _ => exact (step_never_iff pointed (by simp) (by simp) (by simp)).mpr safe
    · exact (step_effect taken).of_absent safe named absent

/-- After every run of safe calls the pointers are in order. -/
theorem Pointed.safe_run {disk : List Image} {order : VisitOrder} {size : Nat}
    {events : List Event}
    (run : Run (fun state event next => Safe env state event.op ∧ Steps env state event next)
      (BlockCache.new disk order size) events cache)
    : Pointed env Set.univ cache :=
  run.state_invariant (Pointed.new disk order size) fun _ _ _ pointed taken =>
    pointed.safe_effect taken.1 (step_effect taken.2)

/-- As long as every call is safe, every entry of the index leads to an inode; and then the next
call dereferences only such entries and files nothing for a path that is nowhere exactly if it is
safe, too.
-/
theorem neverDangles_iff {disk : List Image} {order : VisitOrder} {size : Nat}
    {events : List Event}
    (run : Run (fun state event next => Safe env state event.op ∧ Steps env state event next)
      (BlockCache.new disk order size) events cache)
    : cache.Sound ∧ ∀ (now : Clock) (op : Op), NeverDangles env now cache op ↔ Safe env cache op :=
  ⟨(Pointed.safe_run run).sound, (Pointed.safe_run run).neverDangles_iff_safe⟩

/-- A cache with one file. -/
theorem neverDangles_iff_created
    : withFile.Sound
      ∧ ∀ (now : Clock) (op : Op),
        NeverDangles Util.twoDigests now withFile op ↔ Safe Util.twoDigests withFile op := by
  have run : Run (fun state event next => Safe Util.twoDigests state event.op
      ∧ Steps Util.twoDigests state event next)
      fresh [⟨.at_ 1, .makeFile [47, 97] 0o100644 true, 0⟩] withFile := .snoc .nil ⟨trivial, rfl⟩
  exact neverDangles_iff run

/-- In an empty cache, `/a` can be opened, and reading it then dereferences a null inode. -/
theorem neverDangles_opened
    : Run (Steps Util.twoDigests) fresh [⟨.at_ 1, .open_ [47, 97], 0⟩] fresh
      ∧ ¬ NeverDangles Util.twoDigests (.at_ 2) fresh (.read [47, 97] 1 0) := by
  refine ⟨.snoc .nil rfl, fun never => never.bound rfl⟩

end BlockCache

end ZippyFS
