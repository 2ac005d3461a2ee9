import ZippyFS.Cache.Effects

/-! The cache index and the pointers behind it: every entry of the index leads to an inode, and
every inode is filed under its id, which is the hash of its own path. A link is filed under the
hash of its target, so the path of an inode need not be the one that leads to it.
-/

namespace ZippyFS

open Runs

namespace Inode

/-- The id of an inode is the hash of its path. -/
def Named (env : Env) (inode : Inode) : Prop := inode.inodeId = Util.cryptoHash env inode.path

/-- A change that keeps the path and the id. -/
structure SameName (old new : Inode) : Prop where
  path : new.path = old.path
  inodeId : new.inodeId = old.inodeId

variable {env : Env} {now : Clock} {old new last inode : Inode}

theorem SameName.refl (inode : Inode) : SameName inode inode := ⟨rfl, rfl⟩

theorem SameName.trans (first : SameName old new) (second : SameName new last)
    : SameName old last :=
  ⟨second.path.trans first.path, second.inodeId.trans first.inodeId⟩

/-- A named inode stays named. -/
theorem Named.congr (named : Named env old) (same : SameName old new) : Named env new := by
  rw [Named, same.inodeId, same.path]
  exact named

/-- The blocks that are added one by one leave all members alone that each of them leaves alone,
by induction on them.
-/
theorem foldl_addBlock_keeps {A : Type} (member : Inode → A) (now : Clock)
    (keeps
      : ∀ (inode : Inode) (blockIdx : Nat) (ref : BlockRef),
        member (inode.addBlock now blockIdx ref) = member inode)
    (blocks : List (Nat × Block)) (alloc : Nat) (inode : Inode)
    : member (blocks.foldl (fun inode blk => inode.addBlock now blk.1 (alloc, blk.1)) inode)
      = member inode := by
  induction blocks generalizing inode with
  | nil => rfl
  | cons head rest ih => exact (ih _).trans (keeps inode _ _)

theorem foldl_addBlock_sameName (now : Clock) (blocks : List (Nat × Block)) (alloc : Nat)
    (inode : Inode)
    : SameName inode (blocks.foldl
        (fun inode blk => inode.addBlock now blk.1 (alloc, blk.1)) inode) where
  path := foldl_addBlock_keeps Inode.path now (fun _ _ _ => rfl) blocks alloc inode
  inodeId := foldl_addBlock_keeps Inode.inodeId now (fun _ _ _ => rfl) blocks alloc inode

end Inode

namespace BPLUSIndexLoader

/-- Blocks do not change the attributes found, by induction on them. -/
theorem foldl_addBlock_attributes (image : Image) (entries : List BlockData)
    (latest : DiskInodeInfo)
    : (entries.foldl (addBlock image) latest).mtime = latest.mtime
      ∧ (entries.foldl (addBlock image) latest).inodeId = latest.inodeId := by
  induction entries generalizing latest with
  | nil => exact ⟨rfl, rfl⟩
  | cons entry rest ih =>
      obtain ⟨mtime, inodeId⟩ := ih (addBlock image latest entry)
      rw [List.foldl_cons, mtime, inodeId]
      unfold addBlock keepBlock
      split
      · split <;> exact ⟨rfl, rfl⟩
      · exact ⟨rfl, rfl⟩

/-- What was found carries the key that was looked for, by induction on the files. -/
theorem visitTrees_inodeId {phash : Bytes} {getData : Bool} {trees : List Image}
    {latestTime : Nat} {latest found : DiskInodeInfo}
    (outcome : visitTrees phash getData trees latestTime latest = .ok found)
    (before : latest.mtime ≠ 0 → latest.inodeId = phash)
    : found.mtime ≠ 0 → found.inodeId = phash := by
  induction trees generalizing latestTime latest with
  | nil =>
      rw [visitTrees, Except.ok.injEq] at outcome
      rwa [← outcome]
  | cons tree rest ih =>
      rw [visitTrees] at outcome
      obtain ⟨inodeoff, _, outcome⟩ := bind_eq_ok.mp outcome
      cases inodeoff with
      | none =>
          simp only [Except.ok.injEq] at outcome
          rwa [← outcome]
      | some inodeoff =>
          have taken : ∀ (newer : Bool),
              (if newer then takeRecord phash latest (tree.inode inodeoff.toNat) else latest).mtime
                ≠ 0
              → (if newer then takeRecord phash latest (tree.inode inodeoff.toNat)
                else latest).inodeId = phash := by
            intro newer
            cases newer with
            | true => exact fun _ => rfl
            | false => exact before
          dsimp only at outcome
          split at outcome
          · split at outcome
            · rw [Except.ok.injEq] at outcome
              rw [← outcome]
              exact taken _
            · refine ih outcome ?_
              rw [(foldl_addBlock_attributes ..).1, (foldl_addBlock_attributes ..).2]
              exact taken _
          · exact ih outcome (taken _)

end BPLUSIndexLoader

/-- A lookup that finds something returns the id of the path. -/
theorem Loader.findLatestInode_inodeId {env : Env} {loader : Loader} {path : Bytes}
    {getData : Bool} {di : DiskInodeInfo}
    (lookup : loader.findLatestInode env path getData = .ok di) (some : di.mtime ≠ 0)
    : di.inodeId = Util.cryptoHash env path := by
  unfold findLatestInode at lookup
  split at lookup
  · cases lookup
  · unfold BPLUSIndexLoader.findLatestInode at lookup
    split at lookup
    · rw [← Except.ok.inj lookup] at some
      exact absurd rfl some
    · exact BPLUSIndexLoader.visitTrees_inodeId lookup (fun absent => absurd rfl absent) some

namespace BlockCache

variable {env : Env} {now : Clock} {cache next first second : BlockCache} {path : Bytes}
  {result : Int} {inode before after : Inode} {names : Set Bytes}

-----------------------------------------------------------------------------------------
-- The invariant
-----------------------------------------------------------------------------------------

/-- The entries of the index lead to inodes, no pointer is null, and the inodes' own paths are
among the names.
-/
structure Pointed (env : Env) (names : Set Bytes) (cache : BlockCache) : Prop where
  entries : ∀ path id : Bytes, cache.inodeIdx[path]? = some id → id ∈ cache.inodePtrs
  pointers
    : ∀ (id : Bytes) (ptr : Option Inode), cache.inodePtrs[id]? = some ptr
      → ∃ inode, ptr = some inode ∧ inode.inodeId = id ∧ inode.Named env ∧ inode.path ∈ names

/-- A cached path leads to an inode. -/
theorem Pointed.found (pointed : Pointed env names cache) (here : path ∈ cache.inodeIdx)
    : ∃ inode, cache.find path = some inode := by
  have known := Std.ExtTreeMap.getElem?_eq_some_getElem here
  have there := Std.ExtTreeMap.getElem?_eq_some_getElem (pointed.entries _ _ known)
  obtain ⟨inode, pointer, _⟩ := pointed.pointers _ _ there
  exact ⟨inode, by simp only [find, known, there, pointer, Option.join_some]⟩

/-- No pointer is null. -/
theorem Pointed.noNulls (pointed : Pointed env names cache) : cache.noNulls = true := by
  refine List.all_eq_true.mpr fun ent member => ?_
  obtain ⟨inode, pointer, _⟩ := pointed.pointers ent.1 ent.2
    (Std.ExtTreeMap.mem_toList_iff_getElem?_eq_some.mp member)
  rw [pointer]
  rfl

/-- The pointer behind a cached path. -/
theorem inodePtrs_of_find (found : cache.find path = some inode)
    : ∃ id, cache.inodeIdx[path]? = some id ∧ cache.inodePtrs[id]? = some (some inode) := by
  unfold find at found
  cases known : cache.inodeIdx[path]? with
  | none => simp [known] at found
  | some id => exact ⟨id, rfl, by simpa [known, Option.join_eq_some_iff] using found⟩

/-- The inode found for a path is filed under its id. -/
theorem Pointed.of_find (pointed : Pointed env names cache) (found : cache.find path = some inode)
    : cache.inodeIdx[path]? = some inode.inodeId ∧ inode.Named env ∧ inode.path ∈ names := by
  obtain ⟨id, known, there⟩ := inodePtrs_of_find found
  obtain ⟨same, pointer, filed, named⟩ := pointed.pointers _ _ there
  obtain rfl := Option.some.inj pointer
  exact ⟨by rw [known, filed], named⟩

/-- An empty cache. -/
theorem Pointed.new (disk : List Image) (order : VisitOrder) (size : Nat)
    : Pointed env names (BlockCache.new disk order size) where
  entries := by simp [BlockCache.new]
  pointers := by simp [BlockCache.new]

/-- Other members do not matter. -/
theorem Pointed.congr (pointed : Pointed env names cache) (idx : next.inodeIdx = cache.inodeIdx)
    (ptrs : next.inodePtrs = cache.inodePtrs)
    : Pointed env names next := by
  obtain ⟨entries, pointers⟩ := pointed
  exact ⟨by rwa [idx, ptrs], by rwa [ptrs]⟩

/-- Filing a named inode under its id. -/
theorem Pointed.put (pointed : Pointed env names cache) (path : Bytes) (named : inode.Named env)
    (own : inode.path ∈ names)
    : Pointed env names (cache.put path inode) where
  entries := by
    intro other id known
    simp only [BlockCache.put, Std.ExtTreeMap.getElem?_insert] at known ⊢
    rw [Std.ExtTreeMap.mem_insert]
    split at known
    · rw [Option.some.injEq] at known
      exact Or.inl (by simp [known])
    · exact Or.inr (pointed.entries other id known)
  pointers := by
    intro id ptr there
    simp only [BlockCache.put, Std.ExtTreeMap.getElem?_insert] at there
    split at there
    case isTrue same =>
      rw [Option.some.injEq] at there
      exact ⟨inode, there.symm, Std.LawfulEqCmp.eq_of_compare same, named, own⟩
    case isFalse => exact pointed.pointers id ptr there

/-- Changing an inode but not its name. -/
theorem Pointed.set (pointed : Pointed env names cache) (found : cache.find path = some before)
    (same : Inode.SameName before after)
    : Pointed env names (cache.set path after) := by
  obtain ⟨known, named, own⟩ := pointed.of_find found
  have filed : cache.set path after = { cache with
      inodePtrs := cache.inodePtrs.insert after.inodeId (some after) } := by
    simp [BlockCache.set, known, same.inodeId]
  rw [filed]
  refine ⟨?_, ?_⟩
  · intro other id known
    rw [Std.ExtTreeMap.mem_insert]
    exact Or.inr (pointed.entries other id known)
  · intro id ptr there
    simp only [Std.ExtTreeMap.getElem?_insert] at there
    split at there
    case isTrue same' =>
      rw [Option.some.injEq] at there
      refine ⟨after, there.symm, Std.LawfulEqCmp.eq_of_compare same', named.congr same, ?_⟩
      rwa [same.path]
    case isFalse => exact pointed.pointers id ptr there

/-- Taking a path off the links of the cached inodes. -/
theorem Pointed.decLinks (pointed : Pointed env names cache) (path : Bytes)
    : Pointed env names (cache.decLinks path) where
  entries := by
    intro other id known
    simp only [BlockCache.decLinks, Std.ExtTreeMap.mem_map]
    exact pointed.entries other id known
  pointers := by
    intro id ptr there
    simp only [BlockCache.decLinks, Std.ExtTreeMap.getElem?_map, Option.map_eq_some_iff] at there
    obtain ⟨before, there, rfl⟩ := there
    obtain ⟨inode, rfl, filed, named⟩ := pointed.pointers id before there
    refine ⟨_, rfl, ?_⟩
    dsimp only
    split
    · exact ⟨filed, named⟩
    · exact ⟨filed, named⟩

-----------------------------------------------------------------------------------------
-- Every operation keeps it
-----------------------------------------------------------------------------------------

/-- A loaded inode is named after the path it was loaded for. -/
theorem loadedInode_named (now : Clock) {di : DiskInodeInfo}
    (lookup : cache.loader.findLatestInode env path true = .ok di) (some : di.mtime ≠ 0)
    : (loadedInode env now path cache.allocs di).undoDirty.path = path
      ∧ (loadedInode env now path cache.allocs di).undoDirty.Named env := by
  have same : Inode.SameName ((Inode.new env now path).setId di.inodeId)
      (loadedInode env now path cache.allocs di).undoDirty := by
    unfold loadedInode
    have rest := Inode.foldl_addBlock_sameName now di.blockData.toList cache.allocs
    dsimp only
    split
    · refine Inode.SameName.trans (Inode.SameName.trans ?_ (rest _)) ⟨rfl, rfl⟩
      exact ⟨rfl, rfl⟩
    · refine Inode.SameName.trans (Inode.SameName.trans ?_ (rest _)) ⟨rfl, rfl⟩
      exact ⟨rfl, rfl⟩
  refine ⟨same.path, Inode.Named.congr ?_ same⟩
  exact Loader.findLatestInode_inodeId lookup some

theorem Pointed.loaded (pointed : Pointed env names cache) {di : DiskInodeInfo}
    (member : path ∈ names) (lookup : cache.loader.findLatestInode env path true = .ok di)
    (some : di.mtime ≠ 0)
    : Pointed env names (cache.loaded env now path di) := by
  have allocated : Pointed env names (cache.withBlocks di) := pointed.congr rfl rfl
  obtain ⟨own, named⟩ := loadedInode_named now lookup some
  exact allocated.put path named (by rwa [own])

theorem Pointed.ensured (pointed : Pointed env names cache) (member : path ∈ names)
    (ensured : Ensured env now cache path result next)
    : Pointed env names next := by
  cases ensured with
  | cached here => exact pointed
  | absent away lookup none => exact pointed
  | loaded away lookup some => exact pointed.loaded member lookup some

theorem Pointed.makeFile (pointed : Pointed env names cache) (mode : UInt32) (dirty : Bool)
    (member : path ∈ names)
    : Pointed env names (cache.makeFile env now path mode dirty) := by
  cases dirty with
  | true =>
      have named : (((Inode.new env now path).setMode now mode).setDirty).Named env := rfl
      exact (pointed.put path named member).congr rfl rfl
  | false =>
      have named : ((Inode.new env now path).setMode now mode).Named env := rfl
      exact (pointed.put path named member).congr rfl rfl

theorem Pointed.deleted (pointed : Pointed env names cache) (found : cache.find path = some inode)
    : Pointed env names (cache.deleted now path inode) := by
  have emptied : Pointed env names (cache.set path (inode.deleteInode now)) :=
    pointed.set found ⟨rfl, rfl⟩
  exact emptied.congr rfl rfl

theorem Pointed.moved {from_ to_ : Bytes} {source : Inode} (pointed : Pointed env names cache)
    (member : to_ ∈ names) (found : cache.find from_ = some source)
    : Pointed env names (cache.moved env now from_ to_ source) := by
  have emptied : Pointed env names (cache.set from_ (source.deleteInode now)) :=
    pointed.set found ⟨rfl, rfl⟩
  have copied : (Inode.copyOf env now to_ source).Named env := rfl
  exact (emptied.put to_ copied member).congr rfl rfl

/-- What every round of the loop of `write` keeps, the loop keeps, by induction on its fuel. -/
theorem writeLoop_invariant {P : Writing → Prop} {buf : Bytes} {alloc numBlocks : Nat}
    (round
      : ∀ blockIdx currIdx blockSize offsetAmt state, P state
        → P (writeBlock now buf alloc blockIdx currIdx blockSize offsetAmt state))
    {fuel blockIdx currIdx blockSize offsetAmt : Nat} {state final : Writing}
    (loop
      : writeLoop now buf alloc numBlocks fuel blockIdx currIdx blockSize offsetAmt state
        = .ok final)
    (start : P state)
    : P final := by
  induction fuel generalizing blockIdx currIdx blockSize offsetAmt state with
  | zero => simp [writeLoop] at loop
  | succ fuel ih =>
      rw [writeLoop] at loop
      split at loop
      · exact ih loop (round _ _ _ _ _ start)
      · split at loop
        · rwa [← Except.ok.inj loop]
        · cases loop

/-- A write leaves the name of the inode alone. -/
theorem runLoop_sameName {buf : Bytes} {offset : Nat} {state : Writing}
    (loop : cache.runLoop now path buf offset inode = .ok state)
    : Inode.SameName inode state.inode := by
  refine writeLoop_invariant (P := fun state => Inode.SameName inode state.inode) ?_ loop ?_
  · intro blockIdx currIdx blockSize offsetAmt state same
    unfold writeBlock
    split
    · exact same.trans ⟨rfl, rfl⟩
    · exact same.trans ⟨rfl, rfl⟩
  · unfold grown
    split <;> exact ⟨rfl, rfl⟩

/-- What `write` goes on with is in the cache. -/
theorem Ready.found {middle : BlockCache} (ready : Ready env now cache path middle inode)
    : middle.find path = some inode := by
  cases ready with
  | cached here found => exact find_set_self (mem_of_find found)
  | loaded away lookup some => exact find_put_self _ _ _

theorem Pointed.ready {middle : BlockCache} (pointed : Pointed env names cache)
    (member : path ∈ names) (ready : Ready env now cache path middle inode)
    : Pointed env names middle := by
  cases ready with
  | cached here found => exact pointed.set found ⟨rfl, rfl⟩
  | loaded away lookup some => exact pointed.loaded member lookup some

theorem Pointed.written {buf : Bytes} {offset : Nat} {state : Writing}
    (pointed : Pointed env names cache) (found : cache.find path = some inode)
    (loop : cache.runLoop now path buf offset inode = .ok state)
    : Pointed env names (cache.written path state) :=
  (pointed.set found (runLoop_sameName loop)).congr rfl rfl

theorem Pointed.flushed (pointed : Pointed env names cache) (flush : Flushed env cache result next)
    : Pointed env names next := by
  cases flush with
  | nothing unchanged => exact pointed
  | flushed changed filled => exact ⟨by simp [BlockCache.flushed], by simp [BlockCache.flushed]⟩

/-- Every operation inside the cache keeps the pointers. -/
theorem Pointed.effect {op : Op} (pointed : Pointed env names cache)
    (inside : ∀ path, op ≠ .getInodeByPath path) (members : ∀ path ∈ op.paths, path ∈ names)
    (effect : Effect env now cache op result next)
    : Pointed env names next := by
  cases effect with
  | makeFile path mode dirty => exact pointed.makeFile mode dirty (members _ (by simp [Op.paths]))
  | writeMissing missing => exact pointed
  | write ready loop =>
      exact (pointed.ready (members _ (by simp [Op.paths])) ready).written ready.found loop
  | truncateMissing away => exact pointed
  | @truncate path size inode here found =>
      have resized : Pointed env names (cache.set path (inode.setSize now size)) :=
        pointed.set found ⟨rfl, rfl⟩
      exact resized.congr rfl rfl
  | removeMissing away => exact pointed
  | @remove path inode here noNulls found =>
      have emptied : Pointed env names ((cache.decLinks path).deleted now path inode) :=
        (pointed.decLinks path).deleted found
      exact emptied.congr rfl rfl
  | rmdirMissing away => exact pointed
  | rmdir here found => exact pointed.deleted found
  | renameMissing missing => exact pointed
  | renameOver ensured target found =>
      have source := pointed.ensured (members _ (by simp [Op.paths])) ensured
      have member := members _ (List.mem_cons_of_mem _ (List.mem_singleton_self _))
      exact (source.ensured member target).moved member found
  | renameNew ensured target was found =>
      have source := pointed.ensured (members _ (by simp [Op.paths])) ensured
      have member := members _ (List.mem_cons_of_mem _ (List.mem_singleton_self _))
      exact (source.makeFile _ _ member).moved member found
  | symlink from_ to_ =>
      have link : ((Inode.new env now from_).setMode now (S_IFLNK ||| 0o600)).Named env := rfl
      exact (pointed.put to_ link (members from_ (List.mem_cons_self ..))).congr rfl rfl
  | open_ ensured => exact pointed.ensured (members _ (by simp [Op.paths])) ensured
  | read ensured found bytes => exact pointed.ensured (members _ (by simp [Op.paths])) ensured
  | readlink outcome => exact pointed
  | getattr outcome => exact pointed
  | getRefs outcome => exact pointed
  | inCache path => exact pointed
  | loadFromDisk loaded =>
      cases loaded with
      | absent lookup none => exact pointed
      | kept here found lookup some newer => exact pointed.congr rfl rfl
      | replaced here found lookup some older =>
          exact pointed.loaded (members _ (by simp [Op.paths])) lookup some
      | loaded away lookup some => exact pointed.loaded (members _ (by simp [Op.paths])) lookup some
  | getInodeByPath path => exact absurd rfl (inside path)
  | flushToDisk flushed => exact pointed.flushed flushed
  | flushToShdwKept small => exact pointed
  | flushToShdw flushed => exact pointed.flushed flushed
  | loadTrees order => exact pointed.congr rfl rfl
  | readdir order path => exact pointed.congr rfl rfl

/-- After every run of operations inside the cache the pointers are in order. -/
theorem Pointed.run {disk : List Image} {order : VisitOrder} {size : Nat} {events : List Event}
    (run : Run (Steps env) (BlockCache.new disk order size) events cache)
    (inside : ∀ event ∈ events, ∀ path, event.op ≠ .getInodeByPath path)
    : Pointed env (named events) cache := by
  refine run.recorded.state_invariant (Pointed.new disk order size) ?_
  rintro state event next pointed ⟨member, taken⟩
  exact pointed.effect (inside event member) (fun path here => ⟨event, member, here⟩)
    (step_effect taken)

end BlockCache

end ZippyFS
