import ZippyFS.Cache.Archive
import ZippyFS.Cache.Transparency

/-! What a call does to the paths that it does not name. Files share no blocks, so most calls leave
other files alone; `remove` goes through all cached inodes.
-/

namespace ZippyFS

open Runs

/-- The operations on files. -/
def Op.onFiles : Op → Bool
  | makeFile .. | write .. | truncate .. | remove _ | rmdir _ | rename .. | open_ _
  | read .. => true
  | _ => false

namespace BlockCache

variable {env : Env} {now : Clock} {cache middle next : BlockCache} {names : Set Bytes}
  {path other : Bytes} {result : Int} {op : Op} {inode : Inode}

-----------------------------------------------------------------------------------------
-- The law and the condition
-----------------------------------------------------------------------------------------

/-- A cached path stays cached with its blocks, size, mode, link count and deleted flag. -/
def KeepsPath (cache next : BlockCache) (path : Bytes) : Prop :=
  ∀ before, cache.find path = some before
    → ∃ after, next.find path = some after
      ∧ after.shape.fileState next.heap = before.shape.fileState cache.heap
      ∧ after.nlink = before.nlink

/-- All cached paths but those that a call names are kept. -/
def KeepsOthers (cache : BlockCache) (op : Op) (next : BlockCache) : Prop :=
  ∀ other ∉ op.paths, other ∈ cache.inodeIdx → KeepsPath cache next other

/-- The call removes a cached path that the inode of another cached path lists in its refs. -/
def RemovesRef (cache : BlockCache) (op : Op) : Prop :=
  ∃ path other inode, op = .remove path ∧ cache.inCache path = true ∧ other ≠ path
    ∧ cache.find other = some inode ∧ path ∈ inode.links

-----------------------------------------------------------------------------------------
-- Changes of one path
-----------------------------------------------------------------------------------------

theorem KeepsPath.refl (cache : BlockCache) (path : Bytes) : KeepsPath cache cache path :=
  fun before found => ⟨before, found, rfl, rfl⟩

theorem KeepsPath.trans (first : KeepsPath cache middle path) (second : KeepsPath middle next path)
    : KeepsPath cache next path := by
  intro before found
  obtain ⟨between, there, same, links⟩ := first before found
  obtain ⟨after, known, same', links'⟩ := second between there
  exact ⟨after, known, same'.trans same, links'.trans links⟩

/-- A path keeps its file if it keeps its inode and the blocks that the inode holds. -/
theorem KeepsPath.of_find (found : next.find path = cache.find path)
    (heap
      : ∀ before, cache.find path = some before
        → ∀ (blockIdx : Nat) (ref : BlockRef), before.blocks[blockIdx]? = some ref
          → next.heap ref = cache.heap ref)
    : KeepsPath cache next path := by
  intro before known
  refine ⟨before, found.trans known, ?_, rfl⟩
  unfold Shape.fileState
  congr 1
  funext blockIdx
  cases held : before.shape.blocks[blockIdx]? with
  | none => rfl
  | some ref => exact congrArg some (heap before known blockIdx ref held)

/-- The index, the pointers and the blocks are all that matters. -/
theorem KeepsPath.congr (keeps : KeepsPath cache middle path)
    (idx : next.inodeIdx = middle.inodeIdx) (ptrs : next.inodePtrs = middle.inodePtrs)
    (heap : next.heap = middle.heap)
    : KeepsPath cache next path := by
  intro before found
  obtain ⟨after, there, same, links⟩ := keeps before found
  refine ⟨after, ?_, by rwa [heap], links⟩
  unfold find at there ⊢
  rwa [idx, ptrs]

theorem Coherent.keeps_set (coherent : Coherent env names cache) (here : path ∈ cache.inodeIdx)
    (different : other ≠ path)
    : KeepsPath cache (cache.set path inode) other :=
  .of_find ((coherent.find_set here).trans (if_neg different)) fun _ _ _ _ _ => rfl

theorem Coherent.keeps_put (coherent : Coherent env names cache) (member : path ∈ names)
    (named : inode.Named env) (own : inode.path = path) (different : other ≠ path)
    : KeepsPath cache (cache.put path inode) other :=
  .of_find ((coherent.find_put member named own).trans (if_neg different)) fun _ _ _ _ _ => rfl

/-- Loading a path allocates blocks that no cached inode holds. -/
theorem Coherent.keeps_loaded (coherent : Coherent env names cache) (stocked : Stocked cache)
    {di : DiskInodeInfo} (member : path ∈ names)
    (lookup : cache.loader.findLatestInode env path true = .ok di) (some : di.mtime ≠ 0)
    (different : other ≠ path)
    : KeepsPath cache (cache.loaded env now path di) other := by
  have allocated : Coherent env names (cache.withBlocks di) := coherent.congr rfl rfl
  obtain ⟨own, named⟩ := loadedInode_named now lookup some
  refine .of_find ((allocated.find_put member named own).trans (if_neg different)) ?_
  intro before found blockIdx ref held
  have older := stocked.fresh _ _ _ _ (ptr_of_find found) held
  exact if_neg older.ne

theorem Coherent.keeps_ensured (coherent : Coherent env names cache) (stocked : Stocked cache)
    (member : path ∈ names) (ensured : Ensured env now cache path result next)
    (different : other ≠ path)
    : KeepsPath cache next other := by
  cases ensured with
  | cached here => exact .refl cache other
  | absent away lookup none => exact .refl cache other
  | loaded away lookup some => exact coherent.keeps_loaded stocked member lookup some different

theorem Coherent.keeps_makeFile (coherent : Coherent env names cache) (mode : UInt32)
    (dirty : Bool) (member : path ∈ names) (different : other ≠ path)
    : KeepsPath cache (cache.makeFile env now path mode dirty) other := by
  cases dirty with
  | true =>
      have named : (((Inode.new env now path).setMode now mode).setDirty).Named env := rfl
      exact coherent.keeps_put member named rfl different
  | false =>
      have named : ((Inode.new env now path).setMode now mode).Named env := rfl
      exact coherent.keeps_put member named rfl different

theorem Coherent.keeps_moved {from_ to_ : Bytes} {source : Inode}
    (coherent : Coherent env names cache) (member : to_ ∈ names)
    (found : cache.find from_ = some source) (notFrom : other ≠ from_) (notTo : other ≠ to_)
    : KeepsPath cache (cache.moved env now from_ to_ source) other := by
  have emptied : Coherent env names (cache.set from_ (source.deleteInode now)) :=
    coherent.set found ⟨rfl, rfl⟩
  have copied : (Inode.copyOf env now to_ source).Named env := rfl
  exact (coherent.keeps_set (mem_of_find found) notFrom).trans
    (emptied.keeps_put member copied rfl notTo)

/-- A write changes new blocks and those of its inode, which no other inode holds. -/
theorem Coherent.keeps_written {buf : Bytes} {offset : Nat} {state : Writing}
    (coherent : Coherent env names cache) (stocked : Stocked cache)
    (found : cache.find path = some inode)
    (loop : cache.runLoop now path buf offset inode = .ok state) (different : other ≠ path)
    : KeepsPath cache (cache.written path state) other := by
  refine .of_find ((coherent.find_set (mem_of_find found)).trans (if_neg different)) ?_
  intro before known blockIdx ref held
  have older := stocked.fresh _ _ _ _ (ptr_of_find known) held
  refine (runLoop_supplied stocked loop).heap ref older.ne ?_
  intro blockIdx' held'
  rw [startOf, grown_blocks] at held'
  have same := stocked.apart _ _ _ _ _ _ _ (ptr_of_find known) held (ptr_of_find found) held'
  obtain ⟨filed, member⟩ := coherent.idx (mem_of_find known)
  obtain ⟨filed', member'⟩ := coherent.idx (mem_of_find found)
  rw [filed, filed'] at same
  exact different (coherent.apart member member' same)

theorem Coherent.keeps_ready (coherent : Coherent env names cache) (stocked : Stocked cache)
    (member : path ∈ names) (ready : Ready env now cache path next inode)
    (different : other ≠ path)
    : KeepsPath cache next other := by
  cases ready with
  | cached here found => exact coherent.keeps_set (mem_of_find found) different
  | loaded away lookup some => exact coherent.keeps_loaded stocked member lookup some different

/-- Taking a path off the links keeps the inodes that do not list it. -/
theorem keeps_decLinks
    (unlisted : ∀ inode, cache.find other = some inode → path ∉ inode.links)
    : KeepsPath cache (cache.decLinks path) other := by
  refine .of_find ?_ fun _ _ _ _ _ => rfl
  rw [find_decLinks]
  cases found : cache.find other with
  | none => rfl
  | some inode => rw [Option.map_some, if_neg (unlisted inode found)]

-----------------------------------------------------------------------------------------
-- Calls
-----------------------------------------------------------------------------------------

theorem plain_of_onFiles (onFiles : op.onFiles = true) (members : ∀ path ∈ op.paths, path ∈ names)
    : Plain names op where
  inside := by
    rintro path rfl
    cases onFiles
  members := members
  unlinked := by
    rintro from_ to_ rfl
    cases onFiles

/-- No operation on files touches the files on disk or what the loader knows of them. -/
theorem Effect.sameDisk (onFiles : op.onFiles = true) (effect : Effect env now cache op result next)
    : SameDisk cache next := by
  cases effect with
  | makeFile path mode dirty => exact ⟨rfl, rfl⟩
  | writeMissing missing => exact ⟨rfl, rfl⟩
  | write ready loop => exact ready.sameDisk.trans ⟨rfl, rfl⟩
  | truncateMissing away => exact ⟨rfl, rfl⟩
  | truncate here found => exact ⟨rfl, rfl⟩
  | removeMissing away => exact ⟨rfl, rfl⟩
  | remove here noNulls found => exact ⟨rfl, rfl⟩
  | rmdirMissing away => exact ⟨rfl, rfl⟩
  | rmdir here found => exact ⟨rfl, rfl⟩
  | renameMissing missing => exact ⟨rfl, rfl⟩
  | renameOver ensured target found =>
      exact (ensured.sameDisk.trans target.sameDisk).trans ⟨rfl, rfl⟩
  | renameNew ensured target was found => exact ensured.sameDisk.trans ⟨rfl, rfl⟩
  | open_ ensured => exact ensured.sameDisk
  | read ensured found bytes => exact ensured.sameDisk
  | _ => cases onFiles

/-- A call that removes no ref of another path keeps all other paths. -/
theorem Coherent.keepsOthers (coherent : Coherent env names cache) (stocked : Stocked cache)
    (onFiles : op.onFiles = true) (members : ∀ path ∈ op.paths, path ∈ names)
    (kept : ¬ RemovesRef cache op) (effect : Effect env now cache op result next)
    : KeepsOthers cache op next := by
  intro other unnamed _
  cases effect with
  | makeFile path mode dirty =>
      have different := List.ne_of_not_mem_cons unnamed
      exact coherent.keeps_makeFile mode dirty (members path (List.mem_cons_self ..)) different
  | writeMissing missing => exact .refl cache other
  | @write path buf offset middle inode state ready loop =>
      have different := List.ne_of_not_mem_cons unnamed
      have member := members path (List.mem_cons_self ..)
      exact (coherent.keeps_ready stocked member ready different).trans
        ((coherent.ready member ready).keeps_written (stocked.ready ready) ready.found loop
          different)
  | truncateMissing away => exact .refl cache other
  | truncate here found =>
      exact coherent.keeps_set (mem_of_find found) (List.ne_of_not_mem_cons unnamed)
  | removeMissing away => exact .refl cache other
  | @remove path inode here noNulls found =>
      have different := List.ne_of_not_mem_cons unnamed
      have unlisted : ∀ inode, cache.find other = some inode → path ∉ inode.links :=
        fun inode known listed => kept ⟨path, other, inode, rfl, here, different, known, listed⟩
      have emptied : KeepsPath cache ((cache.decLinks path).deleted now path inode) other :=
        (keeps_decLinks unlisted).trans
          ((coherent.decLinks path).keeps_set (mem_of_find found) different)
      exact emptied.congr rfl rfl rfl
  | rmdirMissing away => exact .refl cache other
  | rmdir here found =>
      exact coherent.keeps_set (mem_of_find found) (List.ne_of_not_mem_cons unnamed)
  | renameMissing missing => exact .refl cache other
  | @renameOver from_ to_ first second source ensured target found =>
      have notFrom := List.ne_of_not_mem_cons unnamed
      have notTo := List.ne_of_not_mem_cons (List.not_mem_of_not_mem_cons unnamed)
      have fromMember := members from_ (List.mem_cons_self ..)
      have toMember := members to_ (List.mem_cons_of_mem _ (List.mem_singleton_self _))
      have ready := coherent.ensured fromMember ensured
      exact ((coherent.keeps_ensured stocked fromMember ensured notFrom).trans
        (ready.keeps_ensured (stocked.ensured ensured) toMember target notTo)).trans
        ((ready.ensured toMember target).keeps_moved toMember found notFrom notTo)
  | @renameNew from_ to_ first old source ensured target was found =>
      have notFrom := List.ne_of_not_mem_cons unnamed
      have notTo := List.ne_of_not_mem_cons (List.not_mem_of_not_mem_cons unnamed)
      have fromMember := members from_ (List.mem_cons_self ..)
      have toMember := members to_ (List.mem_cons_of_mem _ (List.mem_singleton_self _))
      have ready := coherent.ensured fromMember ensured
      exact ((coherent.keeps_ensured stocked fromMember ensured notFrom).trans
        (ready.keeps_makeFile _ _ toMember notTo)).trans
        ((ready.makeFile _ _ toMember).keeps_moved toMember found notFrom notTo)
  | open_ ensured =>
      exact coherent.keeps_ensured stocked (members _ (List.mem_cons_self ..)) ensured
        (List.ne_of_not_mem_cons unnamed)
  | read ensured found bytes =>
      exact coherent.keeps_ensured stocked (members _ (List.mem_cons_self ..)) ensured
        (List.ne_of_not_mem_cons unnamed)
  | _ => cases onFiles

theorem pred_ne (count : UInt32) : count - 1 ≠ count := by
  intro same
  have none : (1 : UInt32) = 0 := by grind
  exact absurd none (by decide)

/-- A removal of a ref lowers the link count of the inode that lists it. -/
theorem Coherent.not_keepsOthers (coherent : Coherent env names cache)
    (removes : RemovesRef cache op) (effect : Effect env now cache op result next)
    : ¬ KeepsOthers cache op next := by
  obtain ⟨path, other, inode, rfl, here, different, found, listed⟩ := removes
  intro keeps
  cases effect with
  | removeMissing away => simp [here] at away
  | @remove _ removed _ _ known =>
      have unnamed : other ∉ (Op.remove path).paths := by
        simpa only [Op.paths, List.mem_singleton] using different
      have lowered : ((cache.decLinks path).set path (removed.deleteInode now)).find other
          = some (inode.decLink path) := by
        rw [(coherent.decLinks path).find_set (mem_of_find known), if_neg different,
          find_decLinks, found, Option.map_some, if_pos listed]
      have kept : KeepsPath cache ((cache.decLinks path).deleted now path removed) other :=
        KeepsPath.congr (keeps other unnamed (mem_of_find found)) rfl rfl rfl
      obtain ⟨after, there, -, links⟩ := kept inode found
      obtain rfl := Option.some.inj (lowered.symm.trans there)
      have less : inode.nlink - 1 = inode.nlink := links
      exact absurd less (pred_ne inode.nlink)

/-- In every state reached by operations on files, a call of such an operation keeps all cached
paths that it does not name, exactly if it is not a removal of a cached path that another cached
path lists in its refs. The names have different hashes.
-/
theorem others_kept_iff {disk : List Image} {order : VisitOrder} {size : Nat}
    {events : List Event} {event : Event}
    (run : Run (Steps env) (BlockCache.new disk order size) events cache)
    (onFiles : ∀ earlier ∈ events ++ [event], earlier.op.onFiles = true)
    (apart : Set.InjOn (Util.cryptoHash env) (named (events ++ [event])))
    (taken : Steps env cache event next)
    : KeepsOthers cache event.op next ↔ ¬ RemovesRef cache event.op := by
  have inside (earlier : Event) (member : earlier ∈ events ++ [event])
      : ∀ path ∈ earlier.op.paths, path ∈ named (events ++ [event]) :=
    fun path listed => ⟨earlier, member, listed⟩
  have coherent : Coherent env (named (events ++ [event])) cache :=
    Coherent.run run (fun earlier before =>
      have member := List.mem_append_left _ before
      plain_of_onFiles (onFiles earlier member) (inside earlier member)) apart
  have last : event ∈ events ++ [event] := List.mem_append_right _ (List.mem_singleton_self event)
  constructor
  · exact fun keeps removes => coherent.not_keepsOthers removes (step_effect taken) keeps
  · exact fun kept => coherent.keepsOthers (Stocked.run run) (onFiles event last)
      (inside event last) kept (step_effect taken)

/-- A second file is created. -/
theorem others_kept_iff_second
    : KeepsOthers withFile (.makeFile [47, 98] 0o100644 true)
        (withFile.makeFile Util.twoDigests (.at_ 2) [47, 98] 0o100644 true)
      ↔ ¬ RemovesRef withFile (.makeFile [47, 98] 0o100644 true) := by
  have run : Run (Steps Util.twoDigests) fresh
      [⟨.at_ 1, .makeFile [47, 97] 0o100644 true, 0⟩] withFile := .snoc .nil rfl
  have taken : Steps Util.twoDigests withFile ⟨.at_ 2, .makeFile [47, 98] 0o100644 true, 0⟩
      (withFile.makeFile Util.twoDigests (.at_ 2) [47, 98] 0o100644 true) := rfl
  refine others_kept_iff run (by simp [Op.onFiles]) (twoDigests_apart.mono ?_) taken
  rintro path ⟨event, member, listed⟩
  rcases List.mem_cons.mp member with rfl | member
  · exact Or.inl (List.mem_singleton.mp listed)
  · obtain rfl := List.mem_singleton.mp member
    exact Or.inr (List.mem_singleton.mp listed)

/-- A file is written and renamed, and its old name is removed: the new name loses its link and
its block.
-/
theorem remove_empties_other
    : ∃ cache next before after,
        Run (Steps Util.twoDigests) fresh
          [⟨.at_ 1, .makeFile [47, 97] 0o100644 true, 0⟩, ⟨.at_ 2, .write [47, 97] [1] 0, 1⟩,
            ⟨.at_ 3, .rename [47, 97] [47, 98], 0⟩] cache
        ∧ Steps Util.twoDigests cache ⟨.at_ 4, .remove [47, 97], 0⟩ next
        ∧ cache.find [47, 98] = some before ∧ before.nlink = 1 ∧ 0 ∈ before.blocks
        ∧ next.find [47, 98] = some after ∧ after.nlink = 0 ∧ after.blocks = ∅
        ∧ ¬ KeepsOthers cache (.remove [47, 97]) next := by
  have tested : (replay Util.twoDigests fresh (List.map .call
        [⟨.at_ 1, .makeFile [47, 97] 0o100644 true, 0⟩, ⟨.at_ 2, .write [47, 97] [1] 0, 1⟩,
          ⟨.at_ 3, .rename [47, 97] [47, 98], 0⟩])).toOption.any
      (fun cache => (cache.find [47, 98]).any (fun before => before.nlink = 1 ∧ 0 ∈ before.blocks)
        && (cache.remove (.at_ 4) [47, 97]).toOption.any (fun out => out.1 = 0
          ∧ (out.2.find [47, 98]).any (fun after => after.nlink = 0 ∧ after.blocks.isEmpty)))
      = true := by
    decide +kernel
  obtain ⟨cache, run, shown⟩ := exists_calls tested
  obtain ⟨one, two⟩ := (Bool.and_eq_true _ _).mp shown
  obtain ⟨before, found, marks⟩ := (Option.any_eq_true _ _).mp one
  obtain ⟨link, block⟩ := of_decide_eq_true marks
  obtain ⟨⟨result, next⟩, outcome, marks'⟩ := (Option.any_eq_true _ _).mp two
  obtain ⟨rfl, there⟩ := of_decide_eq_true marks'
  obtain ⟨after, known, marks''⟩ := (Option.any_eq_true _ _).mp there
  obtain ⟨unlinked, empty⟩ := of_decide_eq_true marks''
  have taken : Steps Util.twoDigests cache ⟨.at_ 4, .remove [47, 97], 0⟩ next := by
    rw [Steps, step]
    cases removed : cache.remove (.at_ 4) [47, 97] with
    | error fault => simp [removed, Except.toOption] at outcome
    | ok out => rw [removed] at outcome; exact congrArg Except.ok (Option.some.inj outcome)
  refine ⟨cache, next, before, after, run, taken, found, link, block, known, unlinked,
    Std.ExtTreeMap.isEmpty_iff.mp empty, ?_⟩
  intro keeps
  obtain ⟨after', known', -, links⟩ :=
    keeps [47, 98] (by decide) (mem_of_find found) before found
  obtain rfl := Option.some.inj (known.symm.trans known')
  rw [link, unlinked] at links
  exact absurd links (by decide)

end BlockCache

end ZippyFS
