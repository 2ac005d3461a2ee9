import ZippyFS.Cache.Archive
import ZippyFS.Cache.Ownership

/-! Link counts, refs and the deleted mark of cached inodes. Links are never made, so a live inode
is linked by its own path only; but a write to a deleted inode brings it back without links, and a
rename gives its target the links of its source.
-/

namespace ZippyFS

open Runs

/-- What the three members say about each other. -/
structure Inode.Linked (inode : Inode) : Prop where
  live : inode.deleted = false → inode.nlink ≠ 0 ∧ inode.links = {inode.path}
  dead : inode.deleted = true → inode.nlink = 0 ∧ inode.links = ∅

/-- The members that count links are the same. -/
structure Inode.SameLinks (old new : Inode) : Prop where
  path : new.path = old.path
  deleted : new.deleted = old.deleted
  nlink : new.nlink = old.nlink
  links : new.links = old.links

theorem Inode.Linked.congr {old new : Inode} (linked : old.Linked) (same : Inode.SameLinks old new)
    : new.Linked where
  live := by
    rw [same.deleted, same.nlink, same.links, same.path]
    exact linked.live
  dead := by
    rw [same.deleted, same.nlink, same.links]
    exact linked.dead

/-- A record on disk counts at least one link unless it is deleted. -/
def AddCall.Linked (call : AddCall) : Prop := call.inode.deleted = false → call.inode.nlink ≠ 0

namespace BlockCache

variable {env : Env} {now : Clock} {cache next : BlockCache} {path : Bytes} {result : Int}
  {inode : Inode} {names : Set Bytes}

-----------------------------------------------------------------------------------------
-- The bookkeeping, and the turns that keep it
-----------------------------------------------------------------------------------------

/-- The links of all cached inodes are in order, and none can be taken off a link count of 0. -/
structure LinksInOrder (cache : BlockCache) : Prop where
  live
    : ∀ (path : Bytes) (inode : Inode), cache.find path = some inode → inode.deleted = false
      → 1 ≤ inode.nlink.toNat ∧ path ∈ inode.links
        ∧ ∀ other ∈ cache.inodeIdx, other ∈ inode.links → other = path
  dead
    : ∀ (path : Bytes) (inode : Inode), cache.find path = some inode → inode.deleted = true
      → inode.nlink = 0 ∧ inode.links = ∅
  decrements
    : ∀ (id path : Bytes) (inode : Inode), cache.ptr id = some inode → path ∈ inode.links
      → inode.nlink ≠ 0

/-- A turn brings back no deleted inode and gives no inode the links of another: no cached deleted
inode is written, and only a live inode is renamed, to its own path.
-/
def KeepsLinks (env : Env) (cache : BlockCache) : Turn → Prop
  | .restart _ _ => True
  | .call event =>
      match event.op with
      | .write path _ _ => ∀ inode, cache.find path = some inode → inode.deleted = false
      | .rename from_ to_ =>
          ∀ first, cache.ensureCached env event.now from_ = .ok (0, first)
            → from_ = to_ ∧ ∀ source, first.find from_ = some source → source.deleted = false
      | .symlink from_ to_ => from_ = to_
      | .getInodeByPath _ => False
      | _ => True

/-- All inodes behind the pointers are in order. -/
def AllLinked (cache : BlockCache) : Prop :=
  ∀ id inode, cache.ptr id = some inode → inode.Linked

/-- What every turn that keeps the links keeps. -/
structure LinksKept (env : Env) (names : Set Bytes) (cache : BlockCache) : Prop where
  coherent : Coherent env names cache
  linked : AllLinked cache
  backed : Backed env AddCall.Linked cache

/-- The order of the links, as the claim about cached paths. -/
theorem LinksKept.inOrder (kept : LinksKept env names cache) : LinksInOrder cache where
  live := by
    intro path inode found alive
    obtain ⟨some, links⟩ := (kept.linked _ inode (ptr_of_find found)).live alive
    rw [kept.coherent.own path inode found] at links
    refine ⟨?_, by simp [links], ?_⟩
    · rw [Nat.one_le_iff_ne_zero]
      exact fun zero => some (UInt32.toNat_inj.mp zero)
    · intro other _ member
      simpa [links] using member
  dead := fun path inode found gone => (kept.linked _ inode (ptr_of_find found)).dead gone
  decrements := by
    intro id path inode known member
    cases gone : inode.deleted with
    | false => exact ((kept.linked id inode known).live gone).1
    | true =>
        rw [((kept.linked id inode known).dead gone).2] at member
        simp at member

-----------------------------------------------------------------------------------------
-- Inodes one by one
-----------------------------------------------------------------------------------------

theorem AllLinked.congr (linked : AllLinked cache) (ptrs : next.inodePtrs = cache.inodePtrs)
    : AllLinked next := by
  intro id inode known
  rw [ptr, ptrs] at known
  exact linked id inode known

theorem AllLinked.put (linked : AllLinked cache) (path : Bytes) (ordered : inode.Linked)
    : AllLinked (cache.put path inode) := by
  intro id found known
  rw [ptr_put] at known
  split at known
  · rwa [← Option.some.inj known]
  · exact linked id found known

theorem AllLinked.set (linked : AllLinked cache) (path : Bytes) (ordered : inode.Linked)
    : AllLinked (cache.set path inode) := by
  intro id found known
  rw [ptr_set] at known
  split at known
  · rwa [← Option.some.inj known]
  · exact linked id found known

/-- A deleted inode has no links. -/
theorem deleteInode_linked (now : Clock) (inode : Inode) : (inode.deleteInode now).Linked where
  live := fun alive => nomatch alive
  dead := fun _ => ⟨rfl, rfl⟩

/-- A new inode is linked by its own path. -/
theorem new_linked (env : Env) (now : Clock) (path : Bytes) (mode : UInt32)
    : ((Inode.new env now path).setMode now mode).Linked where
  live := by
    intro _
    refine ⟨?_, rfl⟩
    simp only [Inode.setMode, Inode.new]
    split <;> simp
  dead := fun gone => nomatch gone

/-- A loaded inode has the link count that was found, unless it is deleted. -/
theorem loadedInode_linked (now : Clock) (path : Bytes) (alloc : Nat) {di : DiskInodeInfo}
    (found : di.deleted = false → di.nlink ≠ 0)
    : (loadedInode env now path alloc di).undoDirty.Linked := by
  have kept {A : Type} (member : Inode → A)
      (keeps
        : ∀ (inode : Inode) (blockIdx : Nat) (ref : BlockRef),
          member (inode.addBlock now blockIdx ref) = member inode)
      (inode : Inode) :=
    Inode.foldl_addBlock_keeps member now keeps di.blockData.toList alloc inode
  have same (inode : Inode) : Inode.SameLinks inode (di.blockData.toList.foldl
      (fun inode blk => inode.addBlock now blk.1 (alloc, blk.1)) inode).undoDirty :=
    ⟨kept Inode.path (fun _ _ _ => rfl) inode, kept Inode.deleted (fun _ _ _ => rfl) inode,
      kept Inode.nlink (fun _ _ _ => rfl) inode, kept Inode.links (fun _ _ _ => rfl) inode⟩
  refine Inode.Linked.congr ?_ (same _)
  cases gone : di.deleted with
  | true => exact deleteInode_linked now _
  | false => exact ⟨fun _ => ⟨found gone, rfl⟩, fun marked => nomatch marked⟩

/-- What the disk gives for a path counts its links. -/
theorem Backed.nlink {di : DiskInodeInfo} (backed : Backed env AddCall.Linked cache)
    (lookup : cache.loader.findLatestInode env path true = .ok di) (some : di.mtime ≠ 0)
    : di.deleted = false → di.nlink ≠ 0 := by
  obtain ⟨call, linked, _, same⟩ := backed.loader.lookup lookup some
  have deleted : di.deleted = call.inode.deleted := congrArg Attributes.deleted same
  have nlink : di.nlink = call.inode.nlink := congrArg Attributes.nlink same
  rw [deleted, nlink]
  exact linked

-----------------------------------------------------------------------------------------
-- Calls
-----------------------------------------------------------------------------------------

theorem LinksKept.loaded {di : DiskInodeInfo} (kept : LinksKept env names cache) (now : Clock)
    (lookup : cache.loader.findLatestInode env path true = .ok di) (some : di.mtime ≠ 0)
    : AllLinked (cache.loaded env now path di) := by
  have allocated : AllLinked (cache.withBlocks di) := kept.linked.congr rfl
  exact allocated.put path
    (loadedInode_linked now path cache.allocs (kept.backed.nlink lookup some))

theorem LinksKept.ensured (kept : LinksKept env names cache)
    (ensured : Ensured env now cache path result next)
    : AllLinked next := by
  cases ensured with
  | cached here => exact kept.linked
  | absent away lookup none => exact kept.linked
  | loaded away lookup some => exact kept.loaded now lookup some

/-- The inode that a write goes on with is in order, if no deleted one is brought back. -/
theorem LinksKept.ready {middle : BlockCache} (kept : LinksKept env names cache)
    (alive : ∀ inode, cache.find path = some inode → inode.deleted = false)
    (ready : Ready env now cache path middle inode)
    : AllLinked middle ∧ inode.Linked := by
  cases ready with
  | @cached inode here found =>
      have ordered : inode.setDirty.remakeInode.Linked :=
        (kept.linked _ inode (ptr_of_find found)).congr ⟨rfl, (alive inode found).symm, rfl, rfl⟩
      exact ⟨kept.linked.set path ordered, ordered⟩
  | loaded away lookup some =>
      exact ⟨kept.loaded now lookup some,
        loadedInode_linked now path cache.allocs (kept.backed.nlink lookup some)⟩

/-- The block loop of a write counts no links. -/
theorem runLoop_sameLinks {buf : Bytes} {offset : Nat} {state : Writing}
    (loop : cache.runLoop now path buf offset inode = .ok state)
    : Inode.SameLinks inode state.inode := by
  refine writeLoop_invariant (P := fun state => Inode.SameLinks inode state.inode) ?_ loop ?_
  · intro blockIdx currIdx blockSize offsetAmt state same
    unfold writeBlock
    split
    · exact ⟨same.path, same.deleted, same.nlink, same.links⟩
    · exact ⟨same.path, same.deleted, same.nlink, same.links⟩
  · unfold grown
    split <;> exact ⟨rfl, rfl, rfl, rfl⟩

/-- A removal takes links off the removed inode only, which is deleted next. -/
theorem LinksKept.removed (kept : LinksKept env names cache)
    (found : (cache.decLinks path).find path = some inode)
    : AllLinked ((cache.decLinks path).deleted now path inode) := by
  have filed := ((kept.coherent.decLinks path).idx (mem_of_find found)).1
  intro id other known
  change ((cache.decLinks path).set path (inode.deleteInode now)).ptr id = some other at known
  rw [ptr_set] at known
  split at known
  · rw [← Option.some.inj known]
    exact deleteInode_linked now inode
  · next elsewhere =>
      rw [ptr_decLinks, Option.map_eq_some_iff] at known
      obtain ⟨before, there, rfl⟩ := known
      have ordered := kept.linked id before there
      have unlisted : path ∉ before.links := by
        intro listed
        apply elsewhere
        cases gone : before.deleted with
        | true =>
            rw [(ordered.dead gone).2] at listed
            simp at listed
        | false =>
            rw [(ordered.live gone).2, Finset.mem_singleton] at listed
            obtain ⟨same, pointer, own, named, _⟩ :=
              kept.coherent.pointed.pointers id (some before) (Option.join_eq_some_iff.mp there)
            obtain rfl := Option.some.inj pointer
            rw [filed, Option.getD_some, ← own, named, listed]
      rwa [if_neg unlisted]

/-- A path that was ensured is cached, so it is not looked for again. -/
theorem Ensured.inCache (ensured : Ensured env now cache path 0 next)
    : next.inCache path = true := by
  cases ensured with
  | cached here => exact here
  | loaded away lookup some => simp [BlockCache.inCache, BlockCache.loaded, BlockCache.put]

theorem Ensured.of_inCache (here : cache.inCache path = true)
    (ensured : Ensured env now cache path result next)
    : result = 0 ∧ next = cache := by
  cases ensured with
  | cached _ => exact ⟨rfl, rfl⟩
  | absent away lookup none => simp [here] at away
  | loaded away lookup some => simp [here] at away

/-- A live inode that is renamed to its own path keeps its own link. -/
theorem Coherent.moved_linked (coherent : Coherent env names cache) (linked : AllLinked cache)
    (found : cache.find path = some inode) (alive : inode.deleted = false)
    : AllLinked (cache.moved env now path path inode) := by
  have own := coherent.own path inode found
  obtain ⟨some, links⟩ := (linked _ inode (ptr_of_find found)).live alive
  have copied : (Inode.copyOf env now path inode).Linked :=
    ⟨fun _ => ⟨some, links.trans (by rw [own]; rfl)⟩, fun gone => nomatch gone⟩
  exact ((linked.set path (deleteInode_linked now inode)).put path copied).congr rfl

/-- A flush drops all pointers. -/
theorem AllLinked.flushed (linked : AllLinked cache) (flush : Flushed env cache result next)
    : AllLinked next := by
  cases flush with
  | nothing unchanged => exact linked
  | flushed changed filled =>
      intro id inode known
      simp [ptr, BlockCache.flushed] at known

/-- A turn that keeps the links keeps all inodes in order. -/
theorem LinksKept.effect {event : Event} (kept : LinksKept env names cache)
    (plain : Plain names event.op) (keeps : KeepsLinks env cache (.call event))
    (effect : Effect env event.now cache event.op result next)
    : AllLinked next := by
  obtain ⟨now, op, _⟩ := event
  cases effect with
  | makeFile path mode dirty =>
      cases dirty with
      | false => exact (kept.linked.put path (new_linked env now path mode)).congr rfl
      | true =>
          have ordered : (((Inode.new env now path).setMode now mode).setDirty).Linked :=
            (new_linked env now path mode).congr ⟨rfl, rfl, rfl, rfl⟩
          exact (kept.linked.put path ordered).congr rfl
  | writeMissing missing => exact kept.linked
  | @write path buf offset middle inode state ready loop =>
      obtain ⟨linked, ordered⟩ := kept.ready keeps ready
      exact (linked.set path (ordered.congr (runLoop_sameLinks loop))).congr rfl
  | truncateMissing away => exact kept.linked
  | @truncate path size inode here found =>
      have ordered : (inode.setSize now size).Linked :=
        (kept.linked _ inode (ptr_of_find found)).congr ⟨rfl, rfl, rfl, rfl⟩
      exact (kept.linked.set path ordered).congr rfl
  | removeMissing away => exact kept.linked
  | @remove path inode here noNulls found =>
      have emptied : AllLinked ((cache.decLinks path).deleted now path inode) := kept.removed found
      exact emptied.congr rfl
  | rmdirMissing away => exact kept.linked
  | rmdir here found => exact (kept.linked.set _ (deleteInode_linked now _)).congr rfl
  | renameMissing missing => exact kept.linked
  | @renameOver from_ to_ first second source ensured target found =>
      obtain ⟨rfl, alive⟩ := keeps first ensured.eq
      obtain ⟨-, rfl⟩ := target.of_inCache ensured.inCache
      have member := plain.members from_ (List.mem_cons_self ..)
      exact (kept.coherent.ensured member ensured).moved_linked (kept.ensured ensured) found
        (alive source found)
  | @renameNew from_ to_ first old source ensured target was found =>
      obtain ⟨rfl, _⟩ := keeps first ensured.eq
      obtain ⟨result, -⟩ := target.of_inCache ensured.inCache
      exact absurd result (by decide)
  | symlink from_ to_ =>
      obtain rfl := plain.unlinked from_ to_ rfl
      exact (kept.linked.put from_ (new_linked env now from_ _)).congr rfl
  | open_ ensured => exact kept.ensured ensured
  | read ensured found bytes => exact kept.ensured ensured
  | readlink outcome => exact kept.linked
  | getattr outcome => exact kept.linked
  | getRefs outcome => exact kept.linked
  | inCache path => exact kept.linked
  | loadFromDisk loaded =>
      cases loaded with
      | absent lookup none => exact kept.linked
      | kept here found lookup some newer => exact kept.linked.congr rfl
      | replaced here found lookup some older => exact kept.loaded now lookup some
      | loaded away lookup some => exact kept.loaded now lookup some
  | getInodeByPath path => exact keeps.elim
  | flushToDisk flushed => exact kept.linked.flushed flushed
  | flushToShdwKept small => exact kept.linked
  | flushToShdw flushed => exact kept.linked.flushed flushed
  | loadTrees order => exact kept.linked.congr rfl
  | readdir order path => exact kept.linked.congr rfl

-----------------------------------------------------------------------------------------
-- Runs
-----------------------------------------------------------------------------------------

/-- A turn that keeps the links, by a process that names known paths only. -/
theorem LinksKept.turn {turn : Turn} (kept : LinksKept env names cache)
    (members : ∀ path ∈ turn.paths, path ∈ names) (keeps : KeepsLinks env cache turn)
    (taken : Turns env cache turn next)
    : LinksKept env names next := by
  cases turn with
  | restart order size =>
      obtain rfl : next = BlockCache.new cache.disk order size := taken
      refine ⟨Coherent.new _ _ _ kept.coherent.apart, ?_, Backed.restart kept.backed.disk _ _⟩
      intro id inode known
      simp [ptr, BlockCache.new] at known
  | call event =>
      have plain : Plain names event.op := by
        refine ⟨?_, members, ?_⟩
        · intro path same
          simp only [KeepsLinks, same] at keeps
        · intro from_ to_ same
          simpa only [KeepsLinks, same] using keeps
      have effect := step_effect taken
      refine ⟨kept.coherent.effect plain effect, kept.effect plain keeps effect, ?_⟩
      refine kept.backed.effect kept.coherent.pointed (fun _ => kept.coherent.flushFits) ?_ effect
      intro path inode found alive
      exact ((kept.linked _ inode (ptr_of_find found)).live alive).1

/-- In every run from an empty directory, through any number of processes, whose turns all keep
the links, the links are in order in every state.
-/
theorem links_in_order {order : VisitOrder} {size : Nat} {turns : List Turn}
    (run
      : Run (fun cache turn next => Turns env cache turn next ∧ KeepsLinks env cache turn)
        (BlockCache.new [] order size) turns cache)
    (apart : Set.InjOn (Util.cryptoHash env) (namedIn turns))
    : LinksInOrder cache := by
  have start : LinksKept env (namedIn turns) (BlockCache.new [] order size) := by
    refine ⟨Coherent.new _ _ _ apart, ?_, Backed.restart (by simp [Archived]) _ _⟩
    intro id inode known
    simp [ptr, BlockCache.new] at known
  have kept : LinksKept env (namedIn turns) cache := by
    refine run.recorded.state_invariant start ?_
    rintro state turn next kept ⟨member, taken, keeps⟩
    exact kept.turn (fun path named => ⟨turn, member, named⟩) keeps taken
  exact kept.inOrder

/-- A run that creates a file and removes it. -/
theorem links_in_order_removed
    : ∃ cache,
        Run (Turns Util.twoDigests) fresh
          [.call ⟨.at_ 1, .makeFile [47, 97] 0o100644 true, 0⟩,
            .call ⟨.at_ 2, .remove [47, 97], 0⟩] cache
        ∧ LinksInOrder cache := by
  obtain ⟨cache, removed⟩ := withFile_removed
  have run : Run (fun cache turn next => Turns Util.twoDigests cache turn next
        ∧ KeepsLinks Util.twoDigests cache turn) fresh
      [.call ⟨.at_ 1, .makeFile [47, 97] 0o100644 true, 0⟩,
        .call ⟨.at_ 2, .remove [47, 97], 0⟩] cache :=
    .snoc (.snoc .nil ⟨rfl, trivial⟩) ⟨removed, trivial⟩
  refine ⟨cache, run.weaken fun _ _ _ both => both.1,
    links_in_order run (twoDigests_apart.mono ?_)⟩
  rintro path ⟨turn, member, among⟩
  rcases List.mem_cons.mp member with rfl | later
  · exact Or.inl (List.mem_singleton.mp among)
  · obtain rfl := List.mem_singleton.mp later
    exact Or.inl (List.mem_singleton.mp among)

/-- A removed file that is written again is live and has no link. -/
theorem links_lost
    : ∃ cache,
        Run (Turns Util.twoDigests) fresh
          [.call ⟨.at_ 1, .makeFile [47, 97] 0o100644 true, 0⟩,
            .call ⟨.at_ 2, .remove [47, 97], 0⟩, .call ⟨.at_ 3, .write [47, 97] [1] 0, 1⟩] cache
        ∧ ¬ LinksInOrder cache := by
  have unlinked : (replay Util.twoDigests fresh
        [.call ⟨.at_ 1, .makeFile [47, 97] 0o100644 true, 0⟩,
          .call ⟨.at_ 2, .remove [47, 97], 0⟩,
          .call ⟨.at_ 3, .write [47, 97] [1] 0, 1⟩]).toOption.any
      (fun cache => (cache.find [47, 97]).any (fun inode => !inode.deleted ∧ inode.nlink = 0))
      = true := by
    decide +kernel
  obtain ⟨cache, run, shown⟩ := exists_run unlinked
  refine ⟨cache, run, ?_⟩
  intro ordered
  obtain ⟨inode, found, marks⟩ := (Option.any_eq_true _ _).mp shown
  obtain ⟨alive, none⟩ := of_decide_eq_true marks
  have some := (ordered.live _ inode found (by simpa using alive)).1
  rw [none] at some
  exact absurd some (by decide)

end BlockCache

end ZippyFS
