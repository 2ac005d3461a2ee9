import ZippyFS.Cache.Flush
import ZippyFS.Lib.Outcomes

/-! Symbolic links. `symlink` makes an empty inode named after the target and files it under the
link: the bytes of the target are stored nowhere as contents, and the inode of a cached target is
replaced.
-/

namespace ZippyFS

open Runs Outcomes

namespace BlockCache

variable {env : Env} {now : Clock} {cache next : BlockCache} {names : Set Bytes}
  {from_ to_ other : Bytes}

-----------------------------------------------------------------------------------------
-- What a link is for
-----------------------------------------------------------------------------------------

/-- A call stored the text into its buffer and said how long it is, by its result or by a
terminator.
-/
structure Delivers (text bytes : Bytes) (result : Int) : Prop where
  stored : bytes.take text.length = text
  ended : result = text.length ∨ bytes[text.length]? = some 0

/-- The link is found on disk, and the listing of its parent has it. -/
structure OnDisk (env : Env) (cache : BlockCache) (order : VisitOrder) (link : Bytes) : Prop where
  found
    : ∃ di, cache.loader.findLatestInode env link false = .ok di ∧ di.mtime ≠ 0
      ∧ di.deleted = false ∧ isLinkMode di.mode = true
  listed
    : ∃ entries next,
      cache.readdir order
          (if BPLUSIndexLoader.parentOf link = [] then [47] else BPLUSIndexLoader.parentOf link)
        = .ok (entries, next)
      ∧ ∃ entry ∈ entries, entry.path = link ∧ entry.deleted = false

/-- What a call of `symlink` should leave behind. -/
structure LinkMade (env : Env) (cache : BlockCache) (from_ to_ : Bytes) (next : BlockCache)
    : Prop where
  readable
    : ∀ size : Nat, from_.length < size
      → ∃ result bytes, next.readlink env to_ size = .ok (result, bytes)
        ∧ Delivers from_ bytes result
  attributes
    : ∃ stat, next.getattr env to_ = .ok (0, some stat) ∧ isLinkMode stat.stMode = true
  others
    : ∀ other, other ≠ to_
      → next.find other = cache.find other
        ∧ ∀ inode, cache.find other = some inode
          → ∀ (blockIdx : Nat) (ref : BlockRef), inode.blocks[blockIdx]? = some ref
            → next.heap ref = cache.heap ref
  persistent
    : ∀ (flushedAt order : VisitOrder) (result : Int) (flushed : BlockCache),
      next.flushToDisk env = .ok (result, flushed)
      → OnDisk env (flushed.loadTrees flushedAt) order to_

-----------------------------------------------------------------------------------------
-- What `symlink` leaves behind
-----------------------------------------------------------------------------------------

/-- The inode of a new link. -/
def linkInode (env : Env) (now : Clock) (from_ : Bytes) : Inode :=
  (Inode.new env now from_).setMode now (S_IFLNK ||| 0o600)

theorem linkInode_mode (env : Env) (now : Clock) (from_ : Bytes)
    : isLinkMode (linkInode env now from_).mode = true := by
  change isLinkMode (S_IFLNK ||| 0o600) = true
  decide

theorem find_symlink_self (env : Env) (now : Clock) (cache : BlockCache) (from_ to_ : Bytes)
    : (cache.symlink env now from_ to_).find to_ = some (linkInode env now from_) :=
  find_put_self _ _ _

/-- Reading a link stores nothing and returns the size of the buffer. -/
theorem readlink_symlink (env : Env) (now : Clock) (cache : BlockCache) (from_ to_ : Bytes)
    (size : Nat)
    : (cache.symlink env now from_ to_).readlink env to_ size = .ok (Util.toInt size, []) := by
  have found := find_symlink_self env now cache from_ to_
  have here : (cache.symlink env now from_ to_).inCache to_ = true := by
    simp [inCache, mem_of_find found]
  have nothing (heap : BlockRef → Block)
      : (linkInode env now from_).readBytes env heap size 0 = .ok [] := by
    have empty : (linkInode env now from_).blocks = ∅ := rfl
    unfold Inode.readBytes
    generalize 2 ^ 32 * (size + 1) = fuel
    rw [Inode.readLoop, if_neg]
    rw [empty]
    simp
  unfold readlink
  rw [if_pos here, getInodeByPath_eq_ok.mpr found, ok_bind, if_pos (linkInode_mode env now from_),
    Inode.read, nothing, ok_bind]

/-- Where every cached path has an inode of its own, the link takes the place of a cached target,
and other paths are left alone.
-/
theorem Coherent.find_symlink (coherent : Coherent env names cache) (member : from_ ∈ names)
    (different : other ≠ to_)
    : (cache.symlink env now from_ to_).find other
      = if other = from_ ∧ other ∈ cache.inodeIdx then some (linkInode env now from_)
        else cache.find other := by
  have elsewhere : ¬ compare to_ other = .eq := fun same =>
    different (Std.LawfulEqCmp.eq_of_compare same).symm
  by_cases here : other ∈ cache.inodeIdx
  · obtain ⟨known, own⟩ := coherent.idx here
    unfold find symlink BlockCache.put
    dsimp only
    rw [Std.ExtTreeMap.getElem?_insert, if_neg elsewhere, known]
    dsimp only
    rw [Std.ExtTreeMap.getElem?_insert]
    by_cases target : other = from_
    · have same : compare (Util.cryptoHash env from_) (Util.cryptoHash env other) = .eq :=
        target ▸ Std.ReflCmp.compare_self
      exact (congrArg Option.join (if_pos same)).trans (if_pos ⟨target, here⟩).symm
    · have apart : ¬ compare (Util.cryptoHash env from_) (Util.cryptoHash env other) = .eq :=
        fun same => target
          (coherent.apart own member (Std.LawfulEqCmp.eq_of_compare same).symm)
      exact (congrArg Option.join (if_neg apart)).trans (if_neg fun both => target both.1).symm
  · have outside := Std.ExtTreeMap.getElem?_eq_none here
    rw [if_neg (fun both => here (And.right both))]
    unfold find symlink BlockCache.put
    dsimp only
    rw [Std.ExtTreeMap.getElem?_insert, if_neg elsewhere, outside]

/-- A link to a path that is not cached leaves all other paths alone. -/
theorem Coherent.symlink_others (coherent : Coherent env names cache) (member : from_ ∈ names)
    (away : from_ ∉ cache.inodeIdx) (different : other ≠ to_)
    : (cache.symlink env now from_ to_).find other = cache.find other := by
  rw [coherent.find_symlink member different, if_neg]
  rintro ⟨rfl, here⟩
  exact away here

-----------------------------------------------------------------------------------------
-- No link is readable
-----------------------------------------------------------------------------------------

/-- Whatever the cache holds and whatever the names, the link that `symlink` makes does not
deliver its target.
-/
theorem symlink_not_linkMade (env : Env) (now : Clock) (cache : BlockCache) (from_ to_ : Bytes)
    : ¬ LinkMade env cache from_ to_ (cache.symlink env now from_ to_) := by
  intro made
  obtain ⟨result, bytes, outcome, delivers⟩ := made.readable (from_.length + 1) (Nat.lt_succ_self _)
  rw [readlink_symlink, Except.ok.injEq, Prod.mk.injEq] at outcome
  obtain ⟨rfl, rfl⟩ := outcome
  rcases delivers.ended with whole | terminated
  · -- neighbouring sizes stay apart as `int`s
    rw [Util.toInt, Int.bmod_def] at whole
    split at whole <;> omega
  · simp at terminated

/-- A link `/b` to the file `/a` is not readable, and the file is gone. -/
theorem symlink_made
    : Run (Steps Util.twoDigests) fresh
        [⟨.at_ 1, .makeFile [47, 97] 0o100644 true, 0⟩, ⟨.at_ 2, .symlink [47, 97] [47, 98], 0⟩]
        withLink
      ∧ withLink.readlink Util.twoDigests [47, 98] 16 = .ok (16, [])
      ∧ ¬ LinkMade Util.twoDigests withFile [47, 97] [47, 98] withLink := by
  have empty : withLink.readlink Util.twoDigests [47, 98] 16 = .ok (Util.toInt 16, []) :=
    readlink_symlink Util.twoDigests (.at_ 2) withFile [47, 97] [47, 98] 16
  rw [Util.toInt_of_lt (by decide) (by decide)] at empty
  refine ⟨.snoc (.snoc .nil rfl) rfl, empty, fun made => ?_⟩
  obtain ⟨result, bytes, outcome, delivers⟩ := made.readable 16 (by decide)
  rw [empty] at outcome
  obtain ⟨_, rfl⟩ := Prod.mk.inj (Except.ok.inj outcome)
  exact absurd delivers.stored (by decide)

end BlockCache

end ZippyFS
