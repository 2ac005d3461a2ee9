import ZippyFS.Cache.Operations

/-! What a call that returns leaves behind, one case for each way through an operation. Later
proofs use these cases and do not look at the operations again.
-/

namespace ZippyFS

namespace BlockCache

variable {env : Env} {now : Clock} {cache next : BlockCache} {path : Bytes} {result : Int}

-----------------------------------------------------------------------------------------
-- Descriptions
-----------------------------------------------------------------------------------------

/-- The cache after a path was loaded from what the loader found. -/
def loaded (env : Env) (now : Clock) (cache : BlockCache) (path : Bytes) (di : DiskInodeInfo)
    : BlockCache :=
  (cache.withBlocks di).put path (loadedInode env now path cache.allocs di).undoDirty

/-- What becomes of a path that is to be cached. -/
inductive Ensured (env : Env) (now : Clock) (cache : BlockCache) (path : Bytes)
    : Int → BlockCache → Prop
  | cached (here : cache.inCache path = true) : Ensured env now cache path 0 cache
  | absent {di : DiskInodeInfo} (away : cache.inCache path = false)
    (lookup : cache.loader.findLatestInode env path true = .ok di) (none : di.mtime = 0)
    : Ensured env now cache path (-1) cache
  | loaded {di : DiskInodeInfo} (away : cache.inCache path = false)
    (lookup : cache.loader.findLatestInode env path true = .ok di) (some : di.mtime ≠ 0)
    : Ensured env now cache path 0 (cache.loaded env now path di)

/-- The cache and the inode that `write` goes on with. -/
inductive Ready (env : Env) (now : Clock) (cache : BlockCache) (path : Bytes)
    : BlockCache → Inode → Prop
  | cached {inode : Inode} (here : cache.inCache path = true)
    (found : cache.find path = some inode)
    : Ready env now cache path (cache.set path inode.setDirty.remakeInode)
        inode.setDirty.remakeInode
  | loaded {di : DiskInodeInfo} (away : cache.inCache path = false)
    (lookup : cache.loader.findLatestInode env path true = .ok di) (some : di.mtime ≠ 0)
    : Ready env now cache path (cache.loaded env now path di)
        (loadedInode env now path cache.allocs di).undoDirty

/-- What becomes of a path that is loaded, cached or not. -/
inductive Loaded (env : Env) (now : Clock) (cache : BlockCache) (path : Bytes)
    : Int → BlockCache → Prop
  | absent {di : DiskInodeInfo} (lookup : cache.loader.findLatestInode env path true = .ok di)
    (none : di.mtime = 0)
    : Loaded env now cache path (-1) cache
  | kept {di : DiskInodeInfo} {inode : Inode} (here : cache.inCache path = true)
    (found : cache.find path = some inode)
    (lookup : cache.loader.findLatestInode env path true = .ok di) (some : di.mtime ≠ 0)
    (newer : inode.ulMtime ≥ di.mtime)
    : Loaded env now cache path 0 (cache.withBlocks di)
  | replaced {di : DiskInodeInfo} {inode : Inode} (here : cache.inCache path = true)
    (found : cache.find path = some inode)
    (lookup : cache.loader.findLatestInode env path true = .ok di) (some : di.mtime ≠ 0)
    (older : inode.ulMtime < di.mtime)
    : Loaded env now cache path 0 (cache.loaded env now path di)
  | loaded {di : DiskInodeInfo} (away : cache.inCache path = false)
    (lookup : cache.loader.findLatestInode env path true = .ok di) (some : di.mtime ≠ 0)
    : Loaded env now cache path 0 (cache.loaded env now path di)

/-- What a flush returns and leaves behind. -/
inductive Flushed (env : Env) (cache : BlockCache) : Int → BlockCache → Prop
  | nothing (unchanged : cache.hasChanged = false) : Flushed env cache (-1) cache
  | flushed {index : BPLUSIndex} (changed : cache.hasChanged = true)
    (filled : cache.fill env = .ok index)
    : Flushed env cache 0 (cache.flushed index)

/-- What a call returns and leaves behind. -/
inductive Effect (env : Env) (now : Clock) (cache : BlockCache) : Op → Int → BlockCache → Prop
  | makeFile (path : Bytes) (mode : UInt32) (dirty : Bool)
    : Effect env now cache (.makeFile path mode dirty) 0
        (cache.makeFile env now path mode dirty)
  | writeMissing {path buf : Bytes} {offset : Nat}
    (missing : Ensured env now cache path (-1) cache)
    : Effect env now cache (.write path buf offset) (-1) cache
  | write {path buf : Bytes} {offset : Nat} {middle : BlockCache} {inode : Inode}
    {state : Writing} (ready : Ready env now cache path middle inode)
    (loop : middle.runLoop now path buf offset inode = .ok state)
    : Effect env now cache (.write path buf offset) buf.length (middle.written path state)
  | truncateMissing {path : Bytes} {size : Nat} (away : cache.inCache path = false)
    : Effect env now cache (.truncate path size) (-1) cache
  | truncate {path : Bytes} {size : Nat} {inode : Inode} (here : cache.inCache path = true)
    (found : cache.find path = some inode)
    : Effect env now cache (.truncate path size) 0
        { cache.set path (inode.setSize now size) with hasChanged := true }
  | removeMissing {path : Bytes} (away : cache.inCache path = false)
    : Effect env now cache (.remove path) (-1) cache
  | remove {path : Bytes} {inode : Inode} (here : cache.inCache path = true)
    (noNulls : cache.noNulls = true)
    (found : (cache.decLinks path).find path = some inode)
    : Effect env now cache (.remove path) 0
        { (cache.decLinks path).deleted now path inode with
          size := (cache.size + (2 ^ 64 - 1)) % 2 ^ 64 }
  | rmdirMissing {path : Bytes} (away : cache.inCache path = false)
    : Effect env now cache (.rmdir path) (-1) cache
  | rmdir {path : Bytes} {inode : Inode} (here : cache.inCache path = true)
    (found : cache.find path = some inode)
    : Effect env now cache (.rmdir path) 0 (cache.deleted now path inode)
  | renameMissing {from_ to_ : Bytes} (missing : Ensured env now cache from_ (-1) cache)
    : Effect env now cache (.rename from_ to_) (-1) cache
  | renameOver {from_ to_ : Bytes} {first second : BlockCache} {source : Inode}
    (ensured : Ensured env now cache from_ 0 first)
    (target : Ensured env now first to_ 0 second) (found : second.find from_ = some source)
    : Effect env now cache (.rename from_ to_) 0 (second.moved env now from_ to_ source)
  | renameNew {from_ to_ : Bytes} {first : BlockCache} {old source : Inode}
    (ensured : Ensured env now cache from_ 0 first)
    (target : Ensured env now first to_ (-1) first) (was : first.find from_ = some old)
    (found : (first.makeFile env now to_ old.mode true).find from_ = some source)
    : Effect env now cache (.rename from_ to_) 0
        ((first.makeFile env now to_ old.mode true).moved env now from_ to_ source)
  | symlink (from_ to_ : Bytes)
    : Effect env now cache (.symlink from_ to_) 0 (cache.symlink env now from_ to_)
  | open_ {path : Bytes} {result : Int} {next : BlockCache}
    (ensured : Ensured env now cache path result next)
    : Effect env now cache (.open_ path) 0 next
  | read {path : Bytes} {size offset : Nat} {result : Int} {next : BlockCache} {inode : Inode}
    {bytes : Bytes} (ensured : Ensured env now cache path result next)
    (found : next.find path = some inode)
    (stored : inode.readBytes env next.heap size offset = .ok bytes)
    : Effect env now cache (.read path size offset) (Util.toInt size) next
  | readlink {path : Bytes} {size : Nat} {result : Int} {bytes : Bytes}
    (outcome : cache.readlink env path size = .ok (result, bytes))
    : Effect env now cache (.readlink path size) result cache
  | getattr {path : Bytes} {result : Int} {stat : Option Stat}
    (outcome : cache.getattr env path = .ok (result, stat))
    : Effect env now cache (.getattr path) result cache
  | getRefs {path : Bytes} {refs : Finset Bytes} (outcome : cache.getRefs path = .ok refs)
    : Effect env now cache (.getRefs path) 0 cache
  | inCache (path : Bytes)
    : Effect env now cache (.inCache path) (if cache.inCache path then 0 else -1) cache
  | loadFromDisk {path : Bytes} {result : Int} {next : BlockCache}
    (loaded : Loaded env now cache path result next)
    : Effect env now cache (.loadFromDisk path) result next
  | getInodeByPath (path : Bytes)
    : Effect env now cache (.getInodeByPath path) 0 (cache.indexed path)
  | flushToDisk {result : Int} {next : BlockCache} (flushed : Flushed env cache result next)
    : Effect env now cache .flushToDisk result next
  | flushToShdwKept (small : cache.size < MAX_SIZE)
    : Effect env now cache (.flushToShdw false) (-1) cache
  | flushToShdw {onClose : Bool} {result : Int} {next : BlockCache}
    (flushed : Flushed env cache result next)
    : Effect env now cache (.flushToShdw onClose) result next
  | loadTrees (order : VisitOrder)
    : Effect env now cache (.loadTrees order) 0 (cache.loadTrees order)
  | readdir (order : VisitOrder) (path : Bytes)
    : Effect env now cache (.readdir order path) 0 (cache.loadTrees order)

-----------------------------------------------------------------------------------------
-- The operations have these effects
-----------------------------------------------------------------------------------------

@[simp] theorem getInodeByPath_eq_ok {inode : Inode}
    : cache.getInodeByPath path = .ok inode ↔ cache.find path = some inode := by
  unfold getInodeByPath
  cases cache.find path <;> simp

/-- An inode that was put under its path is found there. -/
theorem find_put_self (cache : BlockCache) (path : Bytes) (inode : Inode)
    : (cache.put path inode).find path = some inode := by
  simp [find, put]

/-- An inode that replaced a cached one is found there. -/
theorem find_set_self {inode : Inode} (here : path ∈ cache.inodeIdx)
    : (cache.set path inode).find path = some inode := by
  obtain ⟨id, known⟩ :=
    Option.isSome_iff_exists.mp (Std.ExtTreeMap.isSome_getElem?_iff_mem.mpr here)
  simp [find, set, known]

/-- The inode that a write worked on is found under its path. -/
theorem find_written (here : path ∈ cache.inodeIdx) (state : Writing)
    : (cache.written path state).find path = some state.inode :=
  find_set_self here

/-- Only paths in the index have inodes. -/
theorem mem_of_find {inode : Inode} (found : cache.find path = some inode)
    : path ∈ cache.inodeIdx := by
  unfold find at found
  cases known : cache.inodeIdx[path]? with
  | none => simp [known] at found
  | some id => exact Std.ExtTreeMap.isSome_getElem?_iff_mem.mp (by rw [known]; rfl)

/-- A path that is loaded was not cached. -/
theorem loadFromDisk_ensured (away : cache.inCache path = false)
    (outcome : cache.loadFromDisk env now path = .ok (result, next))
    : Ensured env now cache path result next := by
  unfold loadFromDisk at outcome
  obtain ⟨di, lookup, outcome⟩ := bind_eq_ok.mp outcome
  by_cases none : di.mtime = 0
  · rw [if_pos none] at outcome
    obtain ⟨rfl, rfl⟩ := Prod.mk.inj (Except.ok.inj outcome)
    exact .absent away lookup none
  · rw [if_neg none, away, if_neg (by decide)] at outcome
    obtain ⟨rfl, rfl⟩ := Prod.mk.inj (Except.ok.inj outcome)
    exact .loaded away lookup none

/-- What `load_from_disk` does with any path. -/
theorem loadFromDisk_loaded (outcome : cache.loadFromDisk env now path = .ok (result, next))
    : Loaded env now cache path result next := by
  cases here : cache.inCache path with
  | false =>
      cases loadFromDisk_ensured here outcome with
      | cached there => simp [here] at there
      | absent away lookup none => exact .absent lookup none
      | loaded away lookup some => exact .loaded away lookup some
  | true =>
      unfold loadFromDisk at outcome
      obtain ⟨di, lookup, outcome⟩ := bind_eq_ok.mp outcome
      by_cases none : di.mtime = 0
      · rw [if_pos none] at outcome
        obtain ⟨rfl, rfl⟩ := Prod.mk.inj (Except.ok.inj outcome)
        exact .absent lookup none
      · rw [if_neg none, here, if_pos rfl] at outcome
        obtain ⟨inode, found, outcome⟩ := bind_eq_ok.mp outcome
        rw [getInodeByPath_eq_ok] at found
        by_cases newer : inode.ulMtime ≥ di.mtime
        · rw [if_pos newer] at outcome
          obtain ⟨rfl, rfl⟩ := Prod.mk.inj (Except.ok.inj outcome)
          exact .kept here found lookup none newer
        · rw [if_neg newer] at outcome
          obtain ⟨rfl, rfl⟩ := Prod.mk.inj (Except.ok.inj outcome)
          exact .replaced here found lookup none (Nat.lt_of_not_ge newer)

theorem flushToDisk_flushed (outcome : cache.flushToDisk env = .ok (result, next))
    : Flushed env cache result next := by
  unfold flushToDisk at outcome
  cases changed : cache.hasChanged with
  | true =>
      rw [changed, if_pos rfl] at outcome
      obtain ⟨index, filled, outcome⟩ := bind_eq_ok.mp outcome
      obtain ⟨rfl, rfl⟩ := Prod.mk.inj (Except.ok.inj outcome)
      exact .flushed changed filled
  | false =>
      rw [changed, if_neg (by decide)] at outcome
      obtain ⟨rfl, rfl⟩ := Prod.mk.inj (Except.ok.inj outcome)
      exact .nothing changed

theorem ensureCached_ensured (outcome : cache.ensureCached env now path = .ok (result, next))
    : Ensured env now cache path result next := by
  unfold ensureCached at outcome
  cases here : cache.inCache path with
  | true =>
      rw [here, if_pos rfl] at outcome
      obtain ⟨rfl, rfl⟩ := Prod.mk.inj (Except.ok.inj outcome)
      exact .cached here
  | false =>
      rw [here, if_neg (by decide)] at outcome
      exact loadFromDisk_ensured here outcome

/-- Loading a path that is on disk only. -/
theorem loadFromDisk_away {di : DiskInodeInfo} (now : Clock) (away : cache.inCache path = false)
    (lookup : cache.loader.findLatestInode env path true = .ok di) (found : di.mtime ≠ 0)
    : cache.loadFromDisk env now path = .ok (0, cache.loaded env now path di) := by
  unfold loadFromDisk
  rw [lookup]
  simp only [bind, Except.bind, if_neg found, away, Bool.false_eq_true, if_false]
  rfl

theorem Ensured.eq (ensured : Ensured env now cache path result next)
    : cache.ensureCached env now path = .ok (result, next) := by
  unfold ensureCached
  cases ensured with
  | cached here => rw [here, if_pos rfl]
  | absent away lookup none =>
      rw [away, if_neg (by decide), loadFromDisk, lookup]
      simp only [bind, Except.bind, if_pos none]
  | loaded away lookup some =>
      rw [away, if_neg (by decide), loadFromDisk_away now away lookup some]

/-- Ensuring a path gives 0 or -1, and -1 leaves the cache alone. -/
theorem Ensured.result_cases (ensured : Ensured env now cache path result next)
    : result = 0 ∨ (result = -1 ∧ next = cache) := by
  cases ensured with
  | cached => exact Or.inl rfl
  | absent => exact Or.inr ⟨rfl, rfl⟩
  | loaded => exact Or.inl rfl

/-- Ensuring a path leaves the loader alone. -/
theorem Ensured.loader (ensured : Ensured env now cache path result next)
    : next.loader = cache.loader := by
  cases ensured <;> rfl

/-- A write returns its count as an `int`. -/
theorem write_eq_ok_iff {buf : Bytes} {offset : Nat}
    : cache.write env now path buf offset = .ok (result, next)
      ↔ ∃ count, cache.writeCounted env now path buf offset = .ok (count, next)
        ∧ result = Util.toInt count := by
  unfold write
  rw [bind_eq_ok]
  constructor
  · rintro ⟨⟨count, after⟩, outcome, same⟩
    obtain ⟨rfl, rfl⟩ := Prod.mk.inj (Except.ok.inj same)
    exact ⟨count, outcome, rfl⟩
  · rintro ⟨count, outcome, rfl⟩
    exact ⟨(count, next), outcome, rfl⟩

theorem writeCounted_effect {buf : Bytes} {offset : Nat}
    (outcome : cache.writeCounted env now path buf offset = .ok (result, next))
    : Effect env now cache (.write path buf offset) result next := by
  unfold writeCounted at outcome
  obtain ⟨⟨found, middle⟩, ready, outcome⟩ := bind_eq_ok.mp outcome
  dsimp only at outcome
  unfold readyToWrite at ready
  cases here : cache.inCache path with
  | true =>
      rw [here, if_pos rfl] at ready
      obtain ⟨inode, known, same⟩ := bind_eq_ok.mp ready
      obtain ⟨rfl, rfl⟩ := Prod.mk.inj (Except.ok.inj same)
      rw [getInodeByPath_eq_ok] at known
      rw [if_neg (by decide)] at outcome
      obtain ⟨again, there, outcome⟩ := bind_eq_ok.mp outcome
      obtain ⟨state, loop, outcome⟩ := bind_eq_ok.mp outcome
      rw [getInodeByPath_eq_ok, find_set_self (mem_of_find known), Option.some.injEq] at there
      obtain ⟨rfl, rfl⟩ := Prod.mk.inj (Except.ok.inj outcome)
      subst there
      exact .write (.cached here known) loop
  | false =>
      rw [here, if_neg (by decide)] at ready
      cases loadFromDisk_ensured here ready with
      | cached there => simp [here] at there
      | absent away lookup none =>
          rw [if_pos rfl] at outcome
          obtain ⟨rfl, rfl⟩ := Prod.mk.inj (Except.ok.inj outcome)
          exact .writeMissing (.absent away lookup none)
      | loaded away lookup some =>
          rw [if_neg (by decide)] at outcome
          obtain ⟨again, there, outcome⟩ := bind_eq_ok.mp outcome
          obtain ⟨state, loop, outcome⟩ := bind_eq_ok.mp outcome
          rw [getInodeByPath_eq_ok, loaded, find_put_self, Option.some.injEq] at there
          obtain ⟨rfl, rfl⟩ := Prod.mk.inj (Except.ok.inj outcome)
          subst there
          exact .write (.loaded away lookup some) loop

theorem rename_effect {from_ to_ : Bytes}
    (outcome : cache.rename env now from_ to_ = .ok (result, next))
    : Effect env now cache (.rename from_ to_) result next := by
  unfold rename at outcome
  obtain ⟨⟨res, first⟩, ready, rest⟩ := bind_eq_ok.mp outcome
  clear outcome
  dsimp only at rest
  have ensured := ensureCached_ensured ready
  rcases ensured.result_cases with rfl | ⟨rfl, rfl⟩
  · rw [if_neg (by decide)] at rest
    obtain ⟨⟨res, second⟩, ready', rest⟩ := bind_eq_ok.mp rest
    obtain ⟨old, was, rest⟩ := bind_eq_ok.mp rest
    obtain ⟨source, found, rest⟩ := bind_eq_ok.mp rest
    obtain ⟨rfl, rfl⟩ := Prod.mk.inj (Except.ok.inj rest)
    rw [getInodeByPath_eq_ok] at was found
    dsimp only at was found ⊢
    have target := ensureCached_ensured ready'
    rcases target.result_cases with rfl | ⟨rfl, rfl⟩
    · rw [if_neg (by decide)] at found ⊢
      exact .renameOver ensured target found
    · rw [if_pos rfl] at found ⊢
      exact .renameNew ensured target was found
  · rw [if_pos rfl] at rest
    obtain ⟨rfl, rfl⟩ := Prod.mk.inj (Except.ok.inj rest)
    exact .renameMissing ensured

/-- Every call that returns has one of the listed effects. -/
theorem step_effect {op : Op} (outcome : step env now cache op = .ok (result, next))
    : Effect env now cache op result next := by
  cases op with
  | makeFile path mode dirty =>
      obtain ⟨rfl, rfl⟩ := Prod.mk.inj (Except.ok.inj outcome)
      exact .makeFile path mode dirty
  | write path buf offset => exact writeCounted_effect outcome
  | truncate path size =>
      simp only [step, truncate] at outcome
      cases here : cache.inCache path with
      | true =>
          rw [here, if_pos rfl] at outcome
          obtain ⟨inode, found, outcome⟩ := bind_eq_ok.mp outcome
          obtain ⟨rfl, rfl⟩ := Prod.mk.inj (Except.ok.inj outcome)
          exact .truncate here (getInodeByPath_eq_ok.mp found)
      | false =>
          rw [here, if_neg (by decide)] at outcome
          obtain ⟨rfl, rfl⟩ := Prod.mk.inj (Except.ok.inj outcome)
          exact .truncateMissing here
  | remove path =>
      simp only [step, remove] at outcome
      cases here : cache.inCache path with
      | true =>
          rw [here, if_pos rfl] at outcome
          cases noNulls : cache.noNulls with
          | false => simp [noNulls] at outcome
          | true =>
              rw [noNulls, if_pos rfl] at outcome
              obtain ⟨inode, found, outcome⟩ := bind_eq_ok.mp outcome
              obtain ⟨rfl, rfl⟩ := Prod.mk.inj (Except.ok.inj outcome)
              exact .remove here noNulls (getInodeByPath_eq_ok.mp found)
      | false =>
          rw [here, if_neg (by decide)] at outcome
          obtain ⟨rfl, rfl⟩ := Prod.mk.inj (Except.ok.inj outcome)
          exact .removeMissing here
  | rmdir path =>
      simp only [step, rmdir] at outcome
      cases here : cache.inCache path with
      | true =>
          rw [here, if_pos rfl] at outcome
          obtain ⟨inode, found, outcome⟩ := bind_eq_ok.mp outcome
          obtain ⟨rfl, rfl⟩ := Prod.mk.inj (Except.ok.inj outcome)
          exact .rmdir here (getInodeByPath_eq_ok.mp found)
      | false =>
          rw [here, if_neg (by decide)] at outcome
          obtain ⟨rfl, rfl⟩ := Prod.mk.inj (Except.ok.inj outcome)
          exact .rmdirMissing here
  | rename from_ to_ => exact rename_effect outcome
  | open_ path =>
      obtain ⟨⟨res, middle⟩, ready, outcome⟩ := bind_eq_ok.mp outcome
      obtain ⟨rfl, rfl⟩ := Prod.mk.inj (Except.ok.inj outcome)
      exact .open_ (ensureCached_ensured ready)
  | read path size offset =>
      obtain ⟨⟨res, bytes, middle⟩, run, same⟩ := bind_eq_ok.mp outcome
      obtain ⟨rfl, rfl⟩ := Prod.mk.inj (Except.ok.inj same)
      obtain ⟨⟨res', middle'⟩, ready, rest⟩ := bind_eq_ok.mp run
      obtain ⟨inode, found, rest⟩ := bind_eq_ok.mp rest
      obtain ⟨⟨res'', buf⟩, shown, rest⟩ := bind_eq_ok.mp rest
      obtain ⟨bytes', done, same⟩ := bind_eq_ok.mp shown
      obtain ⟨rfl, rfl⟩ := Prod.mk.inj (Except.ok.inj same)
      obtain ⟨rfl, pair⟩ := Prod.mk.inj (Except.ok.inj rest)
      obtain ⟨rfl, rfl⟩ := Prod.mk.inj pair
      exact .read (ensureCached_ensured ready) (getInodeByPath_eq_ok.mp found) done
  | symlink from_ to_ =>
      obtain ⟨rfl, rfl⟩ := Prod.mk.inj (Except.ok.inj outcome)
      exact .symlink from_ to_
  | readlink path size =>
      obtain ⟨⟨res, bytes⟩, run, same⟩ := bind_eq_ok.mp outcome
      obtain ⟨rfl, rfl⟩ := Prod.mk.inj (Except.ok.inj same)
      exact .readlink run
  | getattr path =>
      obtain ⟨⟨res, stat⟩, run, same⟩ := bind_eq_ok.mp outcome
      obtain ⟨rfl, rfl⟩ := Prod.mk.inj (Except.ok.inj same)
      exact .getattr run
  | getRefs path =>
      obtain ⟨refs, run, same⟩ := bind_eq_ok.mp outcome
      obtain ⟨rfl, rfl⟩ := Prod.mk.inj (Except.ok.inj same)
      exact .getRefs run
  | inCache path =>
      obtain ⟨rfl, rfl⟩ := Prod.mk.inj (Except.ok.inj outcome)
      exact .inCache path
  | loadFromDisk path => exact .loadFromDisk (loadFromDisk_loaded outcome)
  | getInodeByPath path =>
      obtain ⟨rfl, rfl⟩ := Prod.mk.inj (Except.ok.inj outcome)
      exact .getInodeByPath path
  | flushToDisk => exact .flushToDisk (flushToDisk_flushed outcome)
  | flushToShdw onClose =>
      simp only [step, flushToShdw] at outcome
      by_cases small : cache.size < MAX_SIZE ∧ onClose = false
      · rw [if_pos small] at outcome
        obtain ⟨rfl, rfl⟩ := Prod.mk.inj (Except.ok.inj outcome)
        obtain ⟨small, rfl⟩ := small
        exact .flushToShdwKept small
      · rw [if_neg small] at outcome
        exact .flushToShdw (flushToDisk_flushed outcome)
  | loadTrees order =>
      obtain ⟨rfl, rfl⟩ := Prod.mk.inj (Except.ok.inj outcome)
      exact .loadTrees order
  | readdir order path =>
      obtain ⟨⟨entries, middle⟩, run, same⟩ := bind_eq_ok.mp outcome
      obtain ⟨rfl, rfl⟩ := Prod.mk.inj (Except.ok.inj same)
      obtain ⟨ents, read, rest⟩ := bind_eq_ok.mp run
      obtain ⟨_, rfl⟩ := Prod.mk.inj (Except.ok.inj rest)
      exact .readdir order path

end BlockCache

end ZippyFS
