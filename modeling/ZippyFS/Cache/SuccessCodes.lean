import ZippyFS.Cache.Namespace
import ZippyFS.Cache.OtherPaths
import ZippyFS.Cache.Truncation

/-! The result codes of the handlers. Some handlers pass on what the cache returns and some drop
it; their answers are compared with what the cache did.
-/

namespace ZippyFS

open Runs Outcomes

/-- A call of a handler. -/
inductive Request where
  | open_ (path : Bytes)
  | read (path : Bytes) (size offset : Nat)
  | write (path buf : Bytes) (offset : Nat)
  | truncate (path : Bytes) (size : Nat)
  | unlink (path : Bytes)
  | rmdir (path : Bytes)
  | rename (from_ to_ : Bytes)

/-- The operation of the cache behind a handler. -/
def Request.op : Request → Op
  | open_ path => .open_ path
  | read path size offset => .read path size offset
  | write path buf offset => .write path buf offset
  | truncate path size => .truncate path size
  | unlink path => .remove path
  | rmdir path => .rmdir path
  | rename from_ to_ => .rename from_ to_

/-- The arguments are of their types, and the count of a read or a write is one that an `int` can
return.
-/
def Request.Fits : Request → Prop
  | read _ size _ => size < 2 ^ 31
  | write _ buf offset => buf.length < 2 ^ 31 ∧ offset < 2 ^ 64
  | _ => True

/-- What a handler returns, the bytes it stores into the caller's buffer, and the cache. -/
structure Answer where
  result : Int
  bytes : Bytes
  cache : BlockCache

/-- Handle a call. -/
def handle (env : Env) (now : Clock) (cache : BlockCache) : Request → Except Fault Answer
  | .open_ path => do
      let (result, cache) ← FuseOps.open_ env now cache path
      .ok ⟨result, [], cache⟩
  | .read path size offset => do
      let (result, bytes, cache) ← FuseOps.read env now cache path size offset
      .ok ⟨result, bytes, cache⟩
  | .write path buf offset => do
      let (result, cache) ← FuseOps.write env now cache path buf offset
      .ok ⟨result, [], cache⟩
  | .truncate path size => do
      let (result, cache) ← FuseOps.truncate env now cache path size
      .ok ⟨result, [], cache⟩
  | .unlink path => do
      let (result, cache) ← FuseOps.unlink now cache path
      .ok ⟨result, [], cache⟩
  | .rmdir path => do
      let (result, cache) ← FuseOps.rmdir now cache path
      .ok ⟨result, [], cache⟩
  | .rename from_ to_ => do
      let (result, cache) ← FuseOps.rename env now cache from_ to_
      .ok ⟨result, [], cache⟩

namespace BlockCache

variable {env : Env} {now : Clock} {cache middle next : BlockCache} {path buf : Bytes}
  {from_ to_ : Bytes} {size offset : Nat} {inode : Inode} {names : Set Bytes}

-----------------------------------------------------------------------------------------
-- The law
-----------------------------------------------------------------------------------------

/-- The path is the root, or has a file that is not deleted. -/
def Existing (env : Env) (cache : BlockCache) (path : Bytes) : Prop :=
  path = [47] ∨ ∃ file, cache.fileState env path = .ok (some file) ∧ file.deleted = false

/-- The cached file of a path is deleted. -/
def IsGone (cache : BlockCache) (path : Bytes) : Prop :=
  ∃ inode, cache.find path = some inode ∧ inode.deleted = true

/-- The operation took effect on an existing file, and the answer counts the bytes that were
transferred.
-/
def TookEffect (env : Env) (cache : BlockCache) (answer : Answer) (next : BlockCache)
    : Request → Prop
  | .open_ path => Existing env cache path
  | .read path _ _ => Existing env cache path ∧ answer.result = answer.bytes.length
  | .write path buf offset =>
      Existing env cache path ∧ answer.result = buf.length
      ∧ ∃ after, next.find path = some after
        ∧ ∀ position, offset ≤ position → position < offset + buf.length
          → byteAt next.heap after position = buf.getD (position - offset) 0
  | .truncate path size =>
      Existing env cache path ∧ ∃ after, next.find path = some after ∧ after.size = size
  | .unlink path | .rmdir path => Existing env cache path ∧ IsGone next path
  | .rename from_ to_ =>
      Existing env cache from_ ∧ TakesOver env cache from_ to_ next
      ∧ (from_ ≠ to_ → IsGone next from_)

/-- The handler answers. A success is returned only if the operation took effect, and if the
operation failed, an error is returned and all contents are as before.
-/
def Truthful (env : Env) (now : Clock) (cache : BlockCache) (request : Request) : Prop :=
  ∃ code next answer, step env now cache request.op = .ok (code, next)
    ∧ handle env now cache request = .ok answer
    ∧ (0 ≤ answer.result → 0 ≤ code ∧ TookEffect env cache answer next request)
    ∧ (code < 0
      → answer.result < 0
        ∧ ∀ path, answer.cache.fileState env path = cache.fileState env path)

-----------------------------------------------------------------------------------------
-- The condition
-----------------------------------------------------------------------------------------

/-- What `read` goes on with. -/
def Opened (env : Env) (now : Clock) (cache : BlockCache) (path : Bytes) (next : BlockCache)
    (inode : Inode)
    : Prop :=
  ∃ result, Ensured env now cache path result next ∧ next.find path = some inode

/-- Each byte of the buffer goes to the first block of the write, which is there, or to a missing
block of an aligned write, or the byte that a round stores in its place happens to be the same.
-/
def Arrives (file : FileState) (buf : Bytes) (offset : Nat) : Prop :=
  ∀ position, offset ≤ position → position < offset + buf.length
    → let number := position / SIZE - firstBlock offset
      let old := file.blocks (position / SIZE)
      number = 0 ∧ old.isSome = true
      ∨ old = none ∧ offset % SIZE = 0
      ∨ (storedByte buf offset number old.isSome (position % SIZE)).getD
          (contentAt old (position % SIZE))
        = buf.getD (position - offset) 0

/-- If a flush is due, it goes through. -/
def Saves (env : Env) (cache : BlockCache) : Prop :=
  MAX_SIZE ≤ cache.size → ∃ index, cache.fill env = .ok index

/-- The same after an operation. The handlers flush behind it, so what is due, and what there is
to save, is decided by the cache that the operation leaves: it includes what was just written.
-/
def SavesAfter (env : Env) (now : Clock) (cache : BlockCache) (op : Op) : Prop :=
  ∀ code next, step env now cache op = .ok (code, next) → Saves env next

/-- The id that a path is cached under, or is loaded under. -/
def idOf (env : Env) (cache : BlockCache) (path : Bytes) : Bytes :=
  if cache.inCache path then cache.inodeIdx[path]?.getD [] else Util.cryptoHash env path

/-- When the answer of a handler is truthful. -/
def Honest (env : Env) (now : Clock) (cache : BlockCache) : Request → Prop
  | .open_ path => Existing env cache path
  | .read path size offset =>
      Existing env cache path
      ∧ ∃ next inode, Opened env now cache path next inode ∧ inode.Yields next.heap size offset
  | .write path buf offset =>
      Existing env cache path
      ∧ (∃ file, cache.fileState env path = .ok (some file) ∧ buf.length + offset ≤ lastEnd
        ∧ Arrives file buf offset)
      ∧ SavesAfter env now cache (.write path buf offset)
  | .truncate path size =>
      Existing env cache path ∧ (∃ inode, cache.find path = some inode)
      ∧ SavesAfter env now cache (.truncate path size)
  | .unlink path =>
      cache.inCache path = false
      ∨ Existing env cache path ∧ (∃ inode, cache.find path = some inode) ∧ cache.noNulls = true
  | .rmdir path =>
      cache.inCache path = false
      ∨ Existing env cache path ∧ ∃ inode, cache.find path = some inode
  | .rename from_ to_ =>
      Missing env cache from_
      ∨ Existing env cache from_
        ∧ (∃ former, cache.fileState env from_ = .ok (some former))
        ∧ (∃ target, cache.fileState env to_ = .ok target)
        ∧ (from_ = to_ ∨ cache.idOf env from_ ≠ Util.cryptoHash env to_)

-----------------------------------------------------------------------------------------
-- Handlers that pass on the result
-----------------------------------------------------------------------------------------

/-- A handler that passes on what the cache returns is truthful about an operation that took
effect, or failed and left the contents alone.
-/
theorem truthful_iff_of_passed {request : Request}
    (passed
      : handle env now cache request = do
        let (result, cache) ← step env now cache request.op
        .ok ⟨result, [], cache⟩)
    : Truthful env now cache request
      ↔ ∃ code next, step env now cache request.op = .ok (code, next)
        ∧ (0 ≤ code → TookEffect env cache ⟨code, [], next⟩ next request)
        ∧ (code < 0 → ∀ path, next.fileState env path = cache.fileState env path) := by
  constructor
  · rintro ⟨code, next, answer, taken, answered, success, failure⟩
    rw [passed, taken, ok_bind] at answered
    obtain rfl := Except.ok.inj answered
    exact ⟨code, next, taken, fun good => (success good).2, fun bad => (failure bad).2⟩
  · rintro ⟨code, next, taken, success, failure⟩
    refine ⟨code, next, ⟨code, [], next⟩, taken, ?_, fun good => ⟨good, success good⟩,
      fun bad => ⟨bad, failure bad⟩⟩
    rw [passed, taken, ok_bind]

theorem truthful_open_iff
    : Truthful env now cache (.open_ path) ↔ Honest env now cache (.open_ path) := by
  rw [truthful_iff_of_passed rfl]
  constructor
  · rintro ⟨code, next, taken, success, -⟩
    cases step_effect taken with
    | open_ ensured => exact success (le_refl _)
  · intro existing
    have opens : ∃ next, cache.open_ env now path = .ok (0, next) := by
      rcases existing with rfl | ⟨file, shown, -⟩
      · have here : cache.inCache [47] = true := by simp [inCache]
        refine ⟨cache, ?_⟩
        rw [BlockCache.open_, (Ensured.cached here).eq, ok_bind]
      · obtain ⟨first, source, ensured, -⟩ := exists_ensured now shown
        refine ⟨first, ?_⟩
        rw [BlockCache.open_, ensured, ok_bind]
    obtain ⟨next, opens⟩ := opens
    exact ⟨0, next, opens, fun _ => existing, fun bad => absurd bad (by decide)⟩

/-- The path of a deleted inode. -/
theorem isGone_set (found : cache.find path = some inode) (now : Clock)
    : IsGone (cache.set path (inode.deleteInode now)) path :=
  ⟨_, find_set_self (mem_of_find found), rfl⟩

/-- The index and the pointers are all that matters. -/
theorem IsGone.congr (gone : IsGone cache path) (idx : next.inodeIdx = cache.inodeIdx)
    (ptrs : next.inodePtrs = cache.inodePtrs)
    : IsGone next path := by
  obtain ⟨inode, found, deleted⟩ := gone
  refine ⟨inode, ?_, deleted⟩
  unfold find at found ⊢
  rwa [idx, ptrs]

theorem truthful_rmdir_iff
    : Truthful env now cache (.rmdir path) ↔ Honest env now cache (.rmdir path) := by
  rw [truthful_iff_of_passed rfl]
  constructor
  · rintro ⟨code, next, taken, success, -⟩
    cases step_effect taken with
    | rmdirMissing away => exact Or.inl away
    | rmdir here found => exact Or.inr ⟨(success (le_refl _)).1, _, found⟩
  · rintro (away | ⟨existing, inode, found⟩)
    · refine ⟨-1, cache, ?_, fun good => absurd good (by decide), fun _ _ => rfl⟩
      simp [Request.op, step, rmdir, away]
    · have here : cache.inCache path = true := by simp [inCache, mem_of_find found]
      have known : cache.getInodeByPath path = .ok inode := getInodeByPath_eq_ok.mpr found
      have gone : IsGone (cache.deleted now path inode) path :=
        (isGone_set found now).congr rfl rfl
      refine ⟨0, cache.deleted now path inode, ?_, fun _ => ⟨existing, gone⟩,
        fun bad => absurd bad (by decide)⟩
      simp only [Request.op, step, rmdir, here, if_true, known, ok_bind]

theorem truthful_unlink_iff
    : Truthful env now cache (.unlink path) ↔ Honest env now cache (.unlink path) := by
  rw [truthful_iff_of_passed rfl]
  constructor
  · rintro ⟨code, next, taken, success, -⟩
    cases step_effect taken with
    | removeMissing away => exact Or.inl away
    | remove here noNulls found =>
        rw [find_decLinks, Option.map_eq_some_iff] at found
        obtain ⟨inode, known, -⟩ := found
        exact Or.inr ⟨(success (le_refl _)).1, ⟨inode, known⟩, noNulls⟩
  · rintro (away | ⟨existing, ⟨inode, found⟩, noNulls⟩)
    · refine ⟨-1, cache, ?_, fun good => absurd good (by decide), fun _ _ => rfl⟩
      simp [Request.op, step, remove, away]
    · obtain ⟨lowered, found, -, removes⟩ := remove_cached found noNulls now
      have gone : IsGone ((cache.decLinks path).set path (lowered.deleteInode now)) path :=
        isGone_set found now
      exact ⟨0, _, removes, fun _ => ⟨existing, gone.congr rfl rfl⟩,
        fun bad => absurd bad (by decide)⟩

-----------------------------------------------------------------------------------------
-- Handlers that drop the result
-----------------------------------------------------------------------------------------

theorem toInt_count (small : size < 2 ^ 31) : Util.toInt size = size :=
  Util.toInt_of_lt (by omega) (by omega)

/-- What `read` returns, and what it went on with. -/
theorem read_opened {result : Int} {bytes : Bytes}
    (outcome : cache.read env now path size offset = .ok (result, bytes, next))
    : ∃ inode, Opened env now cache path next inode
        ∧ inode.readBytes env next.heap size offset = .ok bytes := by
  obtain ⟨⟨code, first⟩, ensured, outcome⟩ := bind_eq_ok.mp outcome
  obtain ⟨inode, found, outcome⟩ := bind_eq_ok.mp outcome
  obtain ⟨⟨returned, stored⟩, done, outcome⟩ := bind_eq_ok.mp outcome
  obtain ⟨-, outcome⟩ := Prod.mk.inj (Except.ok.inj outcome)
  obtain ⟨rfl, rfl⟩ := Prod.mk.inj outcome
  exact ⟨inode, ⟨code, ensureCached_ensured ensured, getInodeByPath_eq_ok.mp found⟩,
    (Inode.read_eq_ok_iff.mp done).2⟩

theorem Opened.read_eq {bytes : Bytes} (opened : Opened env now cache path next inode)
    (done : inode.readBytes env next.heap size offset = .ok bytes)
    : cache.read env now path size offset = .ok (Util.toInt size, bytes, next) := by
  obtain ⟨code, ensured, found⟩ := opened
  unfold BlockCache.read
  rw [ensured.eq, ok_bind]
  dsimp only
  rw [getInodeByPath_eq_ok.mpr found, ok_bind, Inode.read_eq_ok_iff.mpr ⟨rfl, done⟩, ok_bind]

theorem truthful_read_iff (counted : size < 2 ^ 31)
    : Truthful env now cache (.read path size offset)
      ↔ Honest env now cache (.read path size offset) := by
  have count := toInt_count counted
  constructor
  · rintro ⟨code, next, answer, taken, answered, success, -⟩
    obtain ⟨⟨result, bytes, after⟩, done, answered⟩ := bind_eq_ok.mp answered
    obtain rfl := Except.ok.inj answered
    obtain ⟨⟨result', bytes', after'⟩, outcome, done⟩ := bind_eq_ok.mp done
    obtain ⟨rfl, same⟩ := Prod.mk.inj (Except.ok.inj done)
    obtain ⟨rfl, rfl⟩ := Prod.mk.inj same
    obtain ⟨inode, opened, stored⟩ := read_opened outcome
    rw [count] at success
    obtain ⟨-, existing, whole⟩ := success (Int.natCast_nonneg _)
    exact ⟨existing, _, inode, opened,
      (Inode.readBytes_whole_iff env).mp ⟨_, stored, (Int.ofNat_inj.mp whole).symm⟩⟩
  · rintro ⟨existing, next, inode, opened, yields⟩
    obtain ⟨bytes, stored, whole⟩ := (Inode.readBytes_whole_iff env).mpr yields
    have outcome := opened.read_eq stored
    rw [count] at outcome
    refine ⟨size, next, ⟨size, bytes, next⟩, ?_, ?_, fun _ => ⟨Int.natCast_nonneg _, existing, ?_⟩,
      fun bad => absurd bad (by omega)⟩
    · simp only [Request.op, step, outcome, ok_bind]
    · simp only [handle, FuseOps.read, outcome, ok_bind, count]
    · exact congrArg Nat.cast whole.symm

/-- A flush before a close returns if it is not due or goes through. -/
theorem flushToShdw_returns_iff (changed : cache.hasChanged = true)
    : (∃ saved, cache.flushToShdw env false = .ok saved) ↔ Saves env cache := by
  unfold flushToShdw Saves
  by_cases small : cache.size < MAX_SIZE
  · rw [if_pos ⟨small, rfl⟩]
    exact iff_of_true ⟨_, rfl⟩ fun due => absurd due (Nat.not_le_of_lt small)
  · rw [if_neg (fun both => small both.1), flushToDisk, if_pos changed]
    constructor
    · rintro ⟨saved, outcome⟩ -
      obtain ⟨index, filled, -⟩ := bind_eq_ok.mp outcome
      exact ⟨index, filled⟩
    · intro saves
      obtain ⟨index, filled⟩ := saves (Nat.le_of_not_lt small)
      rw [filled]
      exact ⟨_, rfl⟩

theorem truthful_truncate_iff
    : Truthful env now cache (.truncate path size)
      ↔ Honest env now cache (.truncate path size) := by
  constructor
  · rintro ⟨code, next, answer, taken, answered, success, failure⟩
    obtain ⟨⟨result, after⟩, done, answered⟩ := bind_eq_ok.mp answered
    obtain rfl := Except.ok.inj answered
    obtain ⟨⟨code', middle⟩, outcome, done⟩ := bind_eq_ok.mp done
    obtain ⟨saved, flush, done⟩ := bind_eq_ok.mp done
    obtain ⟨rfl, rfl⟩ := Prod.mk.inj (Except.ok.inj done)
    obtain ⟨rfl, rfl⟩ := Prod.mk.inj (Except.ok.inj (outcome.symm.trans taken))
    cases step_effect taken with
    | truncateMissing away => exact absurd (failure (by decide)).1 (lt_irrefl 0)
    | truncate here found =>
        refine ⟨(success (le_refl _)).2.1, ⟨_, found⟩, ?_⟩
        intro code' next' taken'
        obtain ⟨-, rfl⟩ := Prod.mk.inj (Except.ok.inj (taken.symm.trans taken'))
        exact (flushToShdw_returns_iff rfl).mp ⟨saved, flush⟩
  · rintro ⟨existing, ⟨inode, found⟩, saves⟩
    have outcome : cache.truncate now path size = .ok _ := truncate_cached found size
    obtain ⟨saved, flush⟩ := (flushToShdw_returns_iff rfl).mpr (saves _ _ outcome)
    have succeeded : ¬ (0 : Int) < 0 := by decide
    refine ⟨0, _, ⟨0, [], saved.2⟩, outcome, ?_, fun _ => ⟨le_refl _, existing, ?_⟩,
      fun bad => absurd bad succeeded⟩
    · simp only [handle, FuseOps.truncate, outcome, ok_bind, flush]
    · exact ⟨_, find_set_self (mem_of_find found), rfl⟩

/-- What `write` goes on with has the blocks that are shown. -/
theorem Ready.shown (ready : Ready env now cache path middle inode)
    : ∃ file, cache.fileState env path = .ok (some file)
        ∧ ∀ blockIdx, middle.oldBlock inode blockIdx = file.blocks blockIdx := by
  cases ready with
  | @cached inode here found =>
      refine ⟨inode.shape.fileState cache.heap, ?_, fun _ => rfl⟩
      rw [fileState, if_pos here, found, Option.map_some]
  | @loaded di away lookup some =>
      have loaded := @fileState_loaded env now cache path di
      rw [fileState, if_pos (inCache_loaded now cache path di), BlockCache.loaded, find_put_self,
        Except.ok.injEq, Option.map_some, Option.some.injEq] at loaded
      refine ⟨di.fileState, ?_,
        fun blockIdx => congrFun (congrArg FileState.blocks loaded) blockIdx⟩
      rw [fileState, if_neg (by simp [away]), lookup, ok_bind, if_neg some]

/-- A path that is shown can be written. -/
theorem exists_ready {file : FileState} (now : Clock)
    (shown : cache.fileState env path = .ok (some file))
    : ∃ middle inode, Ready env now cache path middle inode := by
  cases here : cache.inCache path with
  | true =>
      rw [fileState, if_pos here, Except.ok.injEq, Option.map_eq_some_iff] at shown
      obtain ⟨inode, found, -⟩ := shown
      exact ⟨_, _, .cached here found⟩
  | false =>
      rw [fileState, if_neg (by simp [here])] at shown
      obtain ⟨di, lookup, shown⟩ := bind_eq_ok.mp shown
      by_cases none : di.mtime = 0
      · rw [if_pos none] at shown
        cases shown
      · exact ⟨_, _, .loaded here lookup none⟩

/-- A write is its block loop on what it goes on with. -/
theorem Ready.writeCounted_eq (ready : Ready env now cache path middle inode) (buf : Bytes)
    (offset : Nat)
    : cache.writeCounted env now path buf offset
      = (do
        let state ← middle.runLoop now path buf offset inode
        .ok ((buf.length : Int), middle.written path state)) := by
  cases ready with
  | cached here found => exact writeCounted_cached found
  | loaded away lookup some => exact writeCounted_away away lookup some buf offset

/-- The loop of a write leaves the bytes of the buffer in their places exactly if they arrive. -/
theorem arrives_iff {file : FileState} {after : Inode} (stocked : Stocked cache)
    (shown : ∀ blockIdx, cache.oldBlock inode blockIdx = file.blocks blockIdx)
    (blocks
      : ∀ blockIdx, next.oldBlock after blockIdx
        = if Touched offset (roundCount buf offset) blockIdx
          then some (roundBlock buf offset (blockIdx - firstBlock offset)
            (cache.oldBlock inode blockIdx))
          else cache.oldBlock inode blockIdx)
    : (∀ position, offset ≤ position → position < offset + buf.length
        → byteAt next.heap after position = buf.getD (position - offset) 0)
      ↔ Arrives file buf offset := by
  refine forall_congr' fun position => forall_congr' fun low => forall_congr' fun high => ?_
  have inside : position % SIZE < SIZE := Nat.mod_lt _ (by decide)
  have touched := touched_of_written low high
  have clean := stocked.oldBlock_clean inode (position / SIZE)
  have content : byteAt next.heap after position
      = contentAt (next.oldBlock after (position / SIZE)) (position % SIZE) := rfl
  have due := due_position cache inode touched
  rw [if_pos ⟨low, high⟩] at due
  rw [content, blocks, if_pos touched, ← due]
  rw [shown] at clean ⊢
  dsimp only
  constructor
  · intro same
    exact Or.inr (Or.inr ((contentAt_roundBlock clean inside).symm.trans same))
  · rintro (⟨first, present⟩ | ⟨missing, aligned⟩ | same)
    · rw [first]
      exact (first_iff clean).mpr (Or.inl present) _ inside
    · rcases Nat.eq_zero_or_pos (position / SIZE - firstBlock offset) with first | later
      · rw [first]
        exact (first_iff clean).mpr (Or.inr (Or.inl aligned)) _ inside
      · exact (later_iff clean later).mpr (Or.inl ⟨missing, aligned⟩) _ inside
    · exact (contentAt_roundBlock clean inside).trans same

theorem truthful_write_iff (stocked : Stocked cache) (counted : buf.length < 2 ^ 31)
    (offsetBits : offset < 2 ^ 64)
    : Truthful env now cache (.write path buf offset)
      ↔ Honest env now cache (.write path buf offset) := by
  have count := toInt_count counted
  constructor
  · rintro ⟨code, next, answer, taken, answered, success, failure⟩
    obtain ⟨⟨result, after⟩, done, answered⟩ := bind_eq_ok.mp answered
    obtain rfl := Except.ok.inj answered
    obtain ⟨⟨code', middle⟩, outcome, done⟩ := bind_eq_ok.mp done
    obtain ⟨saved, flush, done⟩ := bind_eq_ok.mp done
    obtain ⟨rfl, rfl⟩ := Prod.mk.inj (Except.ok.inj done)
    obtain ⟨written, outcome, -⟩ := write_eq_ok_iff.mp outcome
    obtain ⟨rfl, rfl⟩ := Prod.mk.inj (Except.ok.inj (outcome.symm.trans taken))
    rw [count] at success failure
    cases step_effect taken with
    | writeMissing missing =>
        exact absurd (failure (by decide)).1 (Int.not_lt.mpr (Int.natCast_nonneg _))
    | write ready loop =>
        obtain ⟨-, existing, -, after, there, arrived⟩ := success (Int.natCast_nonneg _)
        obtain ⟨file, shown, same⟩ := ready.shown
        have ends := ends_of_loop offsetBits loop
        obtain ⟨state, loop', -, blocks⟩ := (stocked.ready ready).loop_blocks now ready.found ends
        obtain rfl := Except.ok.inj (loop.symm.trans loop')
        obtain rfl := Option.some.inj
          ((find_written (mem_of_find ready.found) _).symm.trans there)
        refine ⟨existing, ⟨file, shown, ends,
          (arrives_iff (stocked.ready ready) same blocks).mp arrived⟩, ?_⟩
        intro code' next' taken'
        obtain ⟨-, rfl⟩ := Prod.mk.inj (Except.ok.inj (taken.symm.trans taken'))
        exact (flushToShdw_returns_iff rfl).mp ⟨saved, flush⟩
  · rintro ⟨existing, ⟨file, shown, ends, arrive⟩, saves⟩
    obtain ⟨middle, inode, ready⟩ := exists_ready now shown
    obtain ⟨file', shown', same⟩ := ready.shown
    obtain rfl := Option.some.inj (Except.ok.inj (shown.symm.trans shown'))
    obtain ⟨state, loop, -, blocks⟩ := (stocked.ready ready).loop_blocks now ready.found ends
    have outcome : cache.writeCounted env now path buf offset
        = .ok ((buf.length : Int), middle.written path state) := by
      rw [ready.writeCounted_eq, loop, ok_bind]
    obtain ⟨saved, flush⟩ := (flushToShdw_returns_iff rfl).mpr (saves _ _ outcome)
    have succeeded : ¬ (buf.length : Int) < 0 := Int.not_lt.mpr (Int.natCast_nonneg _)
    refine ⟨buf.length, _, ⟨buf.length, [], saved.2⟩, outcome, ?_,
      fun _ => ⟨Int.natCast_nonneg _, existing, rfl, ?_⟩, fun bad => absurd bad succeeded⟩
    · simp only [handle, FuseOps.write, write_eq_ok_iff.mpr ⟨_, outcome, rfl⟩, ok_bind, flush,
        count]
    · exact ⟨state.inode, find_written (mem_of_find ready.found) state,
        (arrives_iff (stocked.ready ready) same blocks).mpr arrive⟩

-----------------------------------------------------------------------------------------
-- Renames
-----------------------------------------------------------------------------------------

/-- Filing an inode under another path and another id keeps a path. -/
theorem keeps_put_apart (different : path ≠ to_)
    (apart : cache.inodeIdx[path]?.getD [] ≠ inode.inodeId)
    : KeepsPath cache (cache.put to_ inode) path := by
  refine .of_find ?_ fun _ _ _ _ _ => rfl
  have entry : (cache.put to_ inode).inodeIdx[path]? = cache.inodeIdx[path]? := by
    simp only [put, Tables.getElem?_insert, if_neg different]
  rw [find_eq_ptr, find_eq_ptr, entry]
  cases known : cache.inodeIdx[path]? with
  | none => rfl
  | some id =>
      rw [known, Option.getD_some] at apart
      rw [Option.bind_some, Option.bind_some, ptr_put, if_neg apart]

/-- The id of a path that was cached. -/
theorem Ensured.id (ensured : Ensured env now cache path 0 next)
    : next.inodeIdx[path]?.getD [] = cache.idOf env path := by
  unfold idOf
  cases ensured with
  | cached here => rw [if_pos here]
  | loaded away lookup some =>
      obtain ⟨own, named⟩ := loadedInode_named now lookup some
      rw [Inode.Named, own] at named
      rw [if_neg (by simp [away]), ← named, BlockCache.loaded, put, Tables.getElem?_insert,
        if_pos rfl, Option.getD_some]

/-- Caching a path leaves the entries of other paths alone. -/
theorem Ensured.entry {result : Int} (ensured : Ensured env now cache to_ result next)
    (different : path ≠ to_)
    : next.inodeIdx[path]? = cache.inodeIdx[path]? := by
  cases ensured with
  | cached here => rfl
  | absent away lookup none => rfl
  | loaded away lookup some =>
      simp only [BlockCache.loaded, put, Tables.getElem?_insert, if_neg different]
      rfl

/-- It keeps a path that is filed under another id. -/
theorem Ensured.keeps {result : Int} (ensured : Ensured env now cache to_ result next)
    (stocked : Stocked cache) (different : path ≠ to_)
    (apart : cache.inodeIdx[path]?.getD [] ≠ Util.cryptoHash env to_)
    : KeepsPath cache next path := by
  cases ensured with
  | cached here => exact .refl cache path
  | absent away lookup none => exact .refl cache path
  | @loaded di away lookup some =>
      obtain ⟨own, named⟩ := loadedInode_named now lookup some
      rw [Inode.Named, own] at named
      have allocated : KeepsPath cache (cache.withBlocks di) path := by
        refine .of_find rfl fun before found blockIdx ref held => ?_
        exact if_neg (stocked.fresh _ _ _ _ (ptr_of_find found) held).ne
      exact allocated.trans (keeps_put_apart different (by rwa [named]))

/-- What `rename` does after its source was cached: the target is cached or made. -/
inductive Targeted (env : Env) (now : Clock) (first : BlockCache) (from_ to_ : Bytes)
    : BlockCache → Prop
  | replacing {second : BlockCache} (target : Ensured env now first to_ 0 second)
    : Targeted env now first from_ to_ second
  | new {old : Inode} (target : Ensured env now first to_ (-1) first)
    (was : first.find from_ = some old)
    : Targeted env now first from_ to_ (first.makeFile env now to_ old.mode true)

/-- A rename that succeeds. -/
theorem Targeted.rename_eq {first second : BlockCache} {source : Inode}
    (targeted : Targeted env now first from_ to_ second)
    (ensured : Ensured env now cache from_ 0 first) (found : second.find from_ = some source)
    : cache.rename env now from_ to_ = .ok (0, second.moved env now from_ to_ source) := by
  have known := getInodeByPath_eq_ok.mpr found
  unfold BlockCache.rename
  rw [ensured.eq, ok_bind]
  dsimp only
  rw [if_neg (by decide)]
  cases targeted with
  | replacing target =>
      rw [target.eq, ok_bind]
      dsimp only
      rw [known, ok_bind, if_neg (by decide), known, ok_bind]
  | new target was =>
      rw [target.eq, ok_bind]
      dsimp only
      rw [getInodeByPath_eq_ok.mpr was, ok_bind, if_pos rfl, known, ok_bind]

/-- A rename fails, or succeeds in one of these ways. -/
theorem rename_cases {result : Int}
    (outcome : cache.rename env now from_ to_ = .ok (result, next))
    : Ensured env now cache from_ (-1) cache ∧ result = -1 ∧ next = cache
      ∨ result = 0 ∧ ∃ first second source, Ensured env now cache from_ 0 first
        ∧ Targeted env now first from_ to_ second ∧ second.find from_ = some source
        ∧ next = second.moved env now from_ to_ source := by
  cases rename_effect outcome with
  | renameMissing missing => exact Or.inl ⟨missing, rfl, rfl⟩
  | renameOver ensured target found =>
      exact Or.inr ⟨rfl, _, _, _, ensured, .replacing target, found, rfl⟩
  | renameNew ensured target was found =>
      exact Or.inr ⟨rfl, _, _, _, ensured, .new target was, found, rfl⟩

theorem Targeted.entry {first second : BlockCache}
    (targeted : Targeted env now first from_ to_ second) (different : from_ ≠ to_)
    : second.inodeIdx[from_]? = first.inodeIdx[from_]? := by
  cases targeted with
  | replacing target => exact target.entry different
  | new target was => simp only [makeFile, put, Tables.getElem?_insert, if_neg different]

theorem Targeted.keeps {first second : BlockCache}
    (targeted : Targeted env now first from_ to_ second) (stocked : Stocked first)
    (different : from_ ≠ to_) (apart : first.inodeIdx[from_]?.getD [] ≠ Util.cryptoHash env to_)
    : KeepsPath first second from_ := by
  cases targeted with
  | replacing target => exact target.keeps stocked different apart
  | new target was => exact (keeps_put_apart different apart).congr rfl rfl rfl

/-- A target that was cached or made had contents to show, or none. -/
theorem Targeted.shown {first second : BlockCache}
    (targeted : Targeted env now first from_ to_ second)
    (ensured : Ensured env now cache from_ 0 first) (different : from_ ≠ to_)
    : ∃ target, cache.fileState env to_ = .ok target := by
  have cached : first.inCache to_ = true → cache.inCache to_ = true := by
    intro here
    simp only [BlockCache.inCache, decide_eq_true_eq] at here ⊢
    refine here.imp_left fun member => ?_
    rw [← Std.ExtTreeMap.isSome_getElem?_iff_mem] at member ⊢
    rwa [ensured.entry different.symm] at member
  have lookedUp {di : DiskInodeInfo}
      (lookup : first.loader.findLatestInode env to_ true = .ok di)
      : ∃ target, cache.fileState env to_ = .ok target := by
    unfold BlockCache.fileState
    split
    · exact ⟨_, rfl⟩
    · rw [← ensured.loader, lookup]
      exact ⟨_, rfl⟩
  have here (member : first.inCache to_ = true)
      : ∃ target, cache.fileState env to_ = .ok target := by
    rw [BlockCache.fileState, if_pos (cached member)]
    exact ⟨_, rfl⟩
  cases targeted with
  | replacing target =>
      cases target with
      | cached member => exact here member
      | loaded away lookup some => exact lookedUp lookup
  | new target was =>
      cases target with
      | absent away lookup none => exact lookedUp lookup

/-- A target that can be shown can be cached or made. -/
theorem exists_targeted {first : BlockCache} {old : Inode} {target : Option FileState}
    (ensured : Ensured env now cache from_ 0 first) (was : first.find from_ = some old)
    (different : from_ ≠ to_) (shown : cache.fileState env to_ = .ok target)
    : ∃ second, Targeted env now first from_ to_ second := by
  cases here : first.inCache to_ with
  | true => exact ⟨_, .replacing (.cached here)⟩
  | false =>
      have away : cache.inCache to_ = false := by
        simp only [BlockCache.inCache, decide_eq_false_iff_not] at here ⊢
        refine fun member => here (member.imp_left fun member => ?_)
        rw [← Std.ExtTreeMap.isSome_getElem?_iff_mem] at member ⊢
        rwa [ensured.entry different.symm]
      rw [BlockCache.fileState, if_neg (by simp [away])] at shown
      obtain ⟨di, lookup, -⟩ := bind_eq_ok.mp shown
      rw [← ensured.loader] at lookup
      by_cases none : di.mtime = 0
      · exact ⟨_, .new (.absent here lookup none) was⟩
      · exact ⟨_, .replacing (.loaded here lookup none)⟩

/-- The target of a rename has the contents of the source. -/
theorem fileState_moved (source : Inode)
    : (cache.moved env now from_ to_ source).fileState env to_
      = .ok (some { source.shape.fileState cache.heap with deleted := false }) := by
  have there : (cache.moved env now from_ to_ source).find to_
      = some (Inode.copyOf env now to_ source) := find_put_self _ _ _
  have cached : (cache.moved env now from_ to_ source).inCache to_ = true := by
    simp [BlockCache.inCache, mem_of_find there]
  rw [BlockCache.fileState, if_pos cached, there]
  rfl

/-- The source of a rename is gone exactly if the target is not filed under its id. -/
theorem isGone_moved_iff {source : Inode} (found : cache.find from_ = some source)
    (different : from_ ≠ to_)
    : IsGone (cache.moved env now from_ to_ source) from_
      ↔ cache.inodeIdx[from_]?.getD [] ≠ Util.cryptoHash env to_ := by
  have marked : IsGone (cache.set from_ (source.deleteInode now)) from_ := isGone_set found now
  constructor
  · rintro ⟨inode, there, deleted⟩ same
    have entry : (cache.moved env now from_ to_ source).inodeIdx[from_]?
        = cache.inodeIdx[from_]? := by
      simp only [moved, put, set, Tables.getElem?_insert, if_neg different]
    have pointer := ptr_of_find there
    have copied : (cache.moved env now from_ to_ source).ptr (Util.cryptoHash env to_)
        = some (Inode.copyOf env now to_ source) := by
      exact (ptr_put (cache.set from_ (source.deleteInode now)) to_
        (Inode.copyOf env now to_ source) _).trans (if_pos rfl)
    rw [entry, same, copied] at pointer
    obtain rfl := Option.some.inj pointer
    cases deleted
  · intro apart
    obtain ⟨inode, there, deleted⟩ := marked
    have keeps : KeepsPath (cache.set from_ (source.deleteInode now))
        (cache.moved env now from_ to_ source) from_ :=
      (keeps_put_apart different apart).congr rfl rfl rfl
    obtain ⟨after, known, same, -⟩ := keeps inode there
    exact ⟨after, known, (congrArg FileState.deleted same).trans deleted⟩

theorem truthful_rename_iff (stocked : Stocked cache)
    : Truthful env now cache (.rename from_ to_) ↔ Honest env now cache (.rename from_ to_) := by
  rw [truthful_iff_of_passed rfl]
  constructor
  · rintro ⟨code, next, taken, success, -⟩
    rcases rename_cases taken with ⟨missing, -, -⟩ | ⟨rfl, first, second, source, ensured, targeted,
      found, rfl⟩
    · cases missing with
      | absent away lookup none =>
          exact Or.inl ((missing_iff env cache from_).mpr ⟨away, _, lookup, none⟩)
    · obtain ⟨existing, ⟨former, shown, -⟩, gone⟩ := success (le_refl _)
      refine Or.inr ⟨existing, ⟨former, shown⟩, ?_⟩
      by_cases same : from_ = to_
      · subst same
        exact ⟨⟨_, shown⟩, Or.inl rfl⟩
      · refine ⟨targeted.shown ensured same, Or.inr ?_⟩
        rw [← ensured.id, ← targeted.entry same]
        exact (isGone_moved_iff found same).mp (gone same)
  · rintro (missing | ⟨existing, ⟨former, shown⟩, ⟨target, shown'⟩, apart⟩)
    · obtain ⟨result, negative, outcome⟩ := rename_fails_iff.mpr missing
      exact ⟨result, cache, outcome, fun good => absurd good (Int.not_le.mpr negative),
        fun _ _ => rfl⟩
    · by_cases same : from_ = to_
      · subst same
        obtain ⟨next, outcome, kept⟩ := rename_self now shown
        exact ⟨0, next, outcome,
          fun _ => ⟨existing, ⟨former, shown, kept⟩, fun other => absurd rfl other⟩,
          fun bad => absurd bad (by decide)⟩
      · obtain ⟨first, old, ready, here, was, rfl⟩ := exists_ensured now shown
        have ensured := ensureCached_ensured ready
        obtain ⟨second, targeted⟩ := exists_targeted ensured was same shown'
        have elsewhere : first.inodeIdx[from_]?.getD [] ≠ Util.cryptoHash env to_ := by
          rw [ensured.id]
          exact apart.resolve_left same
        obtain ⟨source, found, contents, -⟩ :=
          targeted.keeps (stocked.ensured ensured) same elsewhere old was
        refine ⟨0, _, targeted.rename_eq ensured found,
          fun _ => ⟨existing, ⟨_, shown, ?_⟩, fun _ => ?_⟩,
          fun bad => absurd bad (by decide)⟩
        · rw [fileState_moved, contents]
        · rw [isGone_moved_iff found same, targeted.entry same]
          exact elsewhere

-----------------------------------------------------------------------------------------
-- All handlers
-----------------------------------------------------------------------------------------

/-- What a handler does is a run of operations of the cache. -/
theorem handle_run {request : Request} {answer : Answer}
    (answered : handle env now cache request = .ok answer)
    : ∃ events, Run (Steps env) cache events answer.cache := by
  have single {op : Op} (passed : (do
        let (result, cache) ← step env now cache op
        Except.ok ⟨result, [], cache⟩) = Except.ok answer)
      : ∃ events, Run (Steps env) cache events answer.cache := by
    obtain ⟨⟨result, next⟩, taken, passed⟩ := bind_eq_ok.mp passed
    obtain rfl := Except.ok.inj passed
    exact ⟨[⟨now, op, result⟩], .snoc .nil taken⟩
  have flushed {op : Op} {first last : Int} {middle next : BlockCache}
      (taken : step env now cache op = .ok (first, middle))
      (flush : middle.flushToShdw env false = .ok (last, next))
      : ∃ events, Run (Steps env) cache events next :=
    ⟨[⟨now, op, first⟩, ⟨now, .flushToShdw false, last⟩], .snoc (.snoc .nil taken) flush⟩
  cases request with
  | open_ path => exact @single (.open_ path) answered
  | unlink path => exact @single (.remove path) answered
  | rmdir path => exact @single (.rmdir path) answered
  | rename from_ to_ => exact @single (.rename from_ to_) answered
  | read path size offset =>
      obtain ⟨⟨result, bytes, next⟩, done, answered⟩ := bind_eq_ok.mp answered
      obtain rfl := Except.ok.inj answered
      obtain ⟨⟨code, stored, after⟩, outcome, done⟩ := bind_eq_ok.mp done
      obtain ⟨-, same⟩ := Prod.mk.inj (Except.ok.inj done)
      obtain ⟨-, rfl⟩ := Prod.mk.inj same
      have taken : Steps env cache ⟨now, .read path size offset, code⟩ after := by
        simp only [Steps, step, outcome, ok_bind]
      exact ⟨_, .snoc .nil taken⟩
  | write path buf offset =>
      obtain ⟨⟨result, next⟩, done, answered⟩ := bind_eq_ok.mp answered
      obtain rfl := Except.ok.inj answered
      obtain ⟨⟨code, middle⟩, outcome, done⟩ := bind_eq_ok.mp done
      obtain ⟨⟨last, after⟩, flush, done⟩ := bind_eq_ok.mp done
      obtain ⟨-, rfl⟩ := Prod.mk.inj (Except.ok.inj done)
      obtain ⟨count, outcome, -⟩ := write_eq_ok_iff.mp outcome
      exact @flushed (.write path buf offset) _ _ _ _ outcome flush
  | truncate path size =>
      obtain ⟨⟨result, next⟩, done, answered⟩ := bind_eq_ok.mp answered
      obtain rfl := Except.ok.inj answered
      obtain ⟨⟨code, middle⟩, outcome, done⟩ := bind_eq_ok.mp done
      obtain ⟨⟨last, after⟩, flush, done⟩ := bind_eq_ok.mp done
      obtain ⟨-, rfl⟩ := Prod.mk.inj (Except.ok.inj done)
      exact @flushed (.truncate path size) _ _ _ _ outcome flush

/-- Without links to other paths a flush that is due goes through. -/
theorem Coherent.savesAfter {op : Op} (coherent : Coherent env names cache) (plain : Plain names op)
    : SavesAfter env now cache op := by
  intro code next taken _
  have after := coherent.effect plain (step_effect taken)
  exact after.flushFits.fill_ok after.pointed

/-- In every reachable state, the answer of a handler is truthful exactly under its condition. -/
theorem codes_truthful_iff {disk : List Image} {order : VisitOrder} {size : Nat}
    {events : List Event} {request : Request}
    (run : Run (Steps env) (BlockCache.new disk order size) events cache) (fits : request.Fits)
    : Truthful env now cache request ↔ Honest env now cache request := by
  have stocked := Stocked.run run
  cases request with
  | open_ path => exact truthful_open_iff
  | read path size offset => exact truthful_read_iff fits
  | write path buf offset => exact truthful_write_iff stocked fits.1 fits.2
  | truncate path size => exact truthful_truncate_iff
  | unlink path => exact truthful_unlink_iff
  | rmdir path => exact truthful_rmdir_iff
  | rename from_ to_ => exact truthful_rename_iff stocked

/-- A write of two bytes to a file that was created. -/
theorem codes_truthful_iff_created
    : Truthful Util.twoDigests (.at_ 2) withFile (.write [47, 97] [1, 2] 0)
      ↔ Honest Util.twoDigests (.at_ 2) withFile (.write [47, 97] [1, 2] 0) := by
  have run : Run (Steps Util.twoDigests) fresh
      [⟨.at_ 1, .makeFile [47, 97] 0o100644 true, 0⟩] withFile := .snoc .nil rfl
  exact codes_truthful_iff run ⟨by decide, by decide⟩

/-- Nothing exists in an empty cache on an empty directory, and yet a path is opened, written and
truncated with success.
-/
theorem codes_untruthful
    : Run (Steps Util.twoDigests) fresh [] fresh
      ∧ ¬ Truthful Util.twoDigests (.at_ 1) fresh (.open_ [47, 97])
      ∧ ¬ Truthful Util.twoDigests (.at_ 1) fresh (.write [47, 97] [1] 0)
      ∧ ¬ Truthful Util.twoDigests (.at_ 1) fresh (.truncate [47, 97] 0) := by
  have absent : fresh.fileState Util.twoDigests [47, 97] = .ok none := rfl
  have missing : ¬ Existing Util.twoDigests fresh [47, 97] := by
    rintro (root | ⟨file, shown, -⟩)
    · exact absurd root (by decide)
    · rw [absent] at shown
      cases shown
  have stocked : Stocked fresh := Stocked.new _ _ _
  refine ⟨.nil, fun truthful => ?_, fun truthful => ?_, fun truthful => ?_⟩
  · exact missing (truthful_open_iff.mp truthful)
  · exact missing ((truthful_write_iff stocked (by decide) (by decide)).mp truthful).1
  · exact missing (truthful_truncate_iff.mp truthful).1

end BlockCache

end ZippyFS
