import ZippyFS.Cache.Archive
import ZippyFS.Cache.Ownership

/-! How large blocks get. `insert_data` clips what it copies to the array, but the size it records
goes on past the end; readers and flushes take the recorded size for what the array holds.
-/

namespace ZippyFS

open Runs

/-- A block lies in its array: the recorded size fits, zeros follow, and a copy of the recorded
size reads nothing behind the array.
-/
structure Block.InArray (block : Block) : Prop where
  small : block.actualSize ≤ SIZE
  clean : block.Clean
  inside : ∀ env other, block.copied env block.actualSize = block.copied other block.actualSize

/-- A clean block of a small size lies in its array. -/
theorem Block.Clean.inArray {block : Block} (clean : block.Clean)
    (small : block.actualSize ≤ SIZE)
    : block.InArray where
  small := small
  clean := clean
  inside := by
    intro env other
    apply List.map_congr_left
    intro ii member
    have under := List.mem_range.mp member
    rw [if_pos (by omega), if_pos (by omega)]

/-- The blocks that a record carries are small. -/
def AddCall.Small (call : AddCall) : Prop :=
  ∀ (blockIdx : Nat) (block : Block), call.dirtyBlocks[blockIdx]? = some block
    → block.actualSize ≤ SIZE

namespace BlockCache

variable {env : Env} {now : Clock} {cache next : BlockCache} {path buf : Bytes} {offset : Nat}
  {result : Int} {inode : Inode} {names : Set Bytes}

-----------------------------------------------------------------------------------------
-- The invariant, and the turns that keep it
-----------------------------------------------------------------------------------------

/-- All blocks that inodes hold or that wait for a flush lie in their arrays. -/
structure BlocksInArrays (cache : BlockCache) : Prop where
  held
    : ∀ (id : Bytes) (inode : Inode) (blockIdx : Nat) (ref : BlockRef),
      cache.ptr id = some inode → inode.blocks[blockIdx]? = some ref → (cache.heap ref).InArray
  dirty
    : ∀ (id : Bytes) (blockIdx : Nat) (ref : BlockRef),
      (cache.dirtyBlock[id]?.getD ∅)[blockIdx]? = some ref → (cache.heap ref).InArray

/-- Where the first block of a write is there already, the bytes for it end in it. -/
def FirstBlockTakes (env : Env) (now : Clock) (cache : BlockCache) (path buf : Bytes)
    (offset : Nat)
    : Prop :=
  ∀ middle inode, cache.readyToWrite env now path = .ok (0, middle)
    → middle.find path = some inode → offset / SIZE % 2 ^ 32 ∈ inode.blocks
    → offset % SIZE + min buf.length SIZE ≤ SIZE

/-- A turn records no size past the end of an array, and its flush writes no file whose records
overlap.
-/
def KeepsSizes (env : Env) (cache : BlockCache) : Turn → Prop
  | .restart _ _ => True
  | .call event =>
      (event.Flushes → cache.FlushFits)
        ∧ match event.op with
          | .write path buf offset => FirstBlockTakes env event.now cache path buf offset
          | .getInodeByPath _ => False
          | _ => True

/-- All blocks are small. -/
def AllSmall (cache : BlockCache) : Prop := ∀ ref, (cache.heap ref).actualSize ≤ SIZE

/-- What every turn that keeps the sizes keeps. -/
structure SizesKept (env : Env) (names : Set Bytes) (cache : BlockCache) : Prop where
  pointed : Pointed env names cache
  stocked : Stocked cache
  small : AllSmall cache
  backed : Backed env AddCall.Small cache

theorem SizesKept.inArrays (kept : SizesKept env names cache) : BlocksInArrays cache where
  held := fun _ _ _ ref _ _ => (kept.stocked.clean ref).inArray (kept.small ref)
  dirty := fun _ _ ref _ => (kept.stocked.clean ref).inArray (kept.small ref)

-----------------------------------------------------------------------------------------
-- Loading and writing
-----------------------------------------------------------------------------------------

/-- A block read back has the size of the one that was stored. -/
theorem Block.readBack_actualSize (env : Env) (block : Block)
    : (block.readBack env).actualSize = block.actualSize :=
  Block.new_actualSize _ _

/-- The blocks found on disk are small. -/
theorem AllSmall.withBlocks {di : DiskInodeInfo} (small : AllSmall cache)
    (archived : Archived env AddCall.Small cache.loader.fileToMem)
    (lookup : cache.loader.findLatestInode env path true = .ok di)
    : AllSmall (cache.withBlocks di) := by
  intro ref
  simp only [BlockCache.withBlocks]
  split
  · cases known : di.blockData[ref.2]? with
    | none => exact small ref
    | some block =>
        obtain ⟨call, stored, smalls, _, there, rfl⟩ := archived.lookup_block lookup known
        rw [Option.getD_some, Block.readBack_actualSize]
        exact smalls ref.2 stored there
  · exact small ref

theorem AllSmall.ensured (small : AllSmall cache)
    (archived : Archived env AddCall.Small cache.loader.fileToMem)
    (ensured : Ensured env now cache path result next)
    : AllSmall next := by
  cases ensured with
  | cached here => exact small
  | absent away lookup none => exact small
  | loaded away lookup some => exact small.withBlocks archived lookup

theorem AllSmall.ready {middle : BlockCache} (small : AllSmall cache)
    (archived : Archived env AddCall.Small cache.loader.fileToMem)
    (ready : Ready env now cache path middle inode)
    : AllSmall middle := by
  cases ready with
  | cached here found => exact small
  | loaded away lookup some => exact small.withBlocks archived lookup

/-- The block loop leaves small blocks if the first one takes its bytes, by induction on its fuel:
all later ones take at most a whole array from its start.
-/
theorem writeLoop_small {alloc numBlocks fuel blockIdx currIdx blockSize offsetAmt : Nat}
    {state final : Writing}
    (takes
      : blockIdx ∈ state.inode.blocks
        → offsetAmt + min (buf.length - (currIdx + blockSize)) SIZE ≤ SIZE)
    (small : ∀ ref, (state.heap ref).actualSize ≤ SIZE)
    (loop
      : writeLoop now buf alloc numBlocks fuel blockIdx currIdx blockSize offsetAmt state
        = .ok final)
    : ∀ ref, (final.heap ref).actualSize ≤ SIZE := by
  induction fuel generalizing blockIdx currIdx blockSize offsetAmt state with
  | zero => cases loop
  | succ fuel ih =>
      rw [writeLoop] at loop
      split at loop
      · dsimp only at loop
        have share : (if buf.length < currIdx + blockSize + SIZE
            then buf.length - (currIdx + blockSize) else SIZE)
            = min (buf.length - (currIdx + blockSize)) SIZE := by
          split <;> omega
        rw [share] at loop
        refine ih ?_ ?_ loop
        · intro _
          omega
        · intro ref
          unfold writeBlock
          cases present : state.inode.blocks[blockIdx]? with
          | some temp =>
              have here : blockIdx ∈ state.inode.blocks :=
                Std.ExtTreeMap.isSome_getElem?_iff_mem.mp (by rw [present]; rfl)
              have fits := takes here
              simp only [Function.update_apply]
              split
              · rw [Block.insert_actualSize]
                exact Nat.max_le.mpr ⟨small temp, by omega⟩
              · exact small ref
          | none =>
              simp only [Function.update_apply]
              split
              · rw [Block.new_actualSize]
                exact Nat.min_le_right _ _
              · exact small ref
      · split at loop
        · rwa [← Except.ok.inj loop]
        · cases loop

theorem Ready.readyToWrite {middle : BlockCache} (ready : Ready env now cache path middle inode)
    : cache.readyToWrite env now path = .ok (0, middle) := by
  unfold BlockCache.readyToWrite
  cases ready with
  | cached here found =>
      rw [if_pos here, getInodeByPath_eq_ok.mpr found]
      rfl
  | loaded away lookup some =>
      rw [if_neg (by simp [away]), loadFromDisk_away now away lookup some]

theorem AllSmall.flushed (small : AllSmall cache) (flush : Flushed env cache result next)
    : AllSmall next := by
  cases flush with
  | nothing unchanged => exact small
  | flushed changed filled => exact small

/-- A write whose first block takes its bytes leaves small blocks. -/
theorem AllSmall.written {state : Writing} (small : AllSmall cache)
    (takes : offset / SIZE % 2 ^ 32 ∈ inode.blocks → offset % SIZE + min buf.length SIZE ≤ SIZE)
    (loop : cache.runLoop now path buf offset inode = .ok state)
    : AllSmall (cache.written path state) := by
  have first : (if offset < SIZE then offset else offset % SIZE) = offset % SIZE := by
    split
    · rw [Nat.mod_eq_of_lt ‹_›]
    · rfl
  have start : ∀ ref, ((startOf now cache path inode
      ((buf.length + offset) % 2 ^ 64)).heap ref).actualSize ≤ SIZE := small
  have bound : ∀ ref, (state.heap ref).actualSize ≤ SIZE := by
    refine writeLoop_small ?_ start loop
    intro here
    rw [startOf, grown_blocks] at here
    rw [first]
    simpa using takes here
  exact bound

-----------------------------------------------------------------------------------------
-- Runs
-----------------------------------------------------------------------------------------

/-- A turn that keeps the sizes leaves small blocks. -/
theorem AllSmall.effect {event : Event} (small : AllSmall cache)
    (archived : Archived env AddCall.Small cache.loader.fileToMem)
    (keeps : KeepsSizes env cache (.call event))
    (effect : Effect env event.now cache event.op result next)
    : AllSmall next := by
  obtain ⟨now, op, code⟩ := event
  have takes := keeps.2
  cases effect with
  | makeFile path mode dirty => exact small
  | writeMissing missing => exact small
  | write ready loop =>
      exact (small.ready archived ready).written (takes _ _ ready.readyToWrite ready.found) loop
  | truncateMissing away => exact small
  | truncate here found => exact small
  | removeMissing away => exact small
  | remove here noNulls found => exact small
  | rmdirMissing away => exact small
  | rmdir here found => exact small
  | renameMissing missing => exact small
  | @renameOver from_ to_ first second source ensured target found =>
      have known : Archived env AddCall.Small first.loader.fileToMem :=
        ensured.sameDisk.loader ▸ archived
      have both : AllSmall second := (small.ensured archived ensured).ensured known target
      exact both
  | @renameNew from_ to_ first old source ensured target was found =>
      have loaded : AllSmall first := small.ensured archived ensured
      exact loaded
  | symlink from_ to_ => exact small
  | open_ ensured => exact small.ensured archived ensured
  | read ensured found bytes => exact small.ensured archived ensured
  | readlink outcome => exact small
  | getattr outcome => exact small
  | getRefs outcome => exact small
  | inCache path => exact small
  | loadFromDisk loaded =>
      cases loaded with
      | absent lookup none => exact small
      | kept here found lookup some newer => exact small.withBlocks archived lookup
      | replaced here found lookup some older => exact small.withBlocks archived lookup
      | loaded away lookup some => exact small.withBlocks archived lookup
  | getInodeByPath path => exact small
  | flushToDisk flushed => exact small.flushed flushed
  | flushToShdwKept _ => exact small
  | flushToShdw flushed => exact small.flushed flushed
  | loadTrees order => exact small
  | readdir order path => exact small

/-- What a flush writes are the small blocks that were waiting for it. -/
theorem AllSmall.flushCall (small : AllSmall cache) (ent : Bytes × Bytes) (inode : Inode)
    : (cache.flushCall ent inode).Small := by
  intro blockIdx block known
  simp only [BlockCache.flushCall, dirtyBlocksOf, Std.ExtTreeMap.getElem?_map,
    Option.map_eq_some_iff] at known
  obtain ⟨ref, _, rfl⟩ := known
  exact small ref

theorem SizesKept.turn {turn : Turn} (kept : SizesKept env names cache)
    (members : ∀ path ∈ turn.paths, path ∈ names) (keeps : KeepsSizes env cache turn)
    (taken : Turns env cache turn next)
    : SizesKept env names next := by
  cases turn with
  | restart order size =>
      obtain rfl : next = BlockCache.new cache.disk order size := taken
      exact ⟨Pointed.new _ _ _, Stocked.new _ _ _, fun _ => Nat.zero_le _,
        Backed.restart kept.backed.disk _ _⟩
  | call event =>
      have effect := step_effect taken
      have inside : ∀ path, event.op ≠ .getInodeByPath path := by
        intro path same
        have never := keeps.2
        simp only [same] at never
      refine ⟨kept.pointed.effect inside members effect, kept.stocked.effect effect,
        kept.small.effect kept.backed.loader keeps effect, ?_⟩
      exact kept.backed.effect kept.pointed keeps.1
        (fun path inode _ => kept.small.flushCall (path, inode.inodeId) inode) effect

/-- In every run from an empty directory, through any number of processes, whose turns all keep
the sizes, every block lies in its array in every state.
-/
theorem blocks_in_arrays {order : VisitOrder} {size : Nat} {turns : List Turn}
    (run
      : Run (fun cache turn next => Turns env cache turn next ∧ KeepsSizes env cache turn)
        (BlockCache.new [] order size) turns cache)
    : BlocksInArrays cache := by
  have start : SizesKept env (namedIn turns) (BlockCache.new [] order size) :=
    ⟨Pointed.new _ _ _, Stocked.new _ _ _, fun _ => Nat.zero_le _,
      Backed.restart (by simp [Archived]) _ _⟩
  have kept : SizesKept env (namedIn turns) cache := by
    refine run.recorded.state_invariant start ?_
    rintro state turn next kept ⟨member, taken, keeps⟩
    exact kept.turn (fun path named => ⟨turn, member, named⟩) keeps taken
  exact kept.inArrays

/-- A run that creates a file and writes it twice. -/
theorem blocks_in_arrays_written
    : ∃ cache,
        Run (Turns Util.twoDigests) fresh
          [.call ⟨.at_ 1, .makeFile [47, 97] 0o100644 true, 0⟩,
            .call ⟨.at_ 2, .write [47, 97] [1] 0, 1⟩,
            .call ⟨.at_ 3, .write [47, 97] [2, 3] 4094, 2⟩] cache
        ∧ BlocksInArrays cache := by
  have done : (replay Util.twoDigests fresh
        [.call ⟨.at_ 1, .makeFile [47, 97] 0o100644 true, 0⟩,
          .call ⟨.at_ 2, .write [47, 97] [1] 0, 1⟩,
          .call ⟨.at_ 3, .write [47, 97] [2, 3] 4094, 2⟩]).toOption.any (fun _ => true)
      = true := by
    decide +kernel
  obtain ⟨cache, run, _⟩ := exists_run done
  have guarded : Run (fun cache turn next => Turns Util.twoDigests cache turn next
        ∧ KeepsSizes Util.twoDigests cache turn) fresh
      [.call ⟨.at_ 1, .makeFile [47, 97] 0o100644 true, 0⟩,
        .call ⟨.at_ 2, .write [47, 97] [1] 0, 1⟩,
        .call ⟨.at_ 3, .write [47, 97] [2, 3] 4094, 2⟩] cache := by
    refine run.recorded.weaken ?_
    rintro state turn next ⟨member, taken⟩
    refine ⟨taken, ?_⟩
    simp only [List.mem_cons, List.not_mem_nil, or_false] at member
    rcases member with rfl | rfl | rfl
    · exact ⟨(by rintro ⟨same | ⟨_, same⟩, _⟩ <;> cases same), trivial⟩
    · exact ⟨(by rintro ⟨same | ⟨_, same⟩, _⟩ <;> cases same), fun _ _ _ _ _ => by decide⟩
    · exact ⟨(by rintro ⟨same | ⟨_, same⟩, _⟩ <;> cases same), fun _ _ _ _ _ => by decide⟩
  exact ⟨cache, run, blocks_in_arrays guarded⟩

/-- Two bytes written to a block at its last place. -/
theorem block_overruns
    : ∃ cache,
        Run (Turns Util.twoDigests) fresh
          [.call ⟨.at_ 1, .makeFile [47, 97] 0o100644 true, 0⟩,
            .call ⟨.at_ 2, .write [47, 97] [1] 0, 1⟩,
            .call ⟨.at_ 3, .write [47, 97] [2, 3] 4095, 2⟩] cache
        ∧ ¬ BlocksInArrays cache := by
  have long : (replay Util.twoDigests fresh
        [.call ⟨.at_ 1, .makeFile [47, 97] 0o100644 true, 0⟩,
          .call ⟨.at_ 2, .write [47, 97] [1] 0, 1⟩,
          .call ⟨.at_ 3, .write [47, 97] [2, 3] 4095, 2⟩]).toOption.any
      (fun cache => (cache.find [47, 97]).any (fun inode =>
        (inode.blocks[(0 : Nat)]?).any (fun ref => (cache.heap ref).actualSize = 4097)))
      = true := by
    decide +kernel
  obtain ⟨cache, run, shown⟩ := exists_run long
  refine ⟨cache, run, ?_⟩
  intro inArrays
  obtain ⟨inode, found, held⟩ := (Option.any_eq_true _ _).mp shown
  obtain ⟨ref, there, size⟩ := (Option.any_eq_true _ _).mp held
  have small := (inArrays.held _ inode 0 ref (ptr_of_find found) there).small
  rw [of_decide_eq_true size] at small
  exact absurd small (by decide)

end BlockCache

end ZippyFS
