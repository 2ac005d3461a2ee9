import ZippyFS.Cache.ReadSlice

/-! Truncation. `truncate` sets the size and leaves the blocks as they are, so along a run of
writes and truncations the blocks are compared with the content that is due, kept beside the
cache.
-/

namespace ZippyFS

open Runs

/-- A cache and the content that is due in one of its files. -/
structure Expected where
  cache : BlockCache
  bytes : Nat → UInt8
  size : Nat

/-- A write to the file, at a 64-bit offset, or a truncation of it. -/
def Op.Changes (path : Bytes) : Op → Prop
  | .write target _ offset => target = path ∧ offset < 2 ^ 64
  | .truncate target _ => target = path
  | _ => False

namespace BlockCache

variable {env : Env} {now : Clock} {cache next : BlockCache} {path buf : Bytes} {result : Int}
  {offset limit number : Nat} {inode : Inode} {state : Expected}

-----------------------------------------------------------------------------------------
-- The law and the condition
-----------------------------------------------------------------------------------------

/-- What a round of a write stores at an index of its block: a block that is there takes the
bytes from the start of the buffer, a missing one those behind the rounds before.
-/
def storedByte (buf : Bytes) (offset number : Nat) (present : Bool) (ii : Nat) : Option UInt8 :=
  let start := if present then startIn offset number else 0
  let currIdx := if present then 0 else before buf number
  if start ≤ ii ∧ ii - start < share buf number then some (buf.getD (currIdx + (ii - start)) 0)
  else none

/-- What a write stores at a position. -/
def stored (buf : Bytes) (offset : Nat) (inode : Inode) (position : Nat) : Option UInt8 :=
  if Touched offset (roundCount buf offset) (position / SIZE) then
    storedByte buf offset (position / SIZE - firstBlock offset) (inode.hasBlock (position / SIZE))
      (position % SIZE)
  else none

/-- The bytes that are due after a call: a truncation cuts or pads with zeros, a write changes
what it stores.
-/
def bytesAfter (state : Expected) (path : Bytes) : Op → Nat → UInt8
  | .truncate _ size, position => if position < size then state.bytes position else 0
  | .write _ buf offset, position =>
      ((state.cache.find path).bind (stored buf offset · position)).getD (state.bytes position)
  | _, position => state.bytes position

/-- The size that is due after a call. -/
def sizeAfter (state : Expected) : Op → Nat
  | .truncate _ size => size
  | .write _ buf offset => max state.size (offset + buf.length)
  | _ => state.size

/-- A write or a truncation that returned, and what is due afterwards. -/
structure FileSteps (env : Env) (path : Bytes) (state : Expected) (event : Event)
    (next : Expected)
    : Prop where
  step : Steps env state.cache event next.cache
  changes : event.op.Changes path
  bytes : next.bytes = bytesAfter state path event.op
  size : next.size = sizeAfter state event.op

/-- No block of the file holds a byte at the limit or behind it. -/
def HeldBelow (cache : BlockCache) (inode : Inode) (limit : Nat) : Prop :=
  ∀ blockIdx block, cache.oldBlock inode blockIdx = some block
    → ∀ ii < block.actualSize, SIZE * blockIdx + ii < limit

/-- A file shows what is due: it has the size, its blocks hold the bytes, with zeros behind them,
a read delivers only bytes that are in the file (or lie behind the array of a block), and the
blocks hold nothing behind the size.
-/
structure ShowsDue (env : Env) (state : Expected) (inode : Inode) : Prop where
  size : inode.size = state.size
  content : ∀ position, byteAt state.cache.heap inode position = state.bytes position
  delivered
    : ∀ size offset result bytes,
      inode.read env state.cache.heap size offset = .ok (result, bytes)
      → ∀ byte ∈ bytes, (∃ position < state.size, byte = state.bytes position)
        ∨ ∃ ii, SIZE ≤ ii ∧ byte = env.beyond ii
  held : HeldBelow state.cache inode inode.size

/-- The file is cached and shows what is due. -/
def FileLaw (env : Env) (path : Bytes) (state : Expected) : Prop :=
  ∃ inode, state.cache.find path = some inode ∧ ShowsDue env state inode

/-- If the call is a truncation, no block holds a byte at the new end or behind it. -/
def CutsNothing (path : Bytes) (state : Expected) (event : Event) : Prop :=
  ∀ size inode, event.op = .truncate path size → state.cache.find path = some inode
    → HeldBelow state.cache inode size

/-- At the start the bytes up to the size are due. -/
def expected (cache : BlockCache) (inode : Inode) : Expected where
  cache := cache
  bytes := fun position => if position < inode.size then byteAt cache.heap inode position else 0
  size := inode.size

-----------------------------------------------------------------------------------------
-- What blocks hold
-----------------------------------------------------------------------------------------

/-- Behind the limit the array is zero. -/
theorem HeldBelow.byteAt_eq_zero (held : HeldBelow cache inode limit) {position : Nat}
    (behind : limit ≤ position)
    : byteAt cache.heap inode position = 0 := by
  have content : byteAt cache.heap inode position
      = contentAt (cache.oldBlock inode (position / SIZE)) (position % SIZE) := rfl
  rw [content]
  cases known : cache.oldBlock inode (position / SIZE) with
  | none => rfl
  | some block =>
      refine if_neg fun used => ?_
      have below := held _ block known _ used
      rw [Nat.div_add_mod] at below
      omega

/-- A round leaves no byte behind the end of its write, unless it was there before. -/
theorem roundBlock_below {old : Option Block}
    (held : ∀ block, old = some block
      → ∀ ii < block.actualSize, SIZE * (firstBlock offset + number) + ii < limit)
    {ii : Nat} (used : ii < (roundBlock buf offset number old).actualSize)
    : SIZE * (firstBlock offset + number) + ii < max limit (offset + buf.length) := by
  have whole : SIZE * firstBlock offset + offset % SIZE = offset := Nat.div_add_mod ..
  have product : SIZE * (firstBlock offset + number) = SIZE * firstBlock offset + SIZE * number :=
    Nat.mul_add _ _ _
  have inBuffer (within : ii < share buf number + startIn offset number)
      : SIZE * (firstBlock offset + number) + ii < offset + buf.length := by
    unfold share startIn at within
    split at within
    case isTrue first =>
      subst first
      omega
    case isFalse later => omega
  cases old with
  | none =>
      rw [roundBlock, Block.new_actualSize] at used
      exact lt_max_of_lt_right (inBuffer (used.trans_le (Nat.le_add_right _ _)))
  | some block =>
      rw [roundBlock, Block.insert_actualSize] at used
      rcases lt_max_iff.mp used with was | added
      · exact lt_max_of_lt_left (held block rfl ii was)
      · exact lt_max_of_lt_right (inBuffer added)

/-- A round changes what it stores. -/
theorem contentAt_roundBlock {old : Option Block} (clean : CleanOption old) {ii : Nat}
    (inside : ii < SIZE)
    : contentAt (some (roundBlock buf offset number old)) ii
      = (storedByte buf offset number old.isSome ii).getD (contentAt old ii) := by
  rw [contentAt_clean (roundBlock_clean clean number)]
  cases old with
  | none =>
      simp only [roundBlock, Block.new, Block.insertData, Block.empty, storedByte, contentAt,
        Option.isSome_none, Bool.false_eq_true, if_false, Nat.zero_le, true_and, Nat.sub_zero,
        inside]
      split
      · rw [List.getD_eq_getElem?_getD, List.getElem?_drop, Option.getD_some,
          List.getD_eq_getElem?_getD]
      · rfl
  | some block =>
      rw [contentAt_clean (clean block rfl)]
      simp only [roundBlock, Block.insert, Block.insertData, storedByte, Option.isSome_some,
        if_true, inside, true_and, Nat.zero_add]
      split <;> rfl

-----------------------------------------------------------------------------------------
-- Calls
-----------------------------------------------------------------------------------------

/-- What a read delivers is held by the blocks, so a file whose blocks hold the bytes that are
due and nothing behind the size shows what is due.
-/
theorem ShowsDue.of_content (size : inode.size = state.size)
    (content : ∀ position, byteAt state.cache.heap inode position = state.bytes position)
    (held : HeldBelow state.cache inode inode.size)
    : ShowsDue env state inode := by
  refine ⟨size, content, ?_, held⟩
  intro amount offset result bytes outcome byte member
  obtain ⟨-, outcome⟩ := Inode.read_eq_ok_iff.mp outcome
  obtain ⟨count, -, -, rfl⟩ := Inode.readBytes_eq_ok_iff.mp outcome
  obtain ⟨number, -, inStock⟩ := Inode.mem_delivered member
  obtain ⟨ref, there, ii, used, rfl⟩ := Inode.mem_stock inStock
  by_cases inside : ii < SIZE
  · refine Or.inl ⟨SIZE * Inode.visit offset number + ii, ?_, ?_⟩
    · rw [← size]
      exact held _ _ (Option.map_eq_some_iff.mpr ⟨ref, there, rfl⟩) ii used
    · rw [← content, if_pos inside, Inode.byteAt_of_held there inside used]
  · exact Or.inr ⟨ii, Nat.le_of_not_lt inside, if_neg inside⟩

/-- What a write leaves at a position. -/
theorem byteAt_written (stocked : Stocked cache) {after : Inode}
    (blocks
      : ∀ blockIdx, next.oldBlock after blockIdx
        = if Touched offset (roundCount buf offset) blockIdx
          then some (roundBlock buf offset (blockIdx - firstBlock offset)
            (cache.oldBlock inode blockIdx))
          else cache.oldBlock inode blockIdx)
    (position : Nat)
    : byteAt next.heap after position
      = (stored buf offset inode position).getD (byteAt cache.heap inode position) := by
  have content : byteAt next.heap after position
      = contentAt (next.oldBlock after (position / SIZE)) (position % SIZE) := rfl
  have present : (cache.oldBlock inode (position / SIZE)).isSome
      = inode.hasBlock (position / SIZE) := by
    rw [oldBlock, Option.isSome_map, Inode.hasBlock, Bool.eq_iff_iff, decide_eq_true_iff]
    exact Std.ExtTreeMap.isSome_getElem?_iff_mem
  rw [content, blocks, stored]
  split
  · rw [contentAt_roundBlock (stocked.oldBlock_clean inode _)
      (Nat.mod_lt _ (by decide : 0 < SIZE)), present]
    rfl
  · rfl

/-- A write leaves no byte behind its end, unless it was there before. -/
theorem HeldBelow.written (held : HeldBelow cache inode limit) {after : Inode}
    (blocks
      : ∀ blockIdx, next.oldBlock after blockIdx
        = if Touched offset (roundCount buf offset) blockIdx
          then some (roundBlock buf offset (blockIdx - firstBlock offset)
            (cache.oldBlock inode blockIdx))
          else cache.oldBlock inode blockIdx)
    : HeldBelow next after (max limit (offset + buf.length)) := by
  intro blockIdx block known ii used
  rw [blocks] at known
  split at known
  case isTrue touched =>
    obtain rfl := Option.some.inj known
    have back : firstBlock offset + (blockIdx - firstBlock offset) = blockIdx :=
      Nat.add_sub_cancel' touched.1
    have below := roundBlock_below (by rw [back]; exact held blockIdx) used
    rwa [back] at below
  case isFalse => exact lt_max_of_lt_left (held blockIdx block known ii used)

/-- A write keeps the law. -/
theorem FileLaw.write (stocked : Stocked state.cache) (law : FileLaw env path state)
    (offsetBits : offset < 2 ^ 64)
    (outcome : state.cache.writeCounted env now path buf offset = .ok (result, next))
    : FileLaw env path ⟨next, bytesAfter state path (.write path buf offset),
        sizeAfter state (.write path buf offset)⟩ := by
  obtain ⟨inode, found, shows⟩ := law
  obtain ⟨next', after, outcome', there, size, blocks⟩ :=
    stocked.write_blocks env now found (ends_of_returned found offsetBits outcome)
  obtain ⟨-, rfl⟩ := Prod.mk.inj (Except.ok.inj (outcome.symm.trans outcome'))
  refine ⟨after, there, .of_content ?_ ?_ ?_⟩
  · rw [size, shows.size]
    rfl
  · intro position
    rw [byteAt_written stocked blocks, shows.content]
    simp only [bytesAfter, found, Option.bind_some]
  · rw [size]
    exact shows.held.written blocks

/-- A truncation of a cached file sets its size and leaves the blocks as they are. -/
theorem truncate_cached (found : cache.find path = some inode) (size : Nat)
    : cache.truncate now path size
      = .ok (0, { cache.set path (inode.setSize now size) with hasChanged := true }) := by
  have here : cache.inCache path = true := by simp [inCache, mem_of_find found]
  have known : cache.getInodeByPath path = .ok inode := getInodeByPath_eq_ok.mpr found
  rw [truncate, if_pos here, known]
  rfl

/-- A truncation keeps the law exactly if it cuts nothing. -/
theorem FileLaw.truncate_iff (law : FileLaw env path state) (size : Nat)
    (outcome : state.cache.truncate now path size = .ok (result, next))
    : FileLaw env path ⟨next, bytesAfter state path (.truncate path size), size⟩
      ↔ CutsNothing path state ⟨now, .truncate path size, result⟩ := by
  obtain ⟨inode, found, shows⟩ := law
  have there : next.find path = some (inode.setSize now size) ∧ next.heap = state.cache.heap := by
    rw [truncate_cached found] at outcome
    obtain ⟨-, rfl⟩ := Prod.mk.inj (Except.ok.inj outcome)
    exact ⟨find_set_self (mem_of_find found), rfl⟩
  obtain ⟨there, heap⟩ := there
  have blocks (blockIdx : Nat) : next.oldBlock (inode.setSize now size) blockIdx
      = state.cache.oldBlock inode blockIdx := by
    unfold oldBlock
    rw [heap]
    rfl
  constructor
  · rintro ⟨after, known, shows'⟩ size' inode' called found'
    obtain ⟨-, rfl⟩ := Op.truncate.inj called
    obtain rfl := Option.some.inj (found.symm.trans found')
    obtain rfl := Option.some.inj (there.symm.trans known)
    intro blockIdx block before ii used
    exact shows'.held blockIdx block ((blocks blockIdx).trans before) ii used
  · intro cuts
    have held : HeldBelow state.cache inode size := cuts size inode rfl found
    refine ⟨inode.setSize now size, there, .of_content rfl ?_ ?_⟩
    · intro position
      have content : byteAt next.heap (inode.setSize now size) position
          = byteAt state.cache.heap inode position := by
        rw [heap]
        rfl
      simp only [content, bytesAfter]
      split
      case isTrue => exact shows.content position
      case isFalse behind => exact held.byteAt_eq_zero (Nat.le_of_not_lt behind)
    · intro blockIdx block known ii used
      exact held blockIdx block ((blocks blockIdx).symm.trans known) ii used

/-- A call keeps the law exactly if it cuts nothing. -/
theorem FileLaw.step_iff {event : Event} {after : Expected} (stocked : Stocked state.cache)
    (law : FileLaw env path state) (taken : FileSteps env path state event after)
    : FileLaw env path after ↔ CutsNothing path state event := by
  obtain ⟨next, bytes, size⟩ := after
  obtain ⟨now, op, result⟩ := event
  obtain ⟨stepped, changes, rfl, rfl⟩ := taken
  cases op with
  | write target buf offset =>
      obtain ⟨rfl, offsetBits⟩ := changes
      refine iff_of_true (law.write stocked offsetBits stepped) ?_
      intro size inode called
      cases called
  | truncate target size =>
      obtain rfl := changes
      exact law.truncate_iff size stepped
  | _ => exact changes.elim

-----------------------------------------------------------------------------------------
-- Runs
-----------------------------------------------------------------------------------------

/-- A run of writes and truncations behind which the law holds every time, and one of which no
truncation cuts anything.
-/
def KeepsFileRun (env : Env) (path : Bytes) : Expected → List Event → Expected → Prop :=
  Run fun state event next => FileSteps env path state event next ∧ FileLaw env path next

def CutsNothingRun (env : Env) (path : Bytes) : Expected → List Event → Expected → Prop :=
  Run fun state event next => FileSteps env path state event next ∧ CutsNothing path state event

/-- What is due can be kept along every run of writes and truncations, by induction on it. -/
theorem exists_expected {changes : List Event} (start : Expected)
    (run
      : Run (fun cache event next => Steps env cache event next ∧ event.op.Changes path)
        start.cache changes cache)
    : ∃ final, final.cache = cache ∧ Run (FileSteps env path) start changes final := by
  induction run with
  | nil => exact ⟨start, rfl, .nil⟩
  | snoc before last ih =>
      obtain ⟨middle, rfl, tracked⟩ := ih
      exact ⟨⟨_, bytesAfter middle path _, sizeAfter middle _⟩, rfl,
        .snoc tracked ⟨last.1, last.2, rfl, rfl⟩⟩

/-- The law holds all along a run exactly if no truncation cuts anything, by induction on the
run: every call keeps the blocks in order.
-/
theorem keepsFileRun_iff {start final : Expected} {changes : List Event}
    (stocked : Stocked start.cache) (law : FileLaw env path start)
    : KeepsFileRun env path start changes final ↔ CutsNothingRun env path start changes final := by
  constructor
  · intro run
    refine (run.invariant (P := fun changes state => CutsNothingRun env path start changes state
      ∧ Stocked state.cache ∧ FileLaw env path state) ⟨.nil, stocked, law⟩ ?_).1
    rintro changes state event next - ⟨before, stocked, law⟩ ⟨taken, kept⟩
    exact ⟨.snoc before ⟨taken, (law.step_iff stocked taken).mp kept⟩,
      stocked.effect (step_effect taken.step), kept⟩
  · intro run
    refine (run.invariant (P := fun changes state => KeepsFileRun env path start changes state
      ∧ Stocked state.cache ∧ FileLaw env path state) ⟨.nil, stocked, law⟩ ?_).1
    rintro changes state event next - ⟨before, stocked, law⟩ ⟨taken, cuts⟩
    have kept := (law.step_iff stocked taken).mpr cuts
    exact ⟨.snoc before ⟨taken, kept⟩, stocked.effect (step_effect taken.step), kept⟩

/-- At the start the law holds exactly if the blocks hold nothing behind the size. -/
theorem fileLaw_expected_iff (env : Env) (found : cache.find path = some inode)
    : FileLaw env path (expected cache inode) ↔ HeldBelow cache inode inode.size := by
  constructor
  · rintro ⟨inode', found', shows⟩
    obtain rfl := Option.some.inj (found.symm.trans found')
    exact shows.held
  · intro held
    refine ⟨inode, found, .of_content rfl ?_ held⟩
    intro position
    show byteAt cache.heap inode position = if position < inode.size then _ else _
    split
    case isTrue => rfl
    case isFalse behind => exact held.byteAt_eq_zero (Nat.le_of_not_lt behind)

/-- Along a run of writes and truncations of a cached file, from any reachable state, the file
always shows what is due, exactly if its blocks hold nothing behind its size at the start and no
truncation cuts off a byte that a block holds.
-/
theorem truncate_cuts_iff {disk : List Image} {order : VisitOrder} {size : Nat}
    {events changes : List Event} {last : BlockCache}
    (run : Run (Steps env) (BlockCache.new disk order size) events cache)
    (found : cache.find path = some inode)
    (changed
      : Run (fun cache event next => Steps env cache event next ∧ event.op.Changes path)
        cache changes last)
    : ∃ final, final.cache = last ∧ Run (FileSteps env path) (expected cache inode) changes final
      ∧ (FileLaw env path (expected cache inode)
          ∧ KeepsFileRun env path (expected cache inode) changes final
        ↔ HeldBelow cache inode inode.size
          ∧ CutsNothingRun env path (expected cache inode) changes final) := by
  obtain ⟨final, same, tracked⟩ := exists_expected (expected cache inode) changed
  refine ⟨final, same, tracked, ?_⟩
  rw [← fileLaw_expected_iff env found]
  exact and_congr_right (keepsFileRun_iff (Stocked.run run))

/-- A run that keeps the law ends with it. -/
theorem FileLaw.of_keepsFileRun {start final : Expected} (changes : List Event) (event : Event)
    (keeps : KeepsFileRun env path start (changes ++ [event]) final)
    : FileLaw env path final :=
  Run.established changes event keeps

/-- Two bytes are written to a fresh file, and three zeros are added. -/
theorem truncate_cuts_iff_padded
    : ∃ inode last final,
        withFile.find [47, 97] = some inode
        ∧ final.cache = last
        ∧ Run (FileSteps Util.twoDigests [47, 97]) (expected withFile inode)
          [⟨.at_ 2, .write [47, 97] [1, 2] 0, 2⟩, ⟨.at_ 3, .truncate [47, 97] 5, 0⟩] final
        ∧ (FileLaw Util.twoDigests [47, 97] (expected withFile inode)
            ∧ KeepsFileRun Util.twoDigests [47, 97] (expected withFile inode)
              [⟨.at_ 2, .write [47, 97] [1, 2] 0, 2⟩, ⟨.at_ 3, .truncate [47, 97] 5, 0⟩] final
          ↔ HeldBelow withFile inode inode.size
            ∧ CutsNothingRun Util.twoDigests [47, 97] (expected withFile inode)
              [⟨.at_ 2, .write [47, 97] [1, 2] 0, 2⟩, ⟨.at_ 3, .truncate [47, 97] 5, 0⟩]
              final) := by
  obtain ⟨inode, found, -⟩ := withFile_find
  have run : Run (Steps Util.twoDigests) fresh
      [⟨.at_ 1, .makeFile [47, 97] 0o100644 true, 0⟩] withFile := .snoc .nil rfl
  have ends : ([1, 2] : Bytes).length + 0 ≤ lastEnd := by decide
  obtain ⟨next, after, outcome, there, -⟩ :=
    (Stocked.run run).write_blocks Util.twoDigests (.at_ 2) found ends
  have written : Run (fun cache event next => Steps Util.twoDigests cache event next
      ∧ event.op.Changes [47, 97]) withFile [⟨.at_ 2, .write [47, 97] [1, 2] 0, 2⟩] next :=
    .snoc .nil ⟨outcome, rfl, by decide⟩
  have padded : Run (fun cache event next => Steps Util.twoDigests cache event next
      ∧ event.op.Changes [47, 97]) withFile
      [⟨.at_ 2, .write [47, 97] [1, 2] 0, 2⟩, ⟨.at_ 3, .truncate [47, 97] 5, 0⟩] _ :=
    .snoc written ⟨truncate_cached there 5, rfl⟩
  obtain ⟨final, same, tracked, decides⟩ := truncate_cuts_iff run found padded
  exact ⟨inode, _, final, found, same, tracked, decides⟩

/-- One byte is written to a fresh file and cut off: the size is 0, and a read delivers it. -/
theorem truncate_keeps_byte
    : ∃ inode final after,
        withFile.find [47, 97] = some inode
        ∧ Run (FileSteps Util.twoDigests [47, 97]) (expected withFile inode)
          [⟨.at_ 2, .write [47, 97] [1] 0, 1⟩, ⟨.at_ 3, .truncate [47, 97] 0, 0⟩] final
        ∧ final.size = 0
        ∧ final.cache.find [47, 97] = some after
        ∧ after.read Util.twoDigests final.cache.heap 1 0 = .ok (1, [1])
        ∧ ¬ KeepsFileRun Util.twoDigests [47, 97] (expected withFile inode)
          [⟨.at_ 2, .write [47, 97] [1] 0, 1⟩, ⟨.at_ 3, .truncate [47, 97] 0, 0⟩] final := by
  obtain ⟨inode, found, -⟩ := withFile_find
  have run : Run (Steps Util.twoDigests) fresh
      [⟨.at_ 1, .makeFile [47, 97] 0o100644 true, 0⟩] withFile := .snoc .nil rfl
  have ends : ([1] : Bytes).length + 0 ≤ lastEnd := by decide
  obtain ⟨next, middle, outcome, there, -⟩ :=
    (Stocked.run run).write_blocks Util.twoDigests (.at_ 2) found ends
  have state : ((withFile.writeCounted Util.twoDigests (.at_ 2) [47, 97] [1] 0).toOption.bind
      fun wrote => (wrote.2.find [47, 97]).map fun middle => decide (
        0 < middle.blocks.size ∧ 0 ∈ middle.blocks
          ∧ middle.supply wrote.2.heap 0 1 = 1
          ∧ middle.delivered Util.twoDigests wrote.2.heap 1 0 1 = [1])) = some true := by
    decide +kernel
  rw [outcome] at state
  simp only [Except.toOption, Option.bind_some, there, Option.map_some, Option.some.injEq,
    decide_eq_true_iff] at state
  obtain ⟨index, member, supply, bytes⟩ := state
  have stored : FileSteps Util.twoDigests [47, 97] (expected withFile inode)
      ⟨.at_ 2, .write [47, 97] [1] 0, 1⟩
      ⟨next, bytesAfter (expected withFile inode) [47, 97] (.write [47, 97] [1] 0),
        sizeAfter (expected withFile inode) (.write [47, 97] [1] 0)⟩ :=
    ⟨outcome, ⟨rfl, by decide⟩, rfl, rfl⟩
  generalize bytesAfter (expected withFile inode) [47, 97] (.write [47, 97] [1] 0) = due,
    sizeAfter (expected withFile inode) (.write [47, 97] [1] 0) = length at stored
  have cut : FileSteps Util.twoDigests [47, 97] ⟨next, due, length⟩
      ⟨.at_ 3, .truncate [47, 97] 0, 0⟩
      ⟨_, bytesAfter ⟨next, due, length⟩ [47, 97] (.truncate [47, 97] 0), 0⟩ :=
    ⟨truncate_cached there 0, rfl, rfl, rfl⟩
  have reads : (middle.setSize (.at_ 3) 0).read Util.twoDigests next.heap 1 0 = .ok (1, [1]) := by
    refine Inode.read_eq_ok_iff.mpr ⟨(Util.toInt_of_lt (by decide) (by decide)).symm, ?_⟩
    refine Inode.readBytes_eq_ok_iff.mpr ⟨1, ?_, ?_, bytes.symm⟩
    · intro number first
      obtain rfl := Nat.lt_one_iff.mp first
      exact ⟨⟨index, Nat.one_pos⟩, member⟩
    · exact fun more => absurd more.2 (Nat.not_lt_of_le (supply.symm.le))
  refine ⟨inode, _, middle.setSize (.at_ 3) 0, found, .snoc (.snoc .nil stored) cut, rfl,
    find_set_self (mem_of_find there), reads, ?_⟩
  intro keeps
  obtain ⟨last, known, shows⟩ :=
    FileLaw.of_keepsFileRun [⟨.at_ 2, .write [47, 97] [1] 0, 1⟩] _ keeps
  obtain rfl := Option.some.inj ((find_set_self (mem_of_find there)).symm.trans known)
  rcases shows.delivered 1 0 1 [1] reads 1 (List.mem_singleton_self 1) with inside | beyond
  · obtain ⟨position, inside, -⟩ := inside
    exact absurd inside (Nat.not_lt_zero position)
  · obtain ⟨ii, -, same⟩ := beyond
    have zero : Util.twoDigests.beyond ii = 0 := rfl
    rw [zero] at same
    cases same

end BlockCache

end ZippyFS
