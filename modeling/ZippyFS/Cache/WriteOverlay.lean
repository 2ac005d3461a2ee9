import Mathlib.Data.List.GetD
import ZippyFS.Cache.Ownership
import ZippyFS.Cache.Flush

/-! A write as an overlay of a byte range. The block map of an inode is read as a flat array of
bytes; what a write leaves in the array is compared, round by round, with what is due there.
-/

namespace ZippyFS

open Runs

/-- A byte of a block: zero behind the used part, and zero if there is no block. -/
def contentAt : Option Block → Nat → UInt8
  | some block, ii => if ii < block.actualSize then block.data ii else 0
  | none, _ => 0

/-- The block map of an inode as a flat array. -/
def byteAt (heap : BlockRef → Block) (inode : Inode) (position : Nat) : UInt8 :=
  contentAt (inode.blocks[position / SIZE]?.map heap) (position % SIZE)

/-- Clean blocks can be read without a look at their used part. -/
theorem contentAt_clean {block : Block} (clean : block.Clean) (ii : Nat)
    : contentAt (some block) ii = block.data ii := by
  by_cases used : ii < block.actualSize
  · exact if_pos used
  · rw [contentAt, if_neg used, clean ii (by omega)]

namespace BlockCache

variable {env : Env} {now : Clock} {cache next : BlockCache} {path buf : Bytes} {result : Int}
  {offset : Nat} {inode : Inode}

-----------------------------------------------------------------------------------------
-- The law and the condition
-----------------------------------------------------------------------------------------

/-- After the write the array holds the buffer at the offset and is unchanged elsewhere, and the
file reaches at least to the end of the write.
-/
def Overlays (env : Env) (now : Clock) (cache : BlockCache) (path buf : Bytes) (offset : Nat)
    (inode : Inode)
    : Prop :=
  ∃ result next after, cache.write env now path buf offset = .ok (result, next)
    ∧ next.find path = some after
    ∧ (∀ position, byteAt next.heap after position
      = if offset ≤ position ∧ position < offset + buf.length then buf.getD (position - offset) 0
        else byteAt cache.heap inode position)
    ∧ after.size = max inode.size (offset + buf.length)

/-- The byte that is due at an index of the block that a round works on. -/
def dueByte (buf : Bytes) (offset number : Nat) (old : Option Block) (ii : Nat) : UInt8 :=
  let position := SIZE * (firstBlock offset + number) + ii
  if offset ≤ position ∧ position < offset + buf.length then buf.getD (position - offset) 0
  else contentAt old ii

/-- The byte that a later round puts there: a block that exists is given the start of the
buffer, a missing one the bytes behind those of the rounds before.
-/
def placedByte (buf : Bytes) (number : Nat) (old : Option Block) (ii : Nat) : UInt8 :=
  if ii < share buf number then buf.getD ((if old.isSome then 0 else SIZE * number) + ii) 0
  else contentAt old ii

/-- The rounds of a write put the right bytes into the right places. -/
structure WellPlaced (cache : BlockCache) (inode : Inode) (buf : Bytes) (offset : Nat)
    : Prop where
  ends : buf.length + offset ≤ lastEnd
  first
    : (inode.blocks[firstBlock offset]?).isSome ∨ offset % SIZE = 0
      ∨ ∀ byte ∈ buf.take SIZE, byte = 0
  later
    : ∀ number, 0 < number → number < roundCount buf offset
      → (inode.blocks[firstBlock offset + number]? = none ∧ offset % SIZE = 0)
        ∨ ∀ ii < SIZE,
          placedByte buf number (inode.blocks[firstBlock offset + number]?.map cache.heap) ii
            = dueByte buf offset number
              (inode.blocks[firstBlock offset + number]?.map cache.heap) ii

-----------------------------------------------------------------------------------------
-- Rounds against what is due
-----------------------------------------------------------------------------------------

/-- The block before a round is clean. -/
def CleanOption (old : Option Block) : Prop := ∀ block, old = some block → block.Clean

theorem roundBlock_clean {old : Option Block} (clean : CleanOption old) (number : Nat)
    : (roundBlock buf offset number old).Clean := by
  cases old with
  | none => exact Block.new_clean _ _
  | some block => exact (clean block rfl).insert _ _ _

/-- What the first round leaves in a block that exists is what is due there. -/
theorem first_present {block : Block} (clean : block.Clean) {ii : Nat} (inside : ii < SIZE)
    : contentAt (some (roundBlock buf offset 0 (some block))) ii
      = dueByte buf offset 0 (some block) ii := by
  have whole : offset = SIZE * firstBlock offset + offset % SIZE := (Nat.div_add_mod ..).symm
  rw [contentAt_clean (roundBlock_clean (fun _ same => Option.some.inj same ▸ clean) 0)]
  unfold dueByte
  rw [contentAt_clean clean]
  simp only [roundBlock, Block.insert, Block.insertData, share, startIn, if_true, Nat.mul_zero,
    Nat.sub_zero, Nat.add_zero]
  generalize offset % SIZE = within at *
  by_cases reached : within ≤ ii ∧ ii < within + buf.length
  · rw [if_pos (by omega), if_pos (by omega)]
    congr 1
    omega
  · rw [if_neg (by omega), if_neg (by omega)]

/-- What the first round leaves in a missing block is right for an aligned offset, and else
only if all bytes are zeros.
-/
theorem first_missing_iff
    : (∀ ii < SIZE, contentAt (some (roundBlock buf offset 0 none)) ii
        = dueByte buf offset 0 none ii)
      ↔ offset % SIZE = 0 ∨ ∀ byte ∈ buf.take SIZE, byte = 0 := by
  have whole : offset = SIZE * firstBlock offset + offset % SIZE := (Nat.div_add_mod ..).symm
  have left (ii : Nat) (inside : ii < SIZE)
      : contentAt (some (roundBlock buf offset 0 none)) ii
        = if ii < buf.length then buf.getD ii 0 else 0 := by
    rw [contentAt_clean (roundBlock_clean (fun _ same => by cases same) 0)]
    simp only [roundBlock, Block.new, Block.insertData, Block.empty, share, before, Nat.mul_zero,
      Nat.zero_min, List.drop_zero, Nat.zero_le, true_and, Nat.sub_zero]
    by_cases reached : ii < buf.length
    · rw [if_pos (by omega), if_pos reached]
    · rw [if_neg (by omega), if_neg reached]
  have right (ii : Nat) : dueByte buf offset 0 none ii
      = if offset % SIZE ≤ ii ∧ ii < offset % SIZE + buf.length
        then buf.getD (ii - offset % SIZE) 0 else 0 := by
    unfold dueByte contentAt
    simp only [Nat.add_zero]
    generalize offset % SIZE = within at *
    by_cases reached : within ≤ ii ∧ ii < within + buf.length
    · rw [if_pos (by omega), if_pos reached]
      congr 1
      omega
    · rw [if_neg (by omega), if_neg reached]
  have zeros : (∀ byte ∈ buf.take SIZE, byte = 0)
      ↔ ∀ ii < SIZE, buf.getD ii 0 = 0 := by
    constructor
    · intro all ii inside
      by_cases reached : ii < buf.length
      · rw [List.getD_eq_getElem _ _ reached]
        exact all _ (List.mem_take_iff_getElem.mpr ⟨ii, by omega, rfl⟩)
      · exact List.getD_eq_default _ _ (by omega)
    · intro all byte member
      obtain ⟨ii, inside, rfl⟩ := List.mem_take_iff_getElem.mp member
      have zero := all ii (by omega)
      rwa [List.getD_eq_getElem _ _ (by omega)] at zero
  rw [zeros]
  constructor
  · intro same
    by_cases aligned : offset % SIZE = 0
    · exact Or.inl aligned
    · refine Or.inr ?_
      -- Byte after byte: each one equals an earlier one, or lies before the offset.
      intro ii
      induction ii using Nat.strong_induction_on with
      | _ ii ih =>
          intro inside
          by_cases reached : ii < buf.length
          · have equal := same ii inside
            rw [left ii inside, right, if_pos reached] at equal
            rw [equal]
            split
            · exact ih _ (by omega) (by omega)
            · rfl
          · exact List.getD_eq_default _ _ (by omega)
  · intro condition ii inside
    rw [left ii inside, right]
    rcases condition with aligned | all
    · simp [aligned]
    · rw [all ii inside, all (ii - offset % SIZE) (by omega)]
      split <;> split <;> rfl

/-- A later round leaves the placed bytes. -/
theorem later_placed {old : Option Block} (clean : CleanOption old) {number ii : Nat}
    (later : 0 < number) (inside : ii < SIZE)
    : contentAt (some (roundBlock buf offset number old)) ii = placedByte buf number old ii := by
  rw [contentAt_clean (roundBlock_clean clean number)]
  have start : startIn offset number = 0 := if_neg (by omega)
  unfold placedByte
  cases old with
  | none =>
      simp only [roundBlock, Block.new, Block.insertData, Block.empty, Nat.zero_le, true_and,
        Nat.sub_zero, Option.isSome_none, Bool.false_eq_true, if_false, contentAt]
      by_cases reached : ii < share buf number
      · rw [if_pos ⟨inside, reached⟩, if_pos reached]
        have handed : before buf number = SIZE * number := by
          unfold before
          unfold share at reached
          omega
        rw [handed, List.getD_eq_getElem?_getD, List.getElem?_drop, List.getD_eq_getElem?_getD]
      · rw [if_neg (fun both => reached both.2), if_neg reached]
  | some block =>
      rw [contentAt_clean (clean block rfl)]
      simp only [roundBlock, Block.insert, Block.insertData, start, Nat.zero_le, true_and,
        Nat.sub_zero, Option.isSome_some, if_true, Nat.zero_add]
      by_cases reached : ii < share buf number
      · rw [if_pos ⟨inside, reached⟩, if_pos reached]
      · rw [if_neg (fun both => reached both.2), if_neg reached]

/-- An aligned write places its later blocks right where blocks are missing. -/
theorem placed_aligned {number ii : Nat} (aligned : offset % SIZE = 0) (inside : ii < SIZE)
    : placedByte buf number none ii = dueByte buf offset number none ii := by
  have whole : offset = SIZE * firstBlock offset := by
    have split := Nat.div_add_mod offset SIZE
    unfold firstBlock
    omega
  have product : SIZE * (firstBlock offset + number) = SIZE * firstBlock offset + SIZE * number :=
    Nat.mul_add _ _ _
  unfold placedByte dueByte share
  simp only [Option.isSome_none, Bool.false_eq_true, if_false]
  by_cases reached : SIZE * number + ii < buf.length
  · rw [if_pos (by omega), if_pos (by omega)]
    congr 1
    omega
  · by_cases handed : ii < min SIZE (buf.length - SIZE * number)
    · omega
    · rw [if_neg handed, if_neg (by omega)]

/-- When the first round leaves what is due. -/
theorem first_iff {old : Option Block} (clean : CleanOption old)
    : (∀ ii < SIZE, contentAt (some (roundBlock buf offset 0 old)) ii
        = dueByte buf offset 0 old ii)
      ↔ old.isSome ∨ offset % SIZE = 0 ∨ ∀ byte ∈ buf.take SIZE, byte = 0 := by
  cases old with
  | none => simpa using first_missing_iff
  | some block =>
      refine iff_of_true ?_ (Or.inl rfl)
      intro ii inside
      exact first_present (clean block rfl) inside

/-- When a later round leaves what is due. -/
theorem later_iff {old : Option Block} (clean : CleanOption old) {number : Nat}
    (later : 0 < number)
    : (∀ ii < SIZE, contentAt (some (roundBlock buf offset number old)) ii
        = dueByte buf offset number old ii)
      ↔ (old = none ∧ offset % SIZE = 0)
        ∨ ∀ ii < SIZE, placedByte buf number old ii = dueByte buf offset number old ii := by
  constructor
  · intro same
    refine Or.inr ?_
    intro ii inside
    rw [← later_placed clean later inside]
    exact same ii inside
  · intro condition ii inside
    rw [later_placed clean later inside]
    rcases condition with ⟨rfl, aligned⟩ | same
    · exact placed_aligned aligned inside
    · exact same ii inside

-----------------------------------------------------------------------------------------
-- Whole writes
-----------------------------------------------------------------------------------------

/-- The blocks that a write starts with. -/
def oldBlock (cache : BlockCache) (inode : Inode) (blockIdx : Nat) : Option Block :=
  inode.blocks[blockIdx]?.map cache.heap

theorem Stocked.oldBlock_clean (stocked : Stocked cache) (inode : Inode) (blockIdx : Nat)
    : CleanOption (cache.oldBlock inode blockIdx) := by
  intro block known
  obtain ⟨ref, _, rfl⟩ := Option.map_eq_some_iff.mp known
  exact stocked.clean ref

/-- The blocks behind the loop of a write that ends below the limit. -/
theorem Stocked.loop_blocks (stocked : Stocked cache) (now : Clock)
    (found : cache.find path = some inode) (ends : buf.length + offset ≤ lastEnd)
    : ∃ state, cache.runLoop now path buf offset inode = .ok state
      ∧ state.inode.size = max inode.size (offset + buf.length)
      ∧ ∀ blockIdx, (cache.written path state).oldBlock state.inode blockIdx
        = if Touched offset (roundCount buf offset) blockIdx
          then some (roundBlock buf offset (blockIdx - firstBlock offset)
            (cache.oldBlock inode blockIdx))
          else cache.oldBlock inode blockIdx := by
  have filed : inode.Filed := stocked.filed _ _ (ptr_of_find found)
  have filed' : (startOf now cache path inode (buf.length + offset)).inode.Filed := by
    intro blockIdx ref held
    rw [startOf, grown_blocks] at held
    exact filed blockIdx ref held
  have wrote := rounds_wrote now buf cache.allocs offset (roundCount buf offset) filed'
  refine ⟨_, runLoop_eq now cache path inode ends, ?_, ?_⟩
  · rw [wrote.same.size, startOf, grown_size, Nat.add_comm]
  · intro blockIdx
    have content := wrote.block blockIdx
    have old : (startOf now cache path inode (buf.length + offset)).block blockIdx
        = cache.oldBlock inode blockIdx := by
      rw [Writing.block, startOf, grown_blocks]
      rfl
    rw [old] at content
    exact content

/-- The blocks behind a write to a cached path that ends below the limit. -/
theorem Stocked.write_blocks (stocked : Stocked cache) (env : Env) (now : Clock)
    (found : cache.find path = some inode)
    (ends : buf.length + offset ≤ lastEnd)
    : ∃ next after, cache.writeCounted env now path buf offset = .ok ((buf.length : Int), next)
      ∧ next.find path = some after
      ∧ after.size = max inode.size (offset + buf.length)
      ∧ ∀ blockIdx, next.oldBlock after blockIdx
        = if Touched offset (roundCount buf offset) blockIdx
          then some (roundBlock buf offset (blockIdx - firstBlock offset)
            (cache.oldBlock inode blockIdx))
          else cache.oldBlock inode blockIdx := by
  have member := mem_of_find found
  have ready : Ready env now cache path (cache.set path inode.setDirty.remakeInode)
      inode.setDirty.remakeInode :=
    .cached (by simp [inCache, member]) found
  obtain ⟨state, loop, size, blocks⟩ := (stocked.ready ready).loop_blocks now ready.found ends
  have there : path ∈ (cache.set path inode.setDirty.remakeInode).inodeIdx := member
  refine ⟨_, state.inode, ?_, find_written there state, size, blocks⟩
  rw [writeCounted_cached found, loop]
  rfl

/-- The array behind a write that ends below the limit, block by block. -/
theorem Stocked.write_bytes (stocked : Stocked cache) (env : Env) (now : Clock)
    (found : cache.find path = some inode)
    (ends : buf.length + offset ≤ lastEnd)
    : ∃ next after, cache.writeCounted env now path buf offset = .ok ((buf.length : Int), next)
      ∧ next.find path = some after
      ∧ after.size = max inode.size (offset + buf.length)
      ∧ ∀ position, byteAt next.heap after position
        = if Touched offset (roundCount buf offset) (position / SIZE)
          then contentAt (some (roundBlock buf offset (position / SIZE - firstBlock offset)
            (cache.oldBlock inode (position / SIZE)))) (position % SIZE)
          else contentAt (cache.oldBlock inode (position / SIZE)) (position % SIZE) := by
  obtain ⟨next, after, outcome, there, size, blocks⟩ := stocked.write_blocks env now found ends
  refine ⟨next, after, outcome, there, size, ?_⟩
  intro position
  have content : byteAt next.heap after position
      = contentAt (next.oldBlock after (position / SIZE)) (position % SIZE) := rfl
  rw [content, blocks, apply_ite (fun block => contentAt block (position % SIZE))]

/-- A written position lies in a touched block. -/
theorem touched_of_written {position : Nat} (low : offset ≤ position)
    (high : position < offset + buf.length)
    : Touched offset (roundCount buf offset) (position / SIZE) := by
  have width : SIZE = 4096 := rfl
  obtain ⟨covered, _⟩ := ulongCeil_spec (buf.length + offset)
  simp only [Touched, roundCount, firstBlock, width] at *
  omega

/-- A write that touches nothing is empty and aligned. -/
theorem aligned_of_roundCount (none : roundCount buf offset = 0) : offset % SIZE = 0 := by
  have width : SIZE = 4096 := rfl
  obtain ⟨covered, _⟩ := ulongCeil_spec (buf.length + offset)
  simp only [roundCount, firstBlock, width] at *
  omega

/-- The due bytes, position by position. -/
theorem due_position (cache : BlockCache) (inode : Inode) {position : Nat}
    (touched : Touched offset (roundCount buf offset) (position / SIZE))
    : dueByte buf offset (position / SIZE - firstBlock offset)
        (cache.oldBlock inode (position / SIZE)) (position % SIZE)
      = if offset ≤ position ∧ position < offset + buf.length then buf.getD (position - offset) 0
        else byteAt cache.heap inode position := by
  have back : SIZE * (firstBlock offset + (position / SIZE - firstBlock offset)) + position % SIZE
      = position := by
    rw [Nat.add_sub_cancel' touched.1]
    exact Nat.div_add_mod _ _
  unfold dueByte
  rw [back]
  rfl

/-- A write that returns ended below the limit, or wrapped around 2^64 and left too small a
size.
-/
theorem ends_of_write {next : BlockCache} {after : Inode} (found : cache.find path = some inode)
    (fileBits : inode.size < 2 ^ 64)
    (outcome : cache.writeCounted env now path buf offset = .ok (result, next))
    (there : next.find path = some after) (size : after.size = max inode.size (offset + buf.length))
    : buf.length + offset ≤ lastEnd := by
  by_contra beyond
  have limit : lastEnd = 17592186040320 := rfl
  rw [writeCounted_cached found] at outcome
  by_cases wraps : buf.length + offset < 2 ^ 64
  · rw [runLoop_diverges (by rw [Nat.mod_eq_of_lt wraps]; omega)] at outcome
    cases outcome
  · obtain ⟨state, loop, outcome⟩ := bind_eq_ok.mp outcome
    obtain ⟨_, rfl⟩ := Prod.mk.inj (Except.ok.inj outcome)
    have here := mem_of_find found
    have member : path ∈ (cache.set path inode.setDirty.remakeInode).inodeIdx := here
    have same : some state.inode = some after := (find_written member state).symm.trans there
    obtain rfl := Option.some.inj same
    have kept := (runLoop_same loop).size
    have before : inode.setDirty.remakeInode.size = inode.size := rfl
    have bound : (buf.length + offset) % 2 ^ 64 < 2 ^ 64 := Nat.mod_lt _ (by decide)
    rw [grown_size, before] at kept
    omega

/-- The loop of a write at a 64-bit offset returns only if the write ends below the limit. -/
theorem ends_of_loop {state : Writing} (offsetBits : offset < 2 ^ 64)
    (loop : cache.runLoop now path buf offset inode = .ok state)
    : buf.length + offset ≤ lastEnd := by
  have width : SIZE = 4096 := rfl
  have limit : lastEnd = 17592186040320 := rfl
  obtain ⟨few, taken⟩ := (runLoop_ends_iff now _ path _).mp ⟨state, loop⟩
  have ends := ((ulongCeil_spec ((buf.length + offset) % 2 ^ 64)).2 (2 ^ 32 - 1)).mp (by omega)
  generalize Util.ulongCeil ((buf.length + offset) % 2 ^ 64) SIZE = numBlocks at *
  rw [width] at *
  omega

/-- A write at a 64-bit offset that returns ended below the limit. -/
theorem ends_of_returned {next : BlockCache} (found : cache.find path = some inode)
    (offsetBits : offset < 2 ^ 64)
    (outcome : cache.writeCounted env now path buf offset = .ok (result, next))
    : buf.length + offset ≤ lastEnd := by
  rw [writeCounted_cached found] at outcome
  obtain ⟨state, loop, -⟩ := bind_eq_ok.mp outcome
  exact ends_of_loop offsetBits loop

/-- A write to a cached path overlays its byte range if and only if its rounds place their
bytes well.
-/
theorem Stocked.overlays_iff_wellPlaced (stocked : Stocked cache)
    (found : cache.find path = some inode) (fileBits : inode.size < 2 ^ 64)
    : Overlays env now cache path buf offset inode ↔ WellPlaced cache inode buf offset := by
  have positive : 0 < SIZE := by decide
  constructor
  · rintro ⟨result, next, after, outcome, there, bytes, size⟩
    obtain ⟨count, outcome, -⟩ := write_eq_ok_iff.mp outcome
    have ends := ends_of_write found fileBits outcome there size
    obtain ⟨next', after', outcome', there', _, content⟩ :=
      stocked.write_bytes env now found ends
    obtain ⟨_, rfl⟩ := Prod.mk.inj (Except.ok.inj (outcome.symm.trans outcome'))
    obtain rfl := Option.some.inj (there.symm.trans there')
    have due (number : Nat) (inside : number < roundCount buf offset)
        : ∀ ii < SIZE,
          contentAt (some (roundBlock buf offset number
              (cache.oldBlock inode (firstBlock offset + number)))) ii
            = dueByte buf offset number (cache.oldBlock inode (firstBlock offset + number)) ii := by
      intro ii small
      have block : (SIZE * (firstBlock offset + number) + ii) / SIZE
          = firstBlock offset + number := by
        rw [Nat.mul_add_div positive, Nat.div_eq_of_lt small, Nat.add_zero]
      have rest : (SIZE * (firstBlock offset + number) + ii) % SIZE = ii := by
        rw [Nat.mul_add_mod, Nat.mod_eq_of_lt small]
      have touched : Touched offset (roundCount buf offset)
          ((SIZE * (firstBlock offset + number) + ii) / SIZE) := by
        rw [block]
        unfold Touched
        omega
      have position := due_position cache inode touched
      have law := bytes (SIZE * (firstBlock offset + number) + ii)
      rw [content, if_pos touched, ← position] at law
      rwa [block, rest, Nat.add_sub_cancel_left] at law
    refine ⟨ends, ?_, ?_⟩
    · by_cases some : 0 < roundCount buf offset
      · have first := (first_iff (stocked.oldBlock_clean inode (firstBlock offset))).mp (due 0 some)
        rwa [oldBlock, Option.isSome_map] at first
      · have none : roundCount buf offset = 0 := by omega
        exact Or.inr (Or.inl (aligned_of_roundCount none))
    · intro number later inside
      have round := (later_iff (stocked.oldBlock_clean inode (firstBlock offset + number)) later).mp
        (due number inside)
      rwa [oldBlock, Option.map_eq_none_iff] at round
  · intro placed
    obtain ⟨next, after, outcome, there, size, content⟩ :=
      stocked.write_bytes env now found placed.ends
    refine ⟨_, next, after, write_eq_ok_iff.mpr ⟨_, outcome, rfl⟩, there, ?_, size⟩
    intro position
    rw [content]
    split
    case isFalse untouched =>
      rw [if_neg (fun both => untouched (touched_of_written both.1 both.2))]
      rfl
    case isTrue touched =>
      rw [← due_position cache inode touched]
      have inside : position % SIZE < SIZE := Nat.mod_lt _ positive
      have back : position / SIZE = firstBlock offset + (position / SIZE - firstBlock offset) :=
        (Nat.add_sub_cancel' touched.1).symm
      have reached : position / SIZE - firstBlock offset < roundCount buf offset := by
        have upper := touched.2
        omega
      have clean := stocked.oldBlock_clean inode (position / SIZE)
      rcases Nat.eq_zero_or_pos (position / SIZE - firstBlock offset) with zero | later
      · have first := placed.first
        rw [← Option.isSome_map (f := cache.heap)] at first
        rw [zero, Nat.add_zero] at back
        rw [zero]
        refine (first_iff clean).mpr ?_ _ inside
        rwa [back]
      · have round := placed.later _ later reached
        rw [← back, ← Option.map_eq_none_iff (f := cache.heap)] at round
        exact (later_iff clean later).mpr round _ inside

/-- In every reachable state, a write to a cached path overlays its byte range if and only if
it ends below the limit, its first block exists or starts at the offset (or gets zeros only),
and every later block is missing and aligned or gets bytes that happen to be the right ones.
-/
theorem write_overlays_iff {disk : List Image} {order : VisitOrder} {size : Nat}
    {events : List Event} (run : Run (Steps env) (BlockCache.new disk order size) events cache)
    (found : cache.find path = some inode) (fileBits : inode.size < 2 ^ 64)
    : Overlays env now cache path buf offset inode ↔ WellPlaced cache inode buf offset :=
  (Stocked.run run).overlays_iff_wellPlaced found fileBits

/-- The fresh file `/a` has no blocks. -/
theorem withFile_find
    : ∃ inode, withFile.find [47, 97] = some inode ∧ inode.size = 0 ∧ inode.blocks = ∅ := by
  have state : (withFile.find [47, 97]).any
      (fun inode => decide (inode.size = 0 ∧ inode.blocks.isEmpty)) = true := by decide +kernel
  obtain ⟨inode, found, facts⟩ := (Option.any_eq_true ..).mp state
  obtain ⟨size, blocks⟩ := of_decide_eq_true facts
  exact ⟨inode, found, size, Std.ExtTreeMap.isEmpty_iff.mp blocks⟩

/-- An aligned write to a fresh file. -/
theorem write_overlays_iff_aligned
    : ∃ inode, withFile.find [47, 97] = some inode
      ∧ Overlays Util.twoDigests (.at_ 2) withFile [47, 97] [1, 2] 0 inode := by
  obtain ⟨inode, found, size, _⟩ := withFile_find
  have run : Run (Steps Util.twoDigests) fresh
      [⟨.at_ 1, .makeFile [47, 97] 0o100644 true, 0⟩] withFile := .snoc .nil rfl
  refine ⟨inode, found, (write_overlays_iff run found (by omega)).mpr ?_⟩
  refine ⟨by decide, Or.inr (Or.inl rfl), ?_⟩
  intro number later inside
  have one : roundCount [1, 2] 0 = 1 := by decide
  omega

/-- A write of one byte at offset 1 of a fresh file puts the byte at offset 0. -/
theorem write_overlays_unaligned
    : ∃ inode,
        Run (Steps Util.twoDigests) fresh [⟨.at_ 1, .makeFile [47, 97] 0o100644 true, 0⟩] withFile
        ∧ withFile.find [47, 97] = some inode
        ∧ ¬ Overlays Util.twoDigests (.at_ 2) withFile [47, 97] [1] 1 inode := by
  obtain ⟨inode, found, size, none⟩ := withFile_find
  have run : Run (Steps Util.twoDigests) fresh
      [⟨.at_ 1, .makeFile [47, 97] 0o100644 true, 0⟩] withFile := .snoc .nil rfl
  refine ⟨inode, run, found, ?_⟩
  rw [(Stocked.run run).overlays_iff_wellPlaced found (by omega)]
  rintro ⟨_, present | aligned | zeros, _⟩
  · simp [none] at present
  · exact absurd aligned (by decide)
  · exact absurd (zeros 1 (by simp [SIZE])) (by decide)

end BlockCache

end ZippyFS
