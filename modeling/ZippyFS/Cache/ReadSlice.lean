import ZippyFS.Cache.WriteOverlay

/-! What `read` stores into its buffer, compared with the slice of the file that was asked for.
The loop joins what the blocks behind one another hold and does not look at where in the file it
belongs.
-/

namespace ZippyFS

open BlockCache

namespace Inode

variable {env : Env} {heap : BlockRef → Block} {inode : Inode} {size offset : Nat}

-----------------------------------------------------------------------------------------
-- The law and the condition
-----------------------------------------------------------------------------------------

/-- How many bytes of a file are due for a read. -/
def due (inode : Inode) (size offset : Nat) : Nat :=
  if inode.size ≤ offset then 0 else min size (inode.size - offset)

/-- The read comes to its end, returns the number of bytes due, and stores all of them. -/
def ReadsSlice (env : Env) (heap : BlockRef → Block) (inode : Inode) (size offset : Nat)
    : Prop :=
  ∃ bytes, inode.read env heap size offset = .ok ((inode.due size offset : Int), bytes)
    ∧ ∀ position < inode.due size offset,
      bytes[position]? = some (byteAt heap inode (offset + position))

/-- The size asked for, as an `int`, is the number of bytes due: the file reaches as far as the
read does, or the bits that are lost are just those that the file is short of.
-/
def Counted (inode : Inode) (size offset : Nat) : Prop :=
  size % 2 ^ 32 < 2 ^ 31
  ∧ if size < 2 ^ 32 then size = 0 ∨ offset + size ≤ inode.size
    else inode.size - offset = size % 2 ^ 32

instance (inode : Inode) (size offset : Nat) : Decidable (inode.Counted size offset) :=
  inferInstanceAs (Decidable (_ ∧ _))

/-- The index that the counter of the loop shows in a round. -/
def visit (offset number : Nat) : Nat := (offset / SIZE + number) % 2 ^ 32

/-- The bytes in use at an index. -/
def usedAt (heap : BlockRef → Block) (inode : Inode) (blockIdx : Nat) : Nat :=
  (inode.blocks[blockIdx]?.map fun ref => (heap ref).actualSize).getD 0

/-- How many bytes the blocks of the first rounds hold from the offset on. -/
def supply (heap : BlockRef → Block) (inode : Inode) (offset : Nat) : Nat → Nat
  | 0 => 0
  | number + 1 =>
      inode.supply heap offset number
        + (inode.usedAt heap (visit offset number) - startIn offset number)

/-- After some number of rounds, which met only blocks that are there, the loop has the bytes due
and ends, and each of them has its place in the file: as many bytes were collected before as
blocks were passed, or else the byte happens to be the one that is due.
-/
structure Supplied (heap : BlockRef → Block) (inode : Inode) (size offset count : Nat)
    : Prop where
  enough : inode.due size offset ≤ inode.supply heap offset count
  ends : size ≤ inode.supply heap offset count ∨ inode.blocks.size ≤ visit offset count
  present
    : ∀ number < count, inode.supply heap offset number < size
      → visit offset number < inode.blocks.size ∧ visit offset number ∈ inode.blocks
  placed
    : ∀ number < count,
      offset + inode.supply heap offset number
          = SIZE * visit offset number + startIn offset number
        ∨ ∀ ii, startIn offset number ≤ ii → ii < inode.usedAt heap (visit offset number)
          → inode.supply heap offset number + (ii - startIn offset number)
            < inode.due size offset
          → byteAt heap inode (SIZE * visit offset number + ii)
            = byteAt heap inode
              (offset + inode.supply heap offset number + (ii - startIn offset number))

-----------------------------------------------------------------------------------------
-- Rounds
-----------------------------------------------------------------------------------------

/-- What the block at an index gives to the loop. -/
def stock (env : Env) (heap : BlockRef → Block) (inode : Inode) (blockIdx : Nat) : Bytes :=
  (inode.blocks[blockIdx]?.map fun ref => (heap ref).copied env (heap ref).actualSize).getD []

/-- The buffer after the first rounds. -/
def delivered (env : Env) (heap : BlockRef → Block) (inode : Inode) (size offset : Nat)
    : Nat → Bytes
  | 0 => []
  | number + 1 =>
      let buf := inode.delivered env heap size offset number
      buf ++ ((inode.stock env heap (visit offset number)).drop (startIn offset number)).take
        (size - buf.length)

theorem length_stock (env : Env) (heap : BlockRef → Block) (inode : Inode) (blockIdx : Nat)
    : (inode.stock env heap blockIdx).length = inode.usedAt heap blockIdx := by
  unfold stock usedAt
  cases inode.blocks[blockIdx]? <;> simp

/-- The buffer fills up as far as the supply goes, by induction on the rounds. -/
theorem length_delivered (env : Env) (heap : BlockRef → Block) (inode : Inode)
    (size offset number : Nat)
    : (inode.delivered env heap size offset number).length
      = min size (inode.supply heap offset number) := by
  induction number with
  | zero => simp [delivered, supply]
  | succ number ih =>
      rw [delivered, supply]
      simp only [List.length_append, List.length_take, List.length_drop, length_stock, ih]
      omega

theorem visit_succ (offset number : Nat)
    : (visit offset number + 1) % 2 ^ 32 = visit offset (number + 1) := by
  unfold visit
  omega

/-- The loop goes on in a round. -/
def GoesOn (heap : BlockRef → Block) (inode : Inode) (size offset number : Nat) : Prop :=
  visit offset number < inode.blocks.size ∧ inode.supply heap offset number < size

/-- From a round on, the loop returns what is delivered when it stops, unless it meets a block
that is missing, by induction on its fuel.
-/
theorem readLoop_eq_ok_iff {fuel number : Nat} {bytes : Bytes}
    : inode.readLoop env heap size fuel (visit offset number) (startIn offset number)
        (inode.delivered env heap size offset number) = .ok bytes
      ↔ ∃ count, number ≤ count ∧ count < number + fuel
        ∧ (∀ earlier, number ≤ earlier → earlier < count
          → GoesOn heap inode size offset earlier ∧ visit offset earlier ∈ inode.blocks)
        ∧ ¬ GoesOn heap inode size offset count
        ∧ bytes = inode.delivered env heap size offset count := by
  induction fuel generalizing number with
  | zero =>
      refine iff_of_false (fun same => nomatch same) ?_
      rintro ⟨count, low, high, -⟩
      omega
  | succ fuel ih =>
      have cond : (visit offset number < inode.blocks.size
            ∧ (inode.delivered env heap size offset number).length < size)
          ↔ GoesOn heap inode size offset number := by
        rw [length_delivered, GoesOn]
        omega
      rw [readLoop]
      by_cases more : GoesOn heap inode size offset number
      · rw [if_pos (cond.mpr more)]
        cases held : inode.blocks[visit offset number]? with
        | none =>
            refine iff_of_false (fun same => nomatch same) ?_
            rintro ⟨count, low, high, before, stopped, -⟩
            rcases Nat.eq_or_lt_of_le low with rfl | later
            · exact stopped more
            · have there := (before number (le_refl _) later).2
              rw [← Std.ExtTreeMap.isSome_getElem?_iff_mem, held] at there
              cases there
        | some ref =>
            have next : inode.delivered env heap size offset number
                ++ (((heap ref).copied env (heap ref).actualSize).drop (startIn offset number)).take
                  (size - (inode.delivered env heap size offset number).length)
                = inode.delivered env heap size offset (number + 1) := by
              simp only [delivered, stock, held, Option.map_some, Option.getD_some]
            have rest : (0 : Nat) = startIn offset (number + 1) := by simp [startIn]
            dsimp only
            rw [next, visit_succ, rest, ih]
            constructor
            · rintro ⟨count, low, high, before, stopped, same⟩
              refine ⟨count, by omega, by omega, ?_, stopped, same⟩
              intro earlier from_ upto
              rcases Nat.eq_or_lt_of_le from_ with rfl | later
              · exact ⟨more, Std.ExtTreeMap.isSome_getElem?_iff_mem.mp (by rw [held]; rfl)⟩
              · exact before earlier later upto
            · rintro ⟨count, low, high, before, stopped, same⟩
              rcases Nat.eq_or_lt_of_le low with rfl | later
              · exact absurd more stopped
              · exact ⟨count, later, by omega,
                  fun earlier from_ upto => before earlier (by omega) upto, stopped, same⟩
      · rw [if_neg (mt cond.mp more), Except.ok.injEq]
        constructor
        · rintro rfl
          exact ⟨number, le_refl _, by omega, fun earlier from_ upto => by omega, more, rfl⟩
        · rintro ⟨count, low, high, before, stopped, rfl⟩
          rcases Nat.eq_or_lt_of_le low with rfl | later
          · rfl
          · exact absurd (before number (le_refl _) later).1 more

/-- What a read stores, if its fuel lasts. -/
theorem readBytes_eq_ok_iff_within {bytes : Bytes}
    : inode.readBytes env heap size offset = .ok bytes
      ↔ ∃ count ≤ 2 ^ 32 * (size + 1),
        (∀ earlier < count, GoesOn heap inode size offset earlier
          ∧ visit offset earlier ∈ inode.blocks)
        ∧ ¬ GoesOn heap inode size offset count
        ∧ bytes = inode.delivered env heap size offset count := by
  have start : (if offset < SIZE then offset else offset % SIZE) = startIn offset 0 := by
    unfold startIn
    rw [if_pos rfl]
    split
    · rw [Nat.mod_eq_of_lt ‹_›]
    · rfl
  unfold readBytes
  dsimp only
  rw [start]
  have loop := @readLoop_eq_ok_iff env heap inode size offset (2 ^ 32 * (size + 1) + 1) 0 bytes
  refine loop.trans ?_
  simp only [Nat.zero_le, true_and, Nat.zero_add, forall_const, Nat.lt_succ_iff]

-----------------------------------------------------------------------------------------
-- Enough rounds
-----------------------------------------------------------------------------------------

theorem supply_mono (heap : BlockRef → Block) (inode : Inode) (offset : Nat) {first second : Nat}
    (later : first ≤ second)
    : inode.supply heap offset first ≤ inode.supply heap offset second := by
  induction later with
  | refl => exact le_refl _
  | step _ ih => exact ih.trans (Nat.le_add_right _ _)

/-- After a turn of the counter that brought nothing, nothing more comes, by induction on the
rounds: they meet the blocks of that turn again.
-/
theorem supply_idle {first : Nat} (later : 0 < first)
    (idle : inode.supply heap offset (first + 2 ^ 32) = inode.supply heap offset first)
    (number : Nat)
    : inode.supply heap offset (first + number) = inode.supply heap offset first := by
  induction number with
  | zero => rfl
  | succ number ih =>
      have inTurn : inode.supply heap offset (first + number % 2 ^ 32 + 1)
          = inode.supply heap offset (first + number % 2 ^ 32) := by
        have turn := Nat.mod_lt number (Nat.two_pow_pos 32)
        have low := supply_mono heap inode offset (Nat.le_add_right first (number % 2 ^ 32))
        have step := supply_mono heap inode offset (Nat.le_add_right (first + number % 2 ^ 32) 1)
        have high := supply_mono heap inode offset
          (show first + number % 2 ^ 32 + 1 ≤ first + 2 ^ 32 by omega)
        omega
      have same : visit offset (first + number % 2 ^ 32) = visit offset (first + number) := by
        unfold visit
        omega
      have other (place : Nat) : startIn offset (first + place) = 0 := by
        unfold startIn
        rw [if_neg (by omega)]
      rw [supply, other, same] at inTurn
      rw [← Nat.add_assoc, supply, other, ih]
      omega

/-- Every turn of the counter brings a byte as long as enough come at all. -/
theorem le_supply_of_reached {count : Nat} (reached : size ≤ inode.supply heap offset count)
    (turns : Nat) (fewer : turns ≤ size)
    : turns ≤ inode.supply heap offset (1 + 2 ^ 32 * turns) := by
  induction turns with
  | zero => exact Nat.zero_le _
  | succ turns ih =>
      have before := ih (Nat.le_of_succ_le fewer)
      have next : 1 + 2 ^ 32 * (turns + 1) = 1 + 2 ^ 32 * turns + 2 ^ 32 := by omega
      rw [next]
      have grows := supply_mono heap inode offset (Nat.le_add_right (1 + 2 ^ 32 * turns) (2 ^ 32))
      by_contra short
      have idle : inode.supply heap offset (1 + 2 ^ 32 * turns + 2 ^ 32)
          = inode.supply heap offset (1 + 2 ^ 32 * turns) := by omega
      have stays := supply_idle (by omega) idle count
      have far := supply_mono heap inode offset
        (show count ≤ 1 + 2 ^ 32 * turns + count from Nat.le_add_left _ _)
      omega

/-- The first number of rounds that brings enough is within the fuel of the loop. -/
theorem exists_first_enough {count : Nat} (reached : size ≤ inode.supply heap offset count)
    : ∃ least ≤ count, least ≤ 2 ^ 32 * (size + 1)
        ∧ size ≤ inode.supply heap offset least
        ∧ ∀ earlier < least, inode.supply heap offset earlier < size := by
  have some : ∃ number, size ≤ inode.supply heap offset number := ⟨count, reached⟩
  refine ⟨Nat.find some, Nat.find_min' some reached, ?_, Nat.find_spec some,
    fun earlier before => Nat.lt_of_not_le (Nat.find_min some before)⟩
  have within := Nat.find_min' some (le_supply_of_reached reached size (le_refl _))
  omega

/-- The round in which the loop ends is within its fuel: behind the last index the counter comes
before it is back at its start.
-/
theorem count_le_fuel {count : Nat}
    (before : ∀ earlier < count, GoesOn heap inode size offset earlier)
    (stopped : ¬ GoesOn heap inode size offset count)
    : count ≤ 2 ^ 32 * (size + 1) := by
  rcases not_and_or.mp stopped with behind | full
  · by_contra far
    have turn : visit offset (count - 2 ^ 32) = visit offset count := by
      unfold visit
      omega
    exact behind (turn ▸ (before (count - 2 ^ 32) (by omega)).1)
  · obtain ⟨least, within, fuel, reached, -⟩ := exists_first_enough (Nat.le_of_not_lt full)
    rcases Nat.eq_or_lt_of_le within with rfl | earlier
    · exact fuel
    · exact absurd (before least earlier).2 (Nat.not_lt_of_le reached)

/-- What a read stores. -/
theorem readBytes_eq_ok_iff {bytes : Bytes}
    : inode.readBytes env heap size offset = .ok bytes
      ↔ ∃ count,
        (∀ earlier < count, GoesOn heap inode size offset earlier
          ∧ visit offset earlier ∈ inode.blocks)
        ∧ ¬ GoesOn heap inode size offset count
        ∧ bytes = inode.delivered env heap size offset count := by
  rw [readBytes_eq_ok_iff_within]
  constructor
  · rintro ⟨count, -, found⟩
    exact ⟨count, found⟩
  · rintro ⟨count, before, stopped, same⟩
    exact ⟨count, count_le_fuel (fun earlier first => (before earlier first).1) stopped, before,
      stopped, same⟩

/-- A read returns the size it was given, as an `int`. -/
theorem read_eq_ok_iff {result : Int} {bytes : Bytes}
    : inode.read env heap size offset = .ok (result, bytes)
      ↔ result = Util.toInt size ∧ inode.readBytes env heap size offset = .ok bytes := by
  unfold read
  rw [bind_eq_ok]
  constructor
  · rintro ⟨stored, outcome, same⟩
    obtain ⟨rfl, rfl⟩ := Prod.mk.inj (Except.ok.inj same)
    exact ⟨rfl, outcome⟩
  · rintro ⟨returned, outcome⟩
    exact ⟨bytes, outcome, by rw [returned]⟩

-----------------------------------------------------------------------------------------
-- What is stored
-----------------------------------------------------------------------------------------

/-- No block uses more than its array. -/
def Narrow (heap : BlockRef → Block) (inode : Inode) : Prop :=
  ∀ (blockIdx : Nat) (ref : BlockRef), inode.blocks[blockIdx]? = some ref
    → (heap ref).actualSize ≤ SIZE

/-- The byte of the file at the place of a byte of a block. -/
theorem byteAt_of_held {blockIdx ii : Nat} {ref : BlockRef}
    (held : inode.blocks[blockIdx]? = some ref) (inside : ii < SIZE)
    (used : ii < (heap ref).actualSize)
    : byteAt heap inode (SIZE * blockIdx + ii) = (heap ref).data ii := by
  have index : (SIZE * blockIdx + ii) / SIZE = blockIdx := by
    rw [Nat.mul_add_div (by decide), Nat.div_eq_of_lt inside, Nat.add_zero]
  have place : (SIZE * blockIdx + ii) % SIZE = ii := by
    rw [Nat.mul_add_mod, Nat.mod_eq_of_lt inside]
  simp only [byteAt, index, place, held, Option.map_some, contentAt, if_pos used]

/-- A block gives the bytes of the file at its place. -/
theorem getElem?_stock (narrow : inode.Narrow heap) {blockIdx ii : Nat}
    (used : ii < inode.usedAt heap blockIdx)
    : (inode.stock env heap blockIdx)[ii]? = some (byteAt heap inode (SIZE * blockIdx + ii)) := by
  unfold usedAt at used
  cases held : inode.blocks[blockIdx]? with
  | none => simp [held] at used
  | some ref =>
      simp only [held, Option.map_some, Option.getD_some] at used
      have inside : ii < SIZE := used.trans_le (narrow blockIdx ref held)
      rw [byteAt_of_held held inside used]
      simp only [stock, held, Option.map_some, Option.getD_some, Block.copied, List.getElem?_map,
        List.getElem?_range used, if_pos inside]

/-- The bytes of a round stay where they were stored, by induction on the rounds after it. -/
theorem getElem?_delivered {count number ii : Nat} (earlier : number < count)
    (low : startIn offset number ≤ ii) (high : ii < inode.usedAt heap (visit offset number))
    (inside : inode.supply heap offset number + (ii - startIn offset number) < size)
    : (inode.delivered env heap size offset count)[inode.supply heap offset number
          + (ii - startIn offset number)]?
      = (inode.stock env heap (visit offset number))[ii]? := by
  induction count with
  | zero => omega
  | succ count ih =>
      have length := length_delivered env heap inode size offset count
      rw [delivered]
      rcases Nat.eq_or_lt_of_le (Nat.le_of_lt_succ earlier) with rfl | before
      · rw [List.getElem?_append_right (by omega), length, List.getElem?_take_of_lt (by omega),
          List.getElem?_drop]
        congr 1
        omega
      · have grown := supply_mono heap inode offset (Nat.succ_le_of_lt before)
        rw [supply] at grown
        rw [List.getElem?_append_left (by omega)]
        exact ih before

/-- Every byte comes from some round, by induction on the rounds. -/
theorem exists_round {count position : Nat} (there : position < inode.supply heap offset count)
    : ∃ number < count, ∃ ii, startIn offset number ≤ ii
        ∧ ii < inode.usedAt heap (visit offset number)
        ∧ position = inode.supply heap offset number + (ii - startIn offset number) := by
  induction count with
  | zero => exact absurd there (Nat.not_lt_zero _)
  | succ count ih =>
      by_cases before : position < inode.supply heap offset count
      · obtain ⟨number, earlier, found⟩ := ih before
        exact ⟨number, by omega, found⟩
      · rw [supply] at there
        exact ⟨count, Nat.lt_succ_self _,
          startIn offset count + (position - inode.supply heap offset count), by omega, by omega,
          by omega⟩

/-- What is delivered was given by some round, by induction on the rounds. -/
theorem mem_delivered {count : Nat} {byte : UInt8}
    (member : byte ∈ inode.delivered env heap size offset count)
    : ∃ number < count, byte ∈ inode.stock env heap (visit offset number) := by
  induction count with
  | zero => cases member
  | succ count ih =>
      rcases List.mem_append.mp member with before | last
      · obtain ⟨number, earlier, given⟩ := ih before
        exact ⟨number, Nat.lt_succ_of_lt earlier, given⟩
      · exact ⟨count, Nat.lt_succ_self _, List.mem_of_mem_drop (List.mem_of_mem_take last)⟩

/-- What a block gives lies in its used part. -/
theorem mem_stock {blockIdx : Nat} {byte : UInt8} (member : byte ∈ inode.stock env heap blockIdx)
    : ∃ ref, inode.blocks[blockIdx]? = some ref
        ∧ ∃ ii < (heap ref).actualSize,
          (if ii < SIZE then (heap ref).data ii else env.beyond ii) = byte := by
  unfold stock at member
  cases held : inode.blocks[blockIdx]? with
  | none => simp [held] at member
  | some ref =>
      rw [held] at member
      obtain ⟨ii, used, same⟩ := List.mem_map.mp member
      exact ⟨ref, rfl, ii, List.mem_range.mp used, same⟩

/-- The blocks from the offset on give all the bytes asked for, and none is missing before. -/
def Yields (heap : BlockRef → Block) (inode : Inode) (size offset : Nat) : Prop :=
  ∃ count, size ≤ inode.supply heap offset count
    ∧ ∀ number < count, inode.supply heap offset number < size
      → visit offset number < inode.blocks.size ∧ visit offset number ∈ inode.blocks

/-- A read of blocks that give enough delivers what the first of them give. -/
theorem readBytes_of_enough {count : Nat} (env : Env)
    (enough : size ≤ inode.supply heap offset count)
    (present
      : ∀ number < count, inode.supply heap offset number < size
        → visit offset number < inode.blocks.size ∧ visit offset number ∈ inode.blocks)
    : ∃ least ≤ count, size ≤ inode.supply heap offset least
        ∧ inode.readBytes env heap size offset
          = .ok (inode.delivered env heap size offset least) := by
  obtain ⟨least, within, -, reached, before⟩ := exists_first_enough enough
  refine ⟨least, within, reached, readBytes_eq_ok_iff.mpr ⟨least, ?_, ?_, rfl⟩⟩
  · intro earlier first
    obtain ⟨index, member⟩ := present earlier (first.trans_le within) (before earlier first)
    exact ⟨⟨index, before earlier first⟩, member⟩
  · exact fun more => absurd more.2 (Nat.not_lt_of_le reached)

/-- A read stores as many bytes as it says exactly if the blocks give them. -/
theorem readBytes_whole_iff (env : Env)
    : (∃ bytes, inode.readBytes env heap size offset = .ok bytes ∧ bytes.length = size)
      ↔ inode.Yields heap size offset := by
  constructor
  · rintro ⟨bytes, outcome, whole⟩
    obtain ⟨count, before, -, rfl⟩ := readBytes_eq_ok_iff.mp outcome
    have length := length_delivered env heap inode size offset count
    exact ⟨count, by omega, fun number earlier _ =>
      ⟨(before number earlier).1.1, (before number earlier).2⟩⟩
  · rintro ⟨count, enough, present⟩
    obtain ⟨least, -, reached, outcome⟩ := readBytes_of_enough env enough present
    have length := length_delivered env heap inode size offset least
    exact ⟨_, outcome, by omega⟩

/-- Where the blocks from the first on are all there and empty, and only there, a read of a file
ends with nothing stored.
-/
theorem readBytes_eq_nil_iff (env : Env) (positive : 0 < size)
    : inode.readBytes env heap size 0 = .ok []
      ↔ inode.blocks.size < 2 ^ 32
        ∧ ∀ blockIdx < inode.blocks.size,
          ∃ ref, inode.blocks[blockIdx]? = some ref ∧ (heap ref).actualSize = 0 := by
  have start (number : Nat) : startIn 0 number = 0 := by
    unfold startIn
    split <;> rfl
  have index {number : Nat} (low : number < 2 ^ 32) : visit 0 number = number := by
    rw [visit, Nat.zero_div, Nat.zero_add, Nat.mod_eq_of_lt low]
  rw [readBytes_eq_ok_iff]
  constructor
  · rintro ⟨count, before, stopped, none⟩
    have length := length_delivered env heap inode size 0 count
    rw [← none, List.length_nil] at length
    have nothing : inode.supply heap 0 count = 0 := by omega
    -- without a byte, only the index ends the loop
    have behind : inode.blocks.size ≤ visit 0 count := by
      by_contra inside
      exact stopped ⟨Nat.lt_of_not_le inside, nothing.trans_lt positive⟩
    have few : inode.blocks.size < 2 ^ 32 :=
      behind.trans_lt (Nat.mod_lt _ (Nat.two_pow_pos 32))
    have all : inode.blocks.size ≤ count := behind.trans ((Nat.mod_le _ _).trans (by simp))
    refine ⟨few, fun blockIdx inside => ?_⟩
    have earlier := inside.trans_le all
    obtain ⟨-, member⟩ := before blockIdx earlier
    rw [index (inside.trans few), ← Std.ExtTreeMap.isSome_getElem?_iff_mem,
      Option.isSome_iff_exists] at member
    obtain ⟨ref, held⟩ := member
    have step := supply_mono heap inode 0 (Nat.succ_le_of_lt earlier)
    rw [nothing, supply, start, index (inside.trans few), usedAt, held, Option.map_some,
      Option.getD_some] at step
    exact ⟨ref, held, by omega⟩
  · rintro ⟨few, empty⟩
    have nothing : ∀ number ≤ inode.blocks.size, inode.supply heap 0 number = 0 := by
      intro number within
      induction number with
      | zero => rfl
      | succ number ih =>
          obtain ⟨ref, held, none⟩ := empty number within
          rw [supply, ih (Nat.le_of_succ_le within), index (by omega), usedAt, held,
            Option.map_some, Option.getD_some, none, Nat.zero_sub]
    refine ⟨inode.blocks.size, fun earlier inside => ?_, ?_, ?_⟩
    · obtain ⟨ref, held, -⟩ := empty earlier inside
      rw [GoesOn, index (inside.trans few), nothing earlier inside.le]
      exact ⟨⟨inside, positive⟩, Std.ExtTreeMap.isSome_getElem?_iff_mem.mp (by rw [held]; rfl)⟩
    · rw [GoesOn, index few]
      exact fun more => absurd more.1 (Nat.lt_irrefl _)
    · refine (List.eq_nil_of_length_eq_zero ?_).symm
      rw [length_delivered, nothing _ (le_refl _), Nat.min_zero]

-----------------------------------------------------------------------------------------
-- The condition
-----------------------------------------------------------------------------------------

theorem due_le (inode : Inode) (size offset : Nat) : inode.due size offset ≤ size := by
  unfold due
  split <;> omega

/-- What is returned is the number of bytes due exactly under the condition on the numbers. -/
theorem toInt_eq_due_iff (inode : Inode) (size offset : Nat)
    : Util.toInt size = inode.due size offset ↔ inode.Counted size offset := by
  unfold Util.toInt Counted due
  rw [Int.bmod_def]
  split <;> split <;> split <;> omega

/-- Rounds that meet only blocks that are there contain the one in which the loop ends. -/
theorem Supplied.readBytes {count : Nat} (env : Env)
    (supplied : Supplied heap inode size offset count)
    : ∃ least ≤ count, inode.due size offset ≤ inode.supply heap offset least
        ∧ inode.readBytes env heap size offset
          = .ok (inode.delivered env heap size offset least) := by
  have ended : ¬ GoesOn heap inode size offset count := by
    rintro ⟨inside, short⟩
    rcases supplied.ends with full | behind <;> omega
  have some : ∃ number, ¬ GoesOn heap inode size offset number := ⟨count, ended⟩
  classical
  have within : Nat.find some ≤ count := Nat.find_min' some ended
  have before (earlier : Nat) (first : earlier < Nat.find some)
      : GoesOn heap inode size offset earlier :=
    Classical.not_not.mp (Nat.find_min some first)
  refine ⟨Nat.find some, within, ?_, readBytes_eq_ok_iff.mpr ⟨Nat.find some, ?_,
    Nat.find_spec some, rfl⟩⟩
  · rcases Nat.eq_or_lt_of_le within with last | inside
    · exact last ▸ supplied.enough
    · by_contra short
      have few : inode.supply heap offset (Nat.find some) < size :=
        (Nat.lt_of_not_le short).trans_le (due_le inode size offset)
      exact Nat.find_spec some ⟨(supplied.present _ inside few).1, few⟩
  · intro earlier first
    exact ⟨before earlier first,
      (supplied.present earlier (first.trans_le within) (before earlier first).2).2⟩

/-- A read of a file whose blocks use no more than their arrays delivers the slice asked for
exactly if the size asked for is the number of bytes due, as an `int`, and the blocks from the
offset on supply all of them.
-/
theorem readsSlice_iff (env : Env) (narrow : inode.Narrow heap) (size offset : Nat)
    : ReadsSlice env heap inode size offset
      ↔ inode.Counted size offset ∧ ∃ count, Supplied heap inode size offset count := by
  have bound := due_le inode size offset
  simp only [ReadsSlice, read_eq_ok_iff]
  constructor
  · rintro ⟨bytes, ⟨counted, outcome⟩, slice⟩
    refine ⟨(toInt_eq_due_iff inode size offset).mp counted.symm, ?_⟩
    obtain ⟨count, before, stopped, rfl⟩ := readBytes_eq_ok_iff.mp outcome
    have length := length_delivered env heap inode size offset count
    refine ⟨count, ?enough, ?ends, ?present, ?placed⟩
    case enough =>
      by_contra short
      have last := slice (inode.supply heap offset count) (by omega)
      rw [List.getElem?_eq_none (by omega)] at last
      cases last
    case ends =>
      rw [GoesOn] at stopped
      omega
    case present =>
      exact fun number earlier _ => ⟨(before number earlier).1.1, (before number earlier).2⟩
    case placed =>
      refine fun number earlier => Or.inr fun ii low high inside => ?_
      have stored := slice _ inside
      rw [getElem?_delivered earlier low high (inside.trans_le bound),
        getElem?_stock narrow high, Option.some.injEq, ← Nat.add_assoc] at stored
      exact stored
  · rintro ⟨counted, count, supplied⟩
    obtain ⟨least, within, reached, outcome⟩ := supplied.readBytes env
    refine ⟨_, ⟨((toInt_eq_due_iff inode size offset).mpr counted).symm, outcome⟩, ?_⟩
    intro position inside
    obtain ⟨number, earlier, ii, low, high, rfl⟩ := exists_round (inside.trans_le reached)
    rw [getElem?_delivered earlier low high (inside.trans_le bound), getElem?_stock narrow high]
    congr 1
    rcases supplied.placed number (earlier.trans_le within) with aligned | same
    · congr 1
      omega
    · rw [same ii low high inside, Nat.add_assoc]

/-- A file with blocks at some indices, each behind a pointer of its own. -/
def withBlocksOf (blocks : List Nat) (size : Nat) : Inode :=
  { Inode.new Util.twoDigests (.at_ 0) [47, 97] with
    size := size
    blocks := blocks.foldl (fun blocks blockIdx => blocks.insert blockIdx (0, blockIdx)) ∅ }

/-- Two bytes from the middle of one block. -/
theorem readsSlice_middle
    : ReadsSlice Util.twoDigests (fun _ => Block.new [1, 2, 3] 3) (withBlocksOf [0] 3) 2 1 := by
  refine (readsSlice_iff Util.twoDigests ?_ 2 1).mpr ⟨by decide, 1, ?_, ?_, ?_, ?_⟩
  · intro blockIdx ref _
    rw [Block.new_actualSize]
    decide
  · decide +kernel
  · exact Or.inl (by decide +kernel)
  · intro number first _
    obtain rfl := Nat.lt_one_iff.mp first
    exact ⟨by decide +kernel, by decide +kernel⟩
  · intro number first
    obtain rfl := Nat.lt_one_iff.mp first
    exact Or.inl (by decide +kernel)

/-- One byte behind the end of an empty file is said to be there, and a block of one byte before
another block moves the bytes of the latter forward.
-/
theorem readsSlice_fails
    : ¬ ReadsSlice Util.twoDigests (fun _ => Block.empty) (withBlocksOf [] 0) 1 0
      ∧ (withBlocksOf [0, 1] 4097).Narrow (fun _ => Block.new [1] 1)
      ∧ ¬ ReadsSlice Util.twoDigests (fun _ => Block.new [1] 1) (withBlocksOf [0, 1] 4097) 2 0 := by
  have narrow : (withBlocksOf [0, 1] 4097).Narrow (fun _ => Block.new [1] 1) := by
    intro blockIdx ref _
    rw [Block.new_actualSize]
    decide
  refine ⟨?_, narrow, ?_⟩
  · rintro ⟨bytes, outcome, -⟩
    have counted := (toInt_eq_due_iff _ _ _).mp (read_eq_ok_iff.mp outcome).1.symm
    exact absurd counted (by decide)
  · intro reads
    obtain ⟨-, count, supplied⟩ := (readsSlice_iff Util.twoDigests narrow 2 0).mp reads
    have enough : 2 ≤ (withBlocksOf [0, 1] 4097).supply (fun _ => Block.new [1] 1) 0 count :=
      supplied.enough
    have one : (withBlocksOf [0, 1] 4097).supply (fun _ => Block.new [1] 1) 0 1 = 1 := by
      decide +kernel
    have later : 1 < count := by
      by_contra few
      have most := supply_mono (fun _ => Block.new [1] 1) (withBlocksOf [0, 1] 4097) 0
        (Nat.le_of_not_lt few)
      omega
    rcases supplied.placed 1 later with aligned | same
    · rw [one] at aligned
      exact absurd aligned (by decide)
    · have moved := same 0 (by decide) (by decide +kernel) (by rw [one]; decide)
      rw [one] at moved
      exact absurd moved (by decide +kernel)

end Inode

end ZippyFS
