import Mathlib.Data.Nat.ModEq
import ZippyFS.Cache.Pointers
import ZippyFS.Lib.Tables

/-! The block loop of `write` as a number of rounds: when it returns, which blocks it touches
and what each of its rounds leaves in its block.
-/

namespace ZippyFS

namespace Inode

/-- A change that keeps everything but the times, the dirty mark and the blocks. -/
structure SameAttributes (before after : Inode) : Prop where
  name : SameName before after
  mode : after.mode = before.mode
  nlink : after.nlink = before.nlink
  size : after.size = before.size
  deleted : after.deleted = before.deleted
  links : after.links = before.links

theorem SameAttributes.refl (inode : Inode) : SameAttributes inode inode :=
  ⟨.refl inode, rfl, rfl, rfl, rfl, rfl⟩

theorem SameAttributes.trans {before middle after : Inode} (first : SameAttributes before middle)
    (second : SameAttributes middle after)
    : SameAttributes before after where
  name := first.name.trans second.name
  mode := second.mode.trans first.mode
  nlink := second.nlink.trans first.nlink
  size := second.size.trans first.size
  deleted := second.deleted.trans first.deleted
  links := second.links.trans first.links

/-- The references of an inode carry the indices that they are filed under. -/
def Filed (inode : Inode) : Prop :=
  ∀ (blockIdx : Nat) (ref : BlockRef), inode.blocks[blockIdx]? = some ref → ref.2 = blockIdx

end Inode

namespace BlockCache

variable {env : Env} {now : Clock} {cache : BlockCache} {path buf : Bytes}
  {alloc offset count : Nat} {inode : Inode} {state final : Writing}

-----------------------------------------------------------------------------------------
-- Rounds
-----------------------------------------------------------------------------------------

/-- The first block that a write touches, and how many it touches. -/
def firstBlock (offset : Nat) : Nat := offset / SIZE
def roundCount (buf : Bytes) (offset : Nat) : Nat :=
  Util.ulongCeil (buf.length + offset) SIZE - firstBlock offset

/-- How many bytes were handed out before a round, and how many the round gets. -/
def before (buf : Bytes) (number : Nat) : Nat := min (SIZE * number) buf.length
def share (buf : Bytes) (number : Nat) : Nat := min SIZE (buf.length - SIZE * number)

/-- Where in its block a round starts: only the first one starts at the offset. -/
def startIn (offset number : Nat) : Nat := if number = 0 then offset % SIZE else 0

/-- One round, by its number. -/
def round (now : Clock) (buf : Bytes) (alloc offset number : Nat) (state : Writing) : Writing :=
  writeBlock now buf alloc (firstBlock offset + number) (before buf number) (share buf number)
    (startIn offset number) state

/-- The first rounds. -/
def rounds (now : Clock) (buf : Bytes) (alloc offset : Nat) : Nat → Writing → Writing
  | 0, state => state
  | number + 1, state =>
      round now buf alloc offset number (rounds now buf alloc offset number state)

/-- From a round on, the loop carries out the rounds that are left, by induction on its fuel. -/
theorem writeLoop_eq {numBlocks fuel number currIdx blockSize : Nat} (small : numBlocks < 2 ^ 32)
    (enough : numBlocks < firstBlock offset + number + fuel)
    (started : firstBlock offset + number ≤ numBlocks)
    (handed : currIdx + blockSize = before buf number)
    (covered : buf.length ≤ SIZE * (numBlocks - firstBlock offset))
    : writeLoop now buf alloc numBlocks fuel (firstBlock offset + number) currIdx blockSize
        (startIn offset number) (rounds now buf alloc offset number state)
      = .ok (rounds now buf alloc offset (numBlocks - firstBlock offset) state) := by
  induction fuel generalizing number currIdx blockSize with
  | zero => omega
  | succ fuel ih =>
      rw [writeLoop]
      by_cases more : firstBlock offset + number < numBlocks
      · rw [if_pos more]
        dsimp only
        have width : SIZE = 4096 := rfl
        have size : (if buf.length < currIdx + blockSize + SIZE
            then buf.length - (currIdx + blockSize) else SIZE) = share buf number := by
          rw [handed]
          unfold before share
          split <;> omega
        have index : (firstBlock offset + number + 1) % 2 ^ 32
            = firstBlock offset + (number + 1) := by
          rw [Nat.mod_eq_of_lt (by omega), Nat.add_assoc]
        have rest : (0 : Nat) = startIn offset (number + 1) := by simp [startIn]
        have next : SIZE * (number + 1) = SIZE * number + SIZE := Nat.mul_succ _ _
        rw [size, index, handed, rest]
        exact ih (by omega) (by omega) (by unfold before share; omega)
      · have done : number = numBlocks - firstBlock offset := by omega
        rw [if_neg more, handed, done, if_pos]
        unfold before
        omega

/-- With 2^32 or more blocks the loop never leaves, by induction on its fuel. -/
theorem writeLoop_diverges {numBlocks fuel blockIdx currIdx blockSize offsetAmt : Nat}
    (many : 2 ^ 32 ≤ numBlocks) (index : blockIdx < 2 ^ 32)
    : writeLoop now buf alloc numBlocks fuel blockIdx currIdx blockSize offsetAmt state
      = .error .diverges := by
  induction fuel generalizing blockIdx currIdx blockSize offsetAmt state with
  | zero => rfl
  | succ fuel ih =>
      rw [writeLoop, if_pos (by omega)]
      exact ih (Nat.mod_lt _ (by decide))

/-- The loop comes to its end if the blocks that are left can take the bytes that are left, by
induction on its fuel.
-/
theorem writeLoop_ends_iff {numBlocks fuel blockIdx currIdx blockSize offsetAmt : Nat}
    (small : numBlocks < 2 ^ 32) (enough : numBlocks - blockIdx < fuel)
    (handed : currIdx + blockSize ≤ buf.length)
    : (∃ final, writeLoop now buf alloc numBlocks fuel blockIdx currIdx blockSize offsetAmt state
        = .ok final)
      ↔ buf.length ≤ currIdx + blockSize + SIZE * (numBlocks - blockIdx) := by
  have width : SIZE = 4096 := rfl
  induction fuel generalizing blockIdx currIdx blockSize offsetAmt state with
  | zero => omega
  | succ fuel ih =>
      rw [writeLoop]
      by_cases more : blockIdx < numBlocks
      · rw [if_pos more, Nat.mod_eq_of_lt (by omega)]
        dsimp only
        have less : numBlocks - (blockIdx + 1) < fuel := by omega
        have share : currIdx + blockSize
            + (if buf.length < currIdx + blockSize + SIZE then buf.length - (currIdx + blockSize)
              else SIZE)
            = min (currIdx + blockSize + SIZE) buf.length := by
          split <;> omega
        refine (ih less (by omega)).trans ?_
        rw [share, width]
        omega
      · rw [if_neg more, width]
        by_cases done : currIdx + blockSize = buf.length
        · rw [if_pos done]
          exact iff_of_true ⟨_, rfl⟩ (by omega)
        · rw [if_neg done]
          refine iff_of_false ?_ (by omega)
          rintro ⟨_, same⟩
          cases same

/-- The end of a write lies in its last block. -/
theorem ulongCeil_spec (amount : Nat)
    : amount ≤ SIZE * Util.ulongCeil amount SIZE
      ∧ (∀ limit, Util.ulongCeil amount SIZE ≤ limit ↔ amount ≤ limit * SIZE) := by
  have width : SIZE = 4096 := rfl
  unfold Util.ulongCeil
  rw [width]
  split
  · constructor
    · omega
    · intro limit
      omega
  · constructor
    · omega
    · intro limit
      omega

/-- The largest end of a write whose blocks a 32-bit index can count. -/
def lastEnd : Nat := (2 ^ 32 - 1) * SIZE

/-- What the block loop of `write` starts with. -/
def startOf (now : Clock) (cache : BlockCache) (path : Bytes) (inode : Inode) (stop : Nat)
    : Writing where
  inode := grown now inode stop
  heap := cache.heap
  dirty := cache.dirtyBlock[cache.inodeIdx[path]?.getD []]?.getD ∅
  mtimes := cache.dirtyBlockMtime[cache.inodeIdx[path]?.getD []]?.getD ∅

/-- A write that ends below the limit carries out its rounds. -/
theorem runLoop_eq (now : Clock) (cache : BlockCache) (path : Bytes) (inode : Inode)
    (fits : buf.length + offset ≤ lastEnd)
    : cache.runLoop now path buf offset inode
      = .ok (rounds now buf cache.allocs offset (roundCount buf offset)
          (startOf now cache path inode (buf.length + offset))) := by
  have width : SIZE = 4096 := rfl
  have limit : lastEnd = 17592186040320 := rfl
  obtain ⟨covered, bound⟩ := ulongCeil_spec (buf.length + offset)
  have small := (bound (2 ^ 32 - 1)).mpr fits
  have stop : (buf.length + offset) % 2 ^ 64 = buf.length + offset :=
    Nat.mod_eq_of_lt (by omega)
  have first : firstBlock offset = offset / 4096 := rfl
  have index : offset / SIZE % 2 ^ 32 = firstBlock offset + 0 := by
    rw [width, first, Nat.mod_eq_of_lt (by omega), Nat.add_zero]
  have start : (if offset < SIZE then offset else offset % SIZE) = startIn offset 0 := by
    unfold startIn
    rw [if_pos rfl]
    split
    · rw [Nat.mod_eq_of_lt ‹_›]
    · rfl
  unfold runLoop roundCount
  dsimp only
  rw [stop, index, start]
  generalize Util.ulongCeil (buf.length + offset) SIZE = numBlocks at *
  rw [width] at covered
  refine writeLoop_eq (by omega) (by omega) (by omega) ?_ ?_
  · simp [before]
  · rw [width]
    omega

/-- A write that ends above the limit does not return. -/
theorem runLoop_diverges (ends : (buf.length + offset) % 2 ^ 64 > lastEnd)
    : cache.runLoop now path buf offset inode = .error .diverges := by
  have many : 2 ^ 32 ≤ Util.ulongCeil ((buf.length + offset) % 2 ^ 64) SIZE := by
    by_contra few
    have most := ((ulongCeil_spec ((buf.length + offset) % 2 ^ 64)).2 (2 ^ 32 - 1)).mp (by omega)
    exact absurd most (Nat.not_le_of_lt ends)
  exact writeLoop_diverges many (Nat.mod_lt _ (by decide))

/-- A write of so many bytes comes to its end: a 32-bit index can count the blocks up to the
last byte, and those from the block of the offset on can take all bytes.
-/
def LoopEnds (length offset : Nat) : Prop :=
  Util.ulongCeil ((length + offset) % 2 ^ 64) SIZE < 2 ^ 32
  ∧ length
    ≤ SIZE * (Util.ulongCeil ((length + offset) % 2 ^ 64) SIZE - offset / SIZE % 2 ^ 32)

/-- The block loop of `write` returns if and only if it comes to its end. -/
theorem runLoop_ends_iff (now : Clock) (cache : BlockCache) (path : Bytes) (inode : Inode)
    : (∃ final, cache.runLoop now path buf offset inode = .ok final)
      ↔ LoopEnds buf.length offset := by
  unfold runLoop LoopEnds
  dsimp only
  by_cases small : Util.ulongCeil ((buf.length + offset) % 2 ^ 64) SIZE < 2 ^ 32
  · rw [writeLoop_ends_iff small (by omega) (Nat.zero_le _), Nat.zero_add]
    exact (and_iff_right small).symm
  · rw [writeLoop_diverges (Nat.le_of_not_lt small) (Nat.mod_lt _ (by decide))]
    exact iff_of_false (fun ⟨_, same⟩ => nomatch same) (fun both => small both.1)

-----------------------------------------------------------------------------------------
-- What the rounds leave behind
-----------------------------------------------------------------------------------------

/-- The block at an index. -/
def Writing.block (state : Writing) (blockIdx : Nat) : Option Block :=
  state.inode.blocks[blockIdx]?.map state.heap

/-- What a round leaves in its block. -/
def roundBlock (buf : Bytes) (offset number : Nat) : Option Block → Block
  | some block => block.insert buf (share buf number) (startIn offset number)
  | none => Block.new (buf.drop (before buf number)) (share buf number)

/-- What one round does to the block at its index. -/
structure WroteBlock (now : Clock) (alloc blockIdx : Nat) (content : Block)
    (start final : Writing)
    : Prop where
  same : Inode.SameAttributes start.inode final.inode
  refs
    : ∀ other : Nat, final.inode.blocks[other]?
      = if other = blockIdx ∧ start.inode.blocks[other]? = none
        then some (alloc, blockIdx) else start.inode.blocks[other]?
  heap
    : ∀ ref : BlockRef, final.heap ref
      = if final.inode.blocks[blockIdx]? = some ref then content else start.heap ref
  dirty
    : ∀ other : Nat, final.dirty[other]?
      = if other = blockIdx then final.inode.blocks[other]? else start.dirty[other]?
  mtimes
    : ∀ other : Nat, final.mtimes[other]?
      = if other = blockIdx then some (Util.getTime now) else start.mtimes[other]?
  mtime : final.inode.ulMtime = Util.getTime now

theorem round_wroteBlock {number : Nat} (state : Writing)
    : WroteBlock now alloc (firstBlock offset + number)
        (roundBlock buf offset number (state.block (firstBlock offset + number))) state
        (round now buf alloc offset number state) := by
  unfold round writeBlock Writing.block
  cases present : state.inode.blocks[firstBlock offset + number]? with
  | some temp =>
      refine ⟨⟨⟨rfl, rfl⟩, rfl, rfl, rfl, rfl, rfl⟩, ?_, ?_, ?_, ?_, rfl⟩
      · intro other
        rw [if_neg]
        · rfl
        · rintro ⟨rfl, missing⟩
          simp [present] at missing
      · intro ref
        simp only [Inode.touch, present, Option.some.injEq, Function.update_apply, eq_comm]
        rfl
      · intro other
        dsimp only
        rw [Tables.getElem?_insert]
        by_cases same : other = firstBlock offset + number
        · rw [if_pos same, if_pos same, same]
          exact present.symm
        · rw [if_neg same, if_neg same]
      · intro other
        exact Tables.getElem?_insert ..
  | none =>
      refine ⟨⟨⟨rfl, rfl⟩, rfl, rfl, rfl, rfl, rfl⟩, ?_, ?_, ?_, ?_, rfl⟩
      · intro other
        simp only [Inode.addBlock, Inode.updateMtime]
        rw [Tables.getElem?_insert]
        by_cases same : other = firstBlock offset + number
        · rw [if_pos same, if_pos ⟨same, by rw [same, present]⟩]
        · rw [if_neg same, if_neg (fun both => same both.1)]
      · intro ref
        simp only [Inode.addBlock, Inode.updateMtime, Std.ExtTreeMap.getElem?_insert_self,
          Option.some.injEq, Function.update_apply, eq_comm]
        rfl
      · intro other
        simp only [Inode.addBlock, Inode.updateMtime]
        rw [Tables.getElem?_insert, Tables.getElem?_insert]
        split <;> rfl
      · intro other
        exact Tables.getElem?_insert ..

/-- The block is touched by one of the first rounds. -/
def Touched (offset count blockIdx : Nat) : Prop :=
  firstBlock offset ≤ blockIdx ∧ blockIdx < firstBlock offset + count

instance (offset count blockIdx : Nat) : Decidable (Touched offset count blockIdx) :=
  inferInstanceAs (Decidable (_ ∧ _))

/-- What the first rounds do: a touched block that was missing is allocated, and every touched
block is listed as dirty.
-/
structure Wrote (now : Clock) (buf : Bytes) (alloc offset count : Nat) (start final : Writing)
    : Prop where
  same : Inode.SameAttributes start.inode final.inode
  filed : final.inode.Filed
  refs
    : ∀ blockIdx : Nat, final.inode.blocks[blockIdx]?
      = if Touched offset count blockIdx ∧ start.inode.blocks[blockIdx]? = none
        then some (alloc, blockIdx) else start.inode.blocks[blockIdx]?
  block
    : ∀ blockIdx : Nat, final.block blockIdx
      = if Touched offset count blockIdx
        then some (roundBlock buf offset (blockIdx - firstBlock offset) (start.block blockIdx))
        else start.block blockIdx
  heap
    : ∀ ref : BlockRef, ref.1 ≠ alloc
      → (∀ blockIdx : Nat, Touched offset count blockIdx
        → start.inode.blocks[blockIdx]? ≠ some ref)
      → final.heap ref = start.heap ref
  dirty
    : ∀ blockIdx : Nat, final.dirty[blockIdx]?
      = if Touched offset count blockIdx then final.inode.blocks[blockIdx]?
        else start.dirty[blockIdx]?
  mtimes
    : ∀ blockIdx : Nat, final.mtimes[blockIdx]?
      = if Touched offset count blockIdx then some (Util.getTime now)
        else start.mtimes[blockIdx]?
  mtime : final.inode.ulMtime = if count = 0 then start.inode.ulMtime else Util.getTime now

/-- The block that a round worked on is there afterwards. -/
theorem WroteBlock.present {blockIdx : Nat} {content : Block} {start final : Writing}
    (wrote : WroteBlock now alloc blockIdx content start final)
    : ∃ ref, final.inode.blocks[blockIdx]? = some ref := by
  rw [wrote.refs]
  cases known : start.inode.blocks[blockIdx]? with
  | none => exact ⟨_, if_pos ⟨rfl, rfl⟩⟩
  | some ref => exact ⟨ref, if_neg (fun both => by cases both.2)⟩

/-- One round more. -/
theorem Wrote.round {start middle : Writing} {number : Nat}
    (wrote : Wrote now buf alloc offset number start middle)
    : Wrote now buf alloc offset (number + 1) start (round now buf alloc offset number middle) := by
  have last : WroteBlock now alloc (firstBlock offset + number)
      (roundBlock buf offset number (middle.block (firstBlock offset + number))) middle
      (BlockCache.round now buf alloc offset number middle) := round_wroteBlock middle
  generalize BlockCache.round now buf alloc offset number middle = final at *
  have yes : Touched offset (number + 1) (firstBlock offset + number) := by
    unfold Touched
    omega
  have not : ¬ Touched offset number (firstBlock offset + number) := by
    unfold Touched
    omega
  have keeps (blockIdx : Nat) (other : blockIdx ≠ firstBlock offset + number)
      : Touched offset (number + 1) blockIdx ↔ Touched offset number blockIdx := by
    unfold Touched
    omega
  have here : middle.inode.blocks[firstBlock offset + number]?
      = start.inode.blocks[firstBlock offset + number]? := by
    rw [wrote.refs, if_neg (fun both => not both.1)]
  have refs : ∀ blockIdx : Nat, final.inode.blocks[blockIdx]?
      = if Touched offset (number + 1) blockIdx ∧ start.inode.blocks[blockIdx]? = none
        then some (alloc, blockIdx) else start.inode.blocks[blockIdx]? := by
    intro blockIdx
    rw [last.refs]
    by_cases same : blockIdx = firstBlock offset + number
    · subst same
      simp only [here, yes, true_and]
    · simp only [same, false_and, if_false, keeps blockIdx same]
      exact wrote.refs blockIdx
  have filed : final.inode.Filed := by
    intro blockIdx ref known
    rw [last.refs] at known
    split at known
    case isTrue both =>
      obtain rfl := Option.some.inj known
      exact both.1.symm
    case isFalse => exact wrote.filed blockIdx ref known
  obtain ⟨there, present⟩ := last.present
  refine ⟨wrote.same.trans last.same, filed, refs, ?_, ?_, ?_, ?_, ?_⟩
  · intro blockIdx
    by_cases same : blockIdx = firstBlock offset + number
    · subst same
      have content : middle.block (firstBlock offset + number)
          = start.block (firstBlock offset + number) := by
        rw [wrote.block, if_neg not]
      rw [if_pos yes, Nat.add_sub_cancel_left, Writing.block, present, Option.map_some, last.heap,
        if_pos present, content]
    · have untouched : final.block blockIdx = middle.block blockIdx := by
        have known : final.inode.blocks[blockIdx]? = middle.inode.blocks[blockIdx]? := by
          rw [last.refs, if_neg (fun both => same both.1)]
        unfold Writing.block
        cases other : final.inode.blocks[blockIdx]? with
        | none => rw [← known, other]; rfl
        | some ref =>
            rw [← known, other, Option.map_some, Option.map_some, last.heap, if_neg]
            intro also
            exact same ((filed _ _ other).symm.trans (filed _ _ also))
      rw [untouched, wrote.block]
      simp only [keeps blockIdx same]
  · intro ref elsewhere unlisted
    rw [last.heap, if_neg, wrote.heap ref elsewhere]
    · intro blockIdx touched
      refine unlisted blockIdx ?_
      unfold Touched at touched ⊢
      omega
    · rw [refs]
      split
      · intro equal
        obtain rfl := Option.some.inj equal
        exact elsewhere rfl
      · exact unlisted _ yes
  · intro blockIdx
    rw [last.dirty]
    by_cases same : blockIdx = firstBlock offset + number
    · subst same
      rw [if_pos rfl, if_pos yes]
    · have known : final.inode.blocks[blockIdx]? = middle.inode.blocks[blockIdx]? := by
        rw [last.refs, if_neg (fun both => same both.1)]
      rw [if_neg same, wrote.dirty, known]
      simp only [keeps blockIdx same]
  · intro blockIdx
    rw [last.mtimes]
    by_cases same : blockIdx = firstBlock offset + number
    · subst same
      rw [if_pos rfl, if_pos yes]
    · rw [if_neg same, wrote.mtimes]
      simp only [keeps blockIdx same]
  · rw [if_neg (Nat.succ_ne_zero _), last.mtime]

/-- The first rounds, by induction on their number. -/
theorem rounds_wrote (now : Clock) (buf : Bytes) (alloc offset count : Nat) {start : Writing}
    (filed : start.inode.Filed)
    : Wrote now buf alloc offset count start (rounds now buf alloc offset count start) := by
  induction count with
  | zero =>
      have none (blockIdx : Nat) : ¬ Touched offset 0 blockIdx := by
        unfold Touched
        omega
      refine ⟨.refl _, filed, ?_, ?_, fun _ _ _ => rfl, ?_, ?_, rfl⟩ <;>
        · intro blockIdx
          simp only [none, false_and, if_false, rounds]
  | succ number ih => exact ih.round

-----------------------------------------------------------------------------------------
-- Writes to cached paths
-----------------------------------------------------------------------------------------

@[simp] theorem grown_blocks (now : Clock) (inode : Inode) (stop : Nat)
    : (grown now inode stop).blocks = inode.blocks := by
  unfold grown
  split <;> rfl

@[simp] theorem grown_size (now : Clock) (inode : Inode) (stop : Nat)
    : (grown now inode stop).size = max inode.size stop := by
  have resized : (inode.setSize now stop).size = stop := rfl
  unfold grown
  split <;> omega

/-- The loop of a write keeps everything but the times, the dirty mark and the blocks. -/
theorem runLoop_same (loop : cache.runLoop now path buf offset inode = .ok state)
    : Inode.SameAttributes (grown now inode ((buf.length + offset) % 2 ^ 64)) state.inode := by
  refine writeLoop_invariant (P := fun state => Inode.SameAttributes
    (grown now inode ((buf.length + offset) % 2 ^ 64)) state.inode) ?_ loop (.refl _)
  intro blockIdx currIdx blockSize offsetAmt state same
  unfold writeBlock
  split
  · exact same.trans ⟨⟨rfl, rfl⟩, rfl, rfl, rfl, rfl, rfl⟩
  · exact same.trans ⟨⟨rfl, rfl⟩, rfl, rfl, rfl, rfl, rfl⟩

/-- A write to a cached path is its block loop. -/
theorem writeCounted_cached (found : cache.find path = some inode)
    : cache.writeCounted env now path buf offset
      = (do
        let state ← (cache.set path inode.setDirty.remakeInode).runLoop now path buf offset
          inode.setDirty.remakeInode
        .ok ((buf.length : Int),
          (cache.set path inode.setDirty.remakeInode).written path state)) := by
  have here : cache.inCache path = true := by simp [inCache, mem_of_find found]
  have known : cache.getInodeByPath path = .ok inode := getInodeByPath_eq_ok.mpr found
  have again : (cache.set path inode.setDirty.remakeInode).getInodeByPath path
      = .ok inode.setDirty.remakeInode :=
    getInodeByPath_eq_ok.mpr (find_set_self (mem_of_find found))
  unfold writeCounted readyToWrite
  rw [here, if_pos rfl, known]
  simp only [bind, Except.bind]
  rw [if_neg (by decide), again]

end BlockCache

end ZippyFS
