import ZippyFS.Cache.WriteLoop

/-! The rounds of the block loop of `write`, read off its counters alone: which block index each
round uses and how many bytes it hands out.
-/

namespace ZippyFS

/-- The counters of a round of the block loop: the index of its block, and where its bytes start
in the buffer and how many they are.
-/
structure LoopRound where
  blockIdx : Nat
  currIdx : Nat
  blockSize : Nat

namespace BlockCache

variable {now : Clock} {cache : BlockCache} {path buf : Bytes} {inode : Inode} {state : Writing}
  {size offset numBlocks fuel blockIdx currIdx blockSize : Nat}

/-- The rounds of the loop, and `curr_idx + block_size` behind it. -/
def traceLoop (size numBlocks : Nat)
    : Nat → Nat → Nat → Nat → Except Fault (List LoopRound × Nat)
  | 0, _, _, _ => .error .diverges
  | fuel + 1, blockIdx, currIdx, blockSize =>
      if blockIdx < numBlocks then do
        let currIdx := currIdx + blockSize
        let blockSize := if size < currIdx + SIZE then size - currIdx else SIZE
        let (later, total) ←
          traceLoop size numBlocks fuel ((blockIdx + 1) % 2 ^ 32) currIdx blockSize
        .ok (⟨blockIdx, currIdx, blockSize⟩ :: later, total)
      else .ok ([], currIdx + blockSize)

/-- The rounds of the loop of a write of so many bytes. -/
def loopTrace (size offset : Nat) : Except Fault (List LoopRound × Nat) :=
  traceLoop size (Util.ulongCeil ((size + offset) % 2 ^ 64) SIZE) (2 ^ 32 + 1)
    (offset / SIZE % 2 ^ 32) 0 0

/-- The rounds carried out one after the other; the offset counts for the first one only. -/
def carryOut (now : Clock) (buf : Bytes) (alloc : Nat) : List LoopRound → Nat → Writing → Writing
  | [], _, state => state
  | round :: later, offsetAmt, state =>
      carryOut now buf alloc later 0
        (writeBlock now buf alloc round.blockIdx round.currIdx round.blockSize offsetAmt state)

/-- The loop carries out its rounds and checks the total, by induction on its fuel. -/
theorem writeLoop_eq_trace (alloc offsetAmt : Nat)
    : writeLoop now buf alloc numBlocks fuel blockIdx currIdx blockSize offsetAmt state
      = (do
        let (rounds, total) ← traceLoop buf.length numBlocks fuel blockIdx currIdx blockSize
        if total = buf.length then .ok (carryOut now buf alloc rounds offsetAmt state)
        else .error .assertion) := by
  induction fuel generalizing blockIdx currIdx blockSize offsetAmt state with
  | zero => rfl
  | succ fuel ih =>
      rw [writeLoop, traceLoop]
      split
      · dsimp only
        rw [ih]
        cases traceLoop buf.length numBlocks fuel ((blockIdx + 1) % 2 ^ 32) (currIdx + blockSize)
            (if buf.length < currIdx + blockSize + SIZE then buf.length - (currIdx + blockSize)
              else SIZE) with
        | error fault => rfl
        | ok traced => rfl
      · rfl

/-- The block loop of a write is its trace carried out. -/
theorem runLoop_eq_trace (now : Clock) (cache : BlockCache) (path buf : Bytes) (offset : Nat)
    (inode : Inode)
    : cache.runLoop now path buf offset inode
      = (do
        let (rounds, total) ← loopTrace buf.length offset
        if total = buf.length then
          .ok (carryOut now buf cache.allocs rounds
            (if offset < SIZE then offset else offset % SIZE)
            (startOf now cache path inode ((buf.length + offset) % 2 ^ 64)))
        else .error .assertion) :=
  writeLoop_eq_trace ..

/-- The loop runs once for each block from that of the offset to that of the last byte, no round
starts behind the buffer, and all bytes are handed out.
-/
def Accounts (size offset : Nat) : Prop :=
  ∃ rounds,
    loopTrace size offset = .ok (rounds, size)
    ∧ rounds.map LoopRound.blockIdx
      = List.range' (offset / SIZE) (Util.ulongCeil (size + offset) SIZE - offset / SIZE)
    ∧ ∀ round ∈ rounds, round.currIdx ≤ size

/-- A loop whose blocks can take the bytes that are left, by induction on its fuel. -/
theorem traceLoop_eq (small : numBlocks < 2 ^ 32) (started : blockIdx ≤ numBlocks)
    (enough : numBlocks - blockIdx < fuel) (handed : currIdx + blockSize ≤ size)
    (covered : size ≤ currIdx + blockSize + SIZE * (numBlocks - blockIdx))
    : ∃ rounds,
        traceLoop size numBlocks fuel blockIdx currIdx blockSize = .ok (rounds, size)
        ∧ rounds.map LoopRound.blockIdx = List.range' blockIdx (numBlocks - blockIdx)
        ∧ ∀ round ∈ rounds, round.currIdx ≤ size := by
  have width : SIZE = 4096 := rfl
  induction fuel generalizing blockIdx currIdx blockSize with
  | zero => omega
  | succ fuel ih =>
      rw [traceLoop]
      by_cases more : blockIdx < numBlocks
      · rw [if_pos more, Nat.mod_eq_of_lt (by omega)]
        dsimp only
        have share : currIdx + blockSize
            + (if size < currIdx + blockSize + SIZE then size - (currIdx + blockSize) else SIZE)
            = min (currIdx + blockSize + SIZE) size := by
          split <;> omega
        generalize (if size < currIdx + blockSize + SIZE then size - (currIdx + blockSize)
          else SIZE) = next at share ⊢
        rw [width] at covered share
        obtain ⟨rounds, traced, indices, within⟩ := @ih (blockIdx + 1) (currIdx + blockSize) next
          (by omega) (by omega) (by omega) (by rw [share, width]; omega)
        have one : numBlocks - blockIdx = numBlocks - (blockIdx + 1) + 1 := by omega
        refine ⟨⟨blockIdx, currIdx + blockSize, next⟩ :: rounds, ?_, ?_, ?_⟩
        · rw [traced]
          rfl
        · rw [List.map_cons, indices, one]
          rfl
        · intro round member
          rcases List.mem_cons.mp member with rfl | later
          · exact handed
          · exact within round later
      · have done : numBlocks - blockIdx = 0 := by omega
        rw [done] at covered ⊢
        exact ⟨[], by rw [if_neg more, show currIdx + blockSize = size by omega], rfl, by simp⟩

/-- The indices have 32 bits, by induction on the fuel. -/
theorem traceLoop_narrow {rounds : List LoopRound} {total : Nat} (narrow : blockIdx < 2 ^ 32)
    (traced : traceLoop size numBlocks fuel blockIdx currIdx blockSize = .ok (rounds, total))
    : ∀ round ∈ rounds, round.blockIdx < 2 ^ 32 := by
  induction fuel generalizing blockIdx currIdx blockSize rounds with
  | zero => cases traced
  | succ fuel ih =>
      rw [traceLoop] at traced
      split at traced
      · obtain ⟨⟨later, last⟩, rest, traced⟩ := bind_eq_ok.mp traced
        obtain ⟨rfl, rfl⟩ := Prod.mk.inj (Except.ok.inj traced)
        intro round member
        rcases List.mem_cons.mp member with rfl | inside
        · exact narrow
        · exact ih (Nat.mod_lt _ (Nat.two_pow_pos 32)) rest round inside
      · obtain ⟨rfl, rfl⟩ := Prod.mk.inj (Except.ok.inj traced)
        simp

/-- With 2^32 or more blocks the index never reaches their number, by induction on the fuel. -/
theorem traceLoop_diverges (many : 2 ^ 32 ≤ numBlocks) (narrow : blockIdx < 2 ^ 32)
    : traceLoop size numBlocks fuel blockIdx currIdx blockSize = .error .diverges := by
  induction fuel generalizing blockIdx currIdx blockSize with
  | zero => rfl
  | succ fuel ih =>
      rw [traceLoop, if_pos (by omega)]
      dsimp only
      rw [ih (Nat.mod_lt _ (Nat.two_pow_pos 32))]
      rfl

/-- A write behind the limit is not accounted for: its loop never leaves, or, if the sum of size
and offset wraps, it misses the last blocks.
-/
theorem not_accounts (narrow : size < 2 ^ 64) (nonneg : offset < 2 ^ 63)
    (behind : lastEnd < size + offset)
    : ¬ Accounts size offset := by
  have width : SIZE = 4096 := rfl
  have limit : lastEnd = 17592186040320 := rfl
  have first : offset / SIZE % 2 ^ 32 < 2 ^ 32 := Nat.mod_lt _ (Nat.two_pow_pos 32)
  have many : 2 ^ 32 ≤ Util.ulongCeil (size + offset) SIZE := by
    by_contra few
    have most := ((ulongCeil_spec (size + offset)).2 (2 ^ 32 - 1)).mp (by omega)
    exact absurd most (Nat.not_le_of_lt behind)
  rintro ⟨rounds, traced, indices, -⟩
  unfold loopTrace at traced
  by_cases wraps : size + offset < 2 ^ 64
  · rw [Nat.mod_eq_of_lt wraps, traceLoop_diverges many first] at traced
    cases traced
  · -- the last block of the range has an index of more than 32 bits
    have huge := ((ulongCeil_spec (size + offset)).2 (2 ^ 51)).not
    have far : 2 ^ 51 < Util.ulongCeil (size + offset) SIZE :=
      Nat.lt_of_not_le (huge.mpr (by omega))
    have ahead : offset / SIZE < 2 ^ 51 := by
      rw [width]
      omega
    have last : Util.ulongCeil (size + offset) SIZE - 1 ∈ rounds.map LoopRound.blockIdx := by
      rw [indices, List.mem_range'_1]
      omega
    obtain ⟨round, member, index⟩ := List.mem_map.mp last
    have small := traceLoop_narrow first traced round member
    omega

/-- The loop of a write accounts for every block and every byte exactly if the write ends at most
2^32 - 1 blocks behind the start of the file; and what the write does is its trace carried out.
-/
theorem accounts_iff (narrow : size < 2 ^ 64) (nonneg : offset < 2 ^ 63)
    : (Accounts size offset ↔ size + offset ≤ lastEnd)
      ∧ ∀ (now : Clock) (cache : BlockCache) (path buf : Bytes) (inode : Inode),
        buf.length = size
        → cache.runLoop now path buf offset inode
          = (do
            let (rounds, total) ← loopTrace size offset
            if total = size then
              .ok (carryOut now buf cache.allocs rounds
                (if offset < SIZE then offset else offset % SIZE)
                (startOf now cache path inode ((size + offset) % 2 ^ 64)))
            else .error .assertion) := by
  constructor
  · constructor
    · intro accounts
      by_contra behind
      exact not_accounts narrow nonneg (Nat.lt_of_not_le behind) accounts
    · intro fits
      have width : SIZE = 4096 := rfl
      have limit : lastEnd = 17592186040320 := rfl
      obtain ⟨covered, bound⟩ := ulongCeil_spec (size + offset)
      have small := (bound (2 ^ 32 - 1)).mpr fits
      have near : offset / SIZE < 2 ^ 32 := by
        rw [width]
        omega
      unfold Accounts loopTrace
      rw [Nat.mod_eq_of_lt (by omega), Nat.mod_eq_of_lt near]
      generalize Util.ulongCeil (size + offset) SIZE = numBlocks at *
      rw [width] at covered ⊢
      exact traceLoop_eq (by omega) (by omega) (by omega) (Nat.zero_le _) (by rw [width]; omega)
  · rintro now cache path buf inode rfl
    exact runLoop_eq_trace now cache path buf offset inode

/-- A write of 5000 bytes at offset 4000 runs through three blocks. -/
theorem accounts_three : Accounts 5000 4000 :=
  (accounts_iff (by decide) (by decide)).1.mpr (by decide)

/-- A write of one byte behind 2^32 - 1 blocks never returns. -/
theorem accounts_fails
    : (2 ^ 32 - 1) * SIZE < 2 ^ 63
      ∧ ¬ Accounts 1 ((2 ^ 32 - 1) * SIZE)
      ∧ loopTrace 1 ((2 ^ 32 - 1) * SIZE) = .error .diverges := by
  refine ⟨by decide, not_accounts (by decide) (by decide) (by decide), ?_⟩
  exact traceLoop_diverges (by decide) (Nat.mod_lt _ (Nat.two_pow_pos 32))

end BlockCache

end ZippyFS
