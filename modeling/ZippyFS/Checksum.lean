import Mathlib.Logic.ExistsUnique
import ZippyFS.Util

/-! The checksum of an index file, and the substitutions it detects.

A round is two-to-one: it forgets whether its word was complemented. Two words that are
neither equal nor complements stay so, because a round also clears the highest bit.
-/

namespace ZippyFS.Util

/-- `special_bits`. -/
def specialBits : BitVec 64 := 0xDEADBEEFABCD1234

/-- The body of the inner loop of `crc64`. -/
def crcRound (crc : BitVec 64) : BitVec 64 :=
  let mask := -(crc &&& 1) ^^^ specialBits
  (crc ^^^ mask) >>> 1

/-- The inner loop of `crc64`. -/
def crcRounds : Nat → BitVec 64 → BitVec 64
  | 0, crc => crc
  | rounds + 1, crc => crcRounds rounds (crcRound crc)

/-- The body of the outer loop of `crc64`. -/
def crcByte (crc : BitVec 64) (byte : UInt8) : BitVec 64 :=
  crcRounds 7 (crc ^^^ byte.toBitVec.setWidth 64)

/-- Neither equal nor complements. -/
def Apart (left right : BitVec 64) : Prop :=
  left ≠ right ∧ left ≠ ~~~right

-----------------------------------------------------------------------------------------
-- Rounds
-----------------------------------------------------------------------------------------

/-- The mask's first part repeats the lowest bit. -/
theorem neg_lowBit (crc : BitVec 64) {position : Nat} (inside : position < 64)
    : (-(crc &&& 1)).getLsbD position = crc.getLsbD 0 := by
  have low : crc &&& 1 = BitVec.setWidth 64 (BitVec.ofBool (crc.getLsbD 0)) :=
    BitVec.and_one_eq_setWidth_ofBool_getLsbD
  rw [low]
  cases crc.getLsbD 0 with
  | false => simp
  | true =>
      have ones : -BitVec.setWidth 64 (BitVec.ofBool true) = BitVec.allOnes 64 := by decide
      rw [ones, BitVec.getLsbD_allOnes, decide_eq_true inside]

/-- Each bit of a round comes from the bit above it, the lowest bit and the mask. -/
theorem crcRound_bit (crc : BitVec 64) {position : Nat} (inside : position + 1 < 64)
    : (crcRound crc).getLsbD position
        = ((crc.getLsbD (position + 1) ^^ crc.getLsbD 0)
            ^^ specialBits.getLsbD (position + 1)) := by
  simp only [crcRound, BitVec.getLsbD_ushiftRight, BitVec.getLsbD_xor]
  rw [Nat.add_comm 1 position, neg_lowBit crc inside, Bool.xor_assoc]

/-- A round clears the highest bit. -/
theorem crcRound_top (crc : BitVec 64) : (crcRound crc).getLsbD 63 = false := by
  simp [crcRound]

/-- A round gives one result exactly for a word and its complement. -/
theorem crcRound_eq_iff (left right : BitVec 64)
    : crcRound left = crcRound right ↔ left = right ∨ left = ~~~right := by
  constructor
  · intro same
    have above : ∀ position, position + 1 < 64 →
        (left.getLsbD (position + 1) ^^ right.getLsbD (position + 1))
          = (left.getLsbD 0 ^^ right.getLsbD 0) := by
      intro position inside
      have bits := congrArg (fun crc => crc.getLsbD position) same
      simp only [crcRound_bit _ inside] at bits
      revert bits
      cases left.getLsbD (position + 1) <;> cases right.getLsbD (position + 1)
        <;> cases left.getLsbD 0 <;> cases right.getLsbD 0 <;> simp
    have everywhere : ∀ position, position < 64 →
        (left.getLsbD position ^^ right.getLsbD position)
          = (left.getLsbD 0 ^^ right.getLsbD 0) := by
      intro position inside
      cases position with
      | zero => rfl
      | succ position => exact above position inside
    cases low : (left.getLsbD 0 ^^ right.getLsbD 0) with
    | false =>
        refine Or.inl (BitVec.eq_of_getLsbD_eq fun position inside => ?_)
        exact bne_eq_false_iff_eq.mp ((everywhere position inside).trans low)
    | true =>
        refine Or.inr (BitVec.eq_of_getLsbD_eq fun position inside => ?_)
        have differ := everywhere position inside
        rw [low] at differ
        rw [BitVec.getLsbD_not, decide_eq_true inside, Bool.true_and]
        revert differ
        cases left.getLsbD position <;> cases right.getLsbD position <;> simp
  · rintro (rfl | rfl)
    · rfl
    · refine BitVec.eq_of_getLsbD_eq fun position inside => ?_
      by_cases next : position + 1 < 64
      · simp only [crcRound_bit _ next, BitVec.getLsbD_not, decide_eq_true next,
          show decide (0 < 64) = true from rfl, Bool.true_and]
        simp
      · have top : position = 63 := by omega
        rw [top, crcRound_top, crcRound_top]

/-- A round keeps two words apart. -/
theorem Apart.round {left right : BitVec 64} (apart : Apart left right)
    : Apart (crcRound left) (crcRound right) := by
  constructor
  · intro same
    rcases (crcRound_eq_iff left right).mp same with equal | complement
    · exact apart.1 equal
    · exact apart.2 complement
  · intro complement
    have top := congrArg (fun crc => crc.getLsbD 63) complement
    simp only [BitVec.getLsbD_not, crcRound_top] at top
    exact absurd top (by decide)

/-- Rounds keep two words apart, by induction on their number. -/
theorem Apart.rounds {left right : BitVec 64} (apart : Apart left right) (rounds : Nat)
    : Apart (crcRounds rounds left) (crcRounds rounds right) := by
  induction rounds generalizing left right with
  | zero => exact apart
  | succ rounds ih => exact ih apart.round

-----------------------------------------------------------------------------------------
-- Messages
-----------------------------------------------------------------------------------------

/-- A common byte keeps two words apart. -/
theorem Apart.byte {left right : BitVec 64} (apart : Apart left right) (byte : UInt8)
    : Apart (crcByte left byte) (crcByte right byte) := by
  refine Apart.rounds ⟨?_, ?_⟩ 7
  · intro same
    exact apart.1 ((BitVec.xor_left_inj _).mp same)
  · intro complement
    rw [BitVec.not_xor_left] at complement
    exact apart.2 ((BitVec.xor_left_inj _).mp complement)

/-- A common rest of two messages keeps two words apart, by induction on it. -/
theorem Apart.bytes {left right : BitVec 64} (apart : Apart left right) (rest : Bytes)
    : Apart (rest.foldl crcByte left) (rest.foldl crcByte right) := by
  induction rest generalizing left right with
  | nil => exact apart
  | cons byte rest ih => exact ih (apart.byte byte)

end ZippyFS.Util
