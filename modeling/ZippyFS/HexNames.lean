import ZippyFS.Util

/-! Names in hexadecimal: what the text that `binary_to_hex` leaves tells about the bytes it
was made from, and when its writes stay inside their buffer.
-/

namespace ZippyFS

open CellMemory

namespace Util

-----------------------------------------------------------------------------------------
-- What the texts should be
-----------------------------------------------------------------------------------------

/-- The two digits of a byte. -/
def digits (byte : UInt8) : Bytes := [hexDigit (byte / 16), hexDigit (byte % 16)]

/-- The uppercase hexadecimal digits of an array. -/
def hexDigits (binary : Bytes) : Bytes := binary.flatMap digits

/-- No write of the loop reaches behind the `2 * len + 1` characters of `hex`, whatever is
stored there.
-/
def StaysInside (binary : Bytes) : Prop :=
  ∀ (hex : Mem) (address : Nat), 2 * binary.length + 1 ≤ address
    → (hexLoop hex 0 binary).cell address = hex.cell address

/-- All bytes print as two digits, but for bytes 255 that are not among the last three. -/
def Plain (binary : Bytes) : Prop :=
  ∀ (ii : Nat) (inside : ii < binary.length),
    binary[ii] < 128 ∨ binary[ii] = 255 ∧ ii + 3 < binary.length

/-- What later bytes leave of the earlier ones: from 128 on they all look like 255. -/
def clamped : Bytes → Bytes
  | [] => []
  | [byte] => [byte]
  | byte :: next :: rest => (if byte < 128 then byte else 255) :: clamped (next :: rest)

/-- Two arrays that differ do so after clamping too. -/
def Told (left right : Bytes) : Prop := left ≠ right → clamped left ≠ clamped right

-----------------------------------------------------------------------------------------
-- Digits
-----------------------------------------------------------------------------------------

/-- A hexadecimal digit is told from the others. -/
theorem hexDigit_inj {left right : UInt8} (small : left < 16) (small' : right < 16)
    (same : hexDigit left = hexDigit right)
    : left = right := by
  rw [UInt8.lt_iff_toNat_lt] at small small'
  have bound : left.toNat < 16 := small
  have bound' : right.toNat < 16 := small'
  apply UInt8.toNat_inj.mp
  unfold hexDigit at same
  have codes := congrArg UInt8.toNat same
  split at codes <;> split at codes <;> rename_i low low'
    <;> rw [UInt8.lt_iff_toNat_lt] at low low' <;> simp at codes low low' <;> omega

/-- Both halves of a byte are digits. -/
theorem halves_lt (byte : UInt8) : byte / 16 < 16 ∧ byte % 16 < 16 := by
  have bound := byte.toNat_lt
  constructor <;> rw [UInt8.lt_iff_toNat_lt] <;> simp <;> omega

/-- A byte is told from its two digits. -/
theorem digits_inj {left right : UInt8} (same : digits left = digits right) : left = right := by
  unfold digits at same
  obtain ⟨high, low⟩ := List.cons.inj same
  have high := hexDigit_inj (halves_lt left).1 (halves_lt right).1 high
  have low := hexDigit_inj (halves_lt left).2 (halves_lt right).2 (List.cons.inj low).1
  have highs := congrArg UInt8.toNat high
  have lows := congrArg UInt8.toNat low
  apply UInt8.toNat_inj.mp
  simp at highs lows
  omega

theorem digits_clean (byte : UInt8) : (0 : UInt8) ∉ digits byte := by
  have high := hexDigit_ne_zero (halves_lt byte).1
  have low := hexDigit_ne_zero (halves_lt byte).2
  simp [digits, high.symm, low.symm]

/-- From 128 on six more characters are printed. -/
theorem sprintf02X_eq (byte : UInt8)
    : sprintf02X byte = if byte < 128 then digits byte else List.replicate 6 70 ++ digits byte :=
  rfl

theorem length_sprintf02X (byte : UInt8)
    : (sprintf02X byte).length = if byte < 128 then 2 else 8 := by
  rw [sprintf02X_eq]
  split <;> simp [digits]

theorem sprintf02X_clean (byte : UInt8) : (0 : UInt8) ∉ sprintf02X byte := by
  rw [sprintf02X_eq]
  split
  · exact digits_clean byte
  · simp [digits_clean byte]

/-- The first two characters printed for a byte are the digits of its clamped value. -/
theorem take_sprintf02X (byte : UInt8)
    : (sprintf02X byte).take 2 = digits (if byte < 128 then byte else 255) := by
  rw [sprintf02X_eq]
  split
  · rfl
  · exact (by decide : ([70, 70] : Bytes) = digits 255)

/-- The printed byte is told from what is printed. -/
theorem sprintf02X_inj {left right : UInt8} (same : sprintf02X left = sprintf02X right)
    : left = right := by
  have lengths := congrArg List.length same
  rw [length_sprintf02X, length_sprintf02X] at lengths
  rw [sprintf02X_eq, sprintf02X_eq] at same
  by_cases low : left < 128 <;> by_cases low' : right < 128
  · rw [if_pos low, if_pos low'] at same
    exact digits_inj same
  · simp [low, low'] at lengths
  · simp [low, low'] at lengths
  · rw [if_neg low, if_neg low'] at same
    exact digits_inj (List.append_cancel_left same)

-----------------------------------------------------------------------------------------
-- The text
-----------------------------------------------------------------------------------------

/-- The text that `binary_to_hex` leaves. -/
def shown : Bytes → Bytes
  | [] => []
  | [byte] => sprintf02X byte
  | byte :: next :: rest => (sprintf02X byte).take 2 ++ shown (next :: rest)

/-- The text is at most six characters too long. -/
theorem length_shown (binary : Bytes)
    : 2 * binary.length ≤ (shown binary).length
      ∧ (shown binary).length ≤ 2 * binary.length + 6 := by
  fun_induction shown binary with
  | case1 => simp
  | case2 byte =>
      rw [length_sprintf02X]
      split <;> simp
  | case3 byte next rest ih =>
      rw [List.length_append, take_sprintf02X]
      simp only [digits, List.length_cons, List.length_nil] at ih ⊢
      omega

theorem shown_clean (binary : Bytes) : (0 : UInt8) ∉ shown binary := by
  fun_induction shown binary with
  | case1 => simp
  | case2 byte => exact sprintf02X_clean byte
  | case3 byte next rest ih =>
      rw [take_sprintf02X, List.mem_append]
      exact fun either => either.elim (digits_clean _) ih

/-- A read in two parts. -/
theorem readBytes_add (mem : Mem) (start first second : Nat)
    : mem.readBytes start (first + second)
      = mem.readBytes start first ++ mem.readBytes (start + first) second := by
  unfold Mem.readBytes Mem.read
  rw [List.range_add]
  simp [Nat.add_assoc]

/-- The start of what was written. -/
theorem readBytes_writeBytes_prefix (mem : Mem) (start : Nat) (bytes : Bytes) {count : Nat}
    (short : count ≤ bytes.length)
    : (mem.writeBytes start bytes).readBytes start count = bytes.take count := by
  have whole := Mem.readBytes_writeBytes_same mem start bytes
  rw [← Nat.add_sub_cancel' short, readBytes_add] at whole
  have front := congrArg (List.take count) whole
  rwa [List.take_left' (by simp [Mem.readBytes])] at front

/-- The loop leaves the text and a terminator, by induction on the bytes: of what a byte
prints, the next one overwrites all but two characters.
-/
theorem hexLoop_shown (hex : Mem) (position : Nat) {binary : Bytes} (nonempty : binary ≠ [])
    : (hexLoop hex position binary).readBytes position ((shown binary).length + 1)
      = shown binary ++ [0] := by
  fun_induction shown binary generalizing hex position with
  | case1 => exact absurd rfl nonempty
  | case2 byte =>
      have back := Mem.readBytes_writeBytes_same hex position (sprintf02X byte ++ [0])
      rwa [List.length_append] at back
  | case3 byte next rest ih =>
      have two : ((sprintf02X byte).take 2).length = 2 := by
        rw [take_sprintf02X]
        rfl
      rw [List.length_append, two, Nat.add_assoc, readBytes_add, hexLoop,
        ih _ _ (by simp), List.append_assoc]
      congr 1
      have fits : 2 ≤ (sprintf02X byte ++ [0]).length := by
        rw [List.length_append, length_sprintf02X]
        split <;> simp
      have whole : 2 ≤ (sprintf02X byte).length := by
        rw [length_sprintf02X]
        split <;> simp
      have taken : (sprintf02X byte ++ [0]).take 2 = (sprintf02X byte).take 2 :=
        List.take_append_of_le_length whole
      rw [← taken, ← readBytes_writeBytes_prefix hex position _ fits]
      unfold Mem.readBytes
      rw [Mem.read_congr fun address _ before => hexLoop_before _ _ _ before]

/-- A terminated string is read up to its terminator. -/
theorem cString_eq {mem : Mem} {text : Bytes} {limit : Nat} (clean : (0 : UInt8) ∉ text)
    (there : mem.readBytes 0 (text.length + 1) = text ++ [0]) (short : text.length < limit)
    : mem.cString 0 limit = text := by
  unfold Mem.cString
  have all : ∀ byte ∈ text, decide (byte ≠ 0) = true := by
    rintro byte member
    simp only [decide_eq_true_eq]
    rintro rfl
    exact clean member
  rw [← Nat.add_sub_cancel' (Nat.succ_le_of_lt short), readBytes_add, there, List.append_assoc,
    List.takeWhile_append_of_pos all]
  simp

/-- `binary_to_hex` returns the text. -/
theorem binaryToHex_eq (binary : Bytes) : binaryToHex binary = shown binary := by
  unfold binaryToHex
  have short := (length_shown binary).2
  refine cString_eq (shown_clean binary) ?_ (by omega)
  cases binary with
  | nil => decide
  | cons byte rest => exact hexLoop_shown Mem.zero 0 (by simp)

/-- `generate_rand_hex_name` makes its name in the same way. -/
theorem generateRandHexName_eq (num : Vector UInt8 16)
    : generateRandHexName num = binaryToHex num.toList := by
  unfold generateRandHexName binaryToHex
  rw [Vector.length_toList]

-----------------------------------------------------------------------------------------
-- What the text tells
-----------------------------------------------------------------------------------------

/-- Texts of equally long arrays agree exactly if the clamped arrays do, by induction on both. -/
theorem shown_eq_iff {left right : Bytes} (lengths : left.length = right.length)
    : shown left = shown right ↔ clamped left = clamped right := by
  fun_induction shown left generalizing right with
  | case1 =>
      obtain rfl := List.length_eq_zero_iff.mp lengths.symm
      exact iff_of_true rfl rfl
  | case2 byte =>
      obtain ⟨other, rfl⟩ := List.length_eq_one_iff.mp lengths.symm
      rw [shown, clamped, clamped, List.cons.injEq]
      exact ⟨fun same => ⟨sprintf02X_inj same, rfl⟩, fun same => by rw [same.1]⟩
  | case3 byte next rest ih =>
      obtain ⟨other, other', rest', rfl⟩
          : ∃ other other' rest', right = other :: other' :: rest' := by
        match right, lengths with
        | other :: other' :: rest', _ => exact ⟨_, _, _, rfl⟩
      have lengths' : (next :: rest).length = (other' :: rest').length := Nat.succ.inj lengths
      have parts := ih lengths'
      rw [shown, clamped, clamped, take_sprintf02X, take_sprintf02X, List.cons.injEq]
      constructor
      · intro same
        obtain ⟨head, tail⟩ := List.append_inj same rfl
        exact ⟨digits_inj head, parts.mp tail⟩
      · rintro ⟨head, tail⟩
        rw [head, parts.mpr tail]

/-- A property of all positions of a longer list. -/
theorem forall_cons_iff {P : UInt8 → Nat → Prop} (head : UInt8) (tail : Bytes)
    : (∀ (ii : Nat) (inside : ii < (head :: tail).length), P (head :: tail)[ii] ii)
      ↔ P head 0 ∧ ∀ (ii : Nat) (inside : ii < tail.length), P tail[ii] (ii + 1) := by
  constructor
  · intro all
    exact ⟨all 0 (Nat.succ_pos _), fun ii inside => all (ii + 1) (Nat.succ_lt_succ inside)⟩
  · rintro ⟨first, others⟩ ii inside
    cases ii with
    | zero => exact first
    | succ ii => exact others ii (Nat.lt_of_succ_lt_succ inside)

/-- The text is right exactly if the last byte prints as two digits and all others either do
or begin with the two digits they should have.
-/
theorem shown_eq_hexDigits_iff (binary : Bytes)
    : shown binary = hexDigits binary
      ↔ ∀ (ii : Nat) (inside : ii < binary.length),
        binary[ii] < 128 ∨ binary[ii] = 255 ∧ ii + 1 < binary.length := by
  fun_induction shown binary with
  | case1 => simp [hexDigits]
  | case2 byte =>
      have single : hexDigits [byte] = digits byte := List.append_nil _
      rw [single, forall_cons_iff (P := fun value ii => value < 128 ∨ value = 255
        ∧ ii + 1 < [byte].length)]
      constructor
      · intro right
        have lengths := congrArg List.length right
        rw [length_sprintf02X] at lengths
        refine ⟨Or.inl ?_, by simp⟩
        by_contra high
        simp [high, digits] at lengths
      · rintro ⟨low | ⟨-, late⟩, -⟩
        · rw [sprintf02X_eq, if_pos low]
        · exact absurd late (by simp)
  | case3 byte next rest ih =>
      have split : hexDigits (byte :: next :: rest) = digits byte ++ hexDigits (next :: rest) := rfl
      rw [split, take_sprintf02X,
        forall_cons_iff (P := fun value ii => value < 128 ∨ value = 255
          ∧ ii + 1 < (byte :: next :: rest).length)]
      have others : (∀ (ii : Nat) (inside : ii < (next :: rest).length),
            (next :: rest)[ii] < 128
              ∨ (next :: rest)[ii] = 255 ∧ ii + 1 + 1 < (byte :: next :: rest).length)
          ↔ shown (next :: rest) = hexDigits (next :: rest) := by
        rw [ih]
        simp only [List.length_cons, Nat.succ_lt_succ_iff]
      rw [others]
      constructor
      · intro right
        obtain ⟨head, tail⟩ := List.append_inj right rfl
        refine ⟨?_, tail⟩
        have value := digits_inj head
        by_cases low : byte < 128
        · exact Or.inl low
        · rw [if_neg low] at value
          exact Or.inr ⟨value.symm, by simp⟩
      · rintro ⟨low | ⟨full, -⟩, tail⟩
        · rw [if_pos low, tail]
        · rw [full, tail]
          rfl

-----------------------------------------------------------------------------------------
-- The buffer
-----------------------------------------------------------------------------------------

/-- A cell that holds a byte goes on doing so, by induction on the bytes printed. -/
theorem hexLoop_keepsByte (hex : Mem) (position : Nat) (binary : Bytes) {address : Nat}
    (held : ∃ value, hex.cell address = .byte value)
    : ∃ value, (hexLoop hex position binary).cell address = .byte value := by
  induction binary generalizing hex position with
  | nil => exact held
  | cons byte rest ih =>
      apply ih
      by_cases inside
          : position ≤ address ∧ address - position < (sprintf02X byte ++ [0]).length
      · obtain ⟨index, rfl⟩ := Nat.exists_eq_add_of_le inside.1
        rw [Nat.add_sub_cancel_left] at inside
        refine ⟨(sprintf02X byte ++ [0]).get ⟨index, inside.2⟩, ?_⟩
        unfold Mem.writeBytes
        rw [Mem.write_inside _ _ _ _ (by simpa using inside.2), List.getElem_map,
          List.get_eq_getElem]
      · unfold Mem.writeBytes
        rw [Mem.write_outside _ _ _ _ (by rw [List.length_map]; omega)]
        exact held

/-- Every character printed for a byte is stored, and its terminator too, by induction on the
position of the byte.
-/
theorem hexLoop_stores (hex : Mem) (position : Nat) {binary : Bytes} {ii offset : Nat}
    (inside : ii < binary.length) (printed : offset ≤ (sprintf02X binary[ii]).length)
    : ∃ value, (hexLoop hex position binary).cell (position + 2 * ii + offset) = .byte value := by
  induction binary generalizing hex position ii with
  | nil => exact absurd inside (Nat.not_lt_zero _)
  | cons byte rest ih =>
      cases ii with
      | zero =>
          rw [hexLoop]
          apply hexLoop_keepsByte
          rw [List.getElem_cons_zero] at printed
          have here : offset < (sprintf02X byte ++ [0]).length := by
            rw [List.length_append]
            exact Nat.lt_succ_of_le printed
          refine ⟨(sprintf02X byte ++ [0]).get ⟨offset, here⟩, ?_⟩
          rw [Nat.mul_zero, Nat.add_zero, Mem.writeBytes,
            Mem.write_inside _ _ _ _ (by simpa using here), List.getElem_map]
          rfl
      | succ ii =>
          have later := ih (hex.writeBytes position (sprintf02X byte ++ [0])) (position + 2)
            (Nat.lt_of_succ_lt_succ inside) printed
          rwa [show position + 2 + 2 * ii = position + 2 * (ii + 1) by omega] at later

/-- Long prints before the last three bytes stay inside, by induction on the bytes. -/
theorem hexLoop_after (hex : Mem) (position : Nat) {binary : Bytes} {address : Nat}
    (fits : ∀ (ii : Nat) (inside : ii < binary.length),
      binary[ii] < 128 ∨ ii + 3 < binary.length)
    (after : position + 2 * binary.length + 1 ≤ address)
    : (hexLoop hex position binary).cell address = hex.cell address := by
  induction binary generalizing hex position with
  | nil => rfl
  | cons byte rest ih =>
      rw [forall_cons_iff (P := fun value ii => value < 128 ∨ ii + 3 < (byte :: rest).length)]
        at fits
      obtain ⟨first, others⟩ := fits
      rw [List.length_cons] at first after
      rw [hexLoop, ih _ _ (fun ii inside => (others ii inside).imp_right fun early => by
        rw [List.length_cons] at early
        omega) (by omega)]
      apply Mem.write_outside
      right
      rw [List.length_map, List.length_append, length_sprintf02X, List.length_singleton]
      rcases first with low | early
      · rw [if_pos low]
        omega
      · split <;> omega

/-- The buffer is respected exactly if none of the last three bytes prints long. -/
theorem staysInside_iff (binary : Bytes)
    : StaysInside binary
      ↔ ∀ (ii : Nat) (inside : ii < binary.length),
        binary[ii] < 128 ∨ ii + 3 < binary.length := by
  constructor
  · intro stays ii inside
    by_contra either
    have late := not_or.mp either
    have long : (sprintf02X binary[ii]).length = 8 := by
      rw [length_sprintf02X, if_neg late.1]
    obtain ⟨value, stored⟩ := hexLoop_stores ⟨fun _ => .rest⟩ 0 inside (Nat.le_of_eq long.symm)
    rw [stays _ _ (by omega)] at stored
    exact nomatch stored
  · intro fits hex address after
    exact hexLoop_after hex 0 fits (by omega)

/-- Writes stay inside and the digits are right exactly for plain arrays. -/
theorem exact_iff_plain (binary : Bytes)
    : StaysInside binary ∧ binaryToHex binary = hexDigits binary ↔ Plain binary := by
  rw [staysInside_iff, binaryToHex_eq, shown_eq_hexDigits_iff]
  constructor
  · rintro ⟨inside, right⟩ ii bound
    rcases inside ii bound with low | early
    · exact Or.inl low
    · exact (right ii bound).imp_right fun full => ⟨full.1, early⟩
  · intro plain
    refine ⟨fun ii bound => (plain ii bound).imp_right And.right, fun ii bound => ?_⟩
    exact (plain ii bound).imp_right fun full => ⟨full.1, by omega⟩

/-- Texts of equally long arrays tell the arrays apart exactly if clamping does. -/
theorem told_iff {left right : Bytes} (lengths : left.length = right.length)
    : (left ≠ right → binaryToHex left ≠ binaryToHex right) ↔ Told left right := by
  rw [binaryToHex_eq, binaryToHex_eq, Ne, Ne, shown_eq_iff lengths]
  rfl

-----------------------------------------------------------------------------------------
-- The names
-----------------------------------------------------------------------------------------

/-- The bytes that `crypto_hash` hands to `crypto_generichash`. -/
def hashed (content : Bytes) : Bytes :=
  let copied := content.takeWhile (· ≠ 0)
  copied ++ List.replicate (content.length - copied.length) 0

/-- The digest behind the identifier of a path. -/
def digest (env : Env) (path : Bytes) : Bytes := (env.generichash (hashed path)).toList

/-- `binary_to_hex` prints exactly the digits inside its buffer for plain arrays only, and its
texts, the identifiers of paths and the names of trees tell their bytes apart exactly if the
bytes from 128 on that are not the last may all be read as 255.
-/
theorem hex_exact_iff (env : Env)
    : (∀ binary : Bytes,
        StaysInside binary ∧ binaryToHex binary = hexDigits binary ↔ Plain binary)
      ∧ (∀ left right : Bytes, left.length = right.length
        → ((left ≠ right → binaryToHex left ≠ binaryToHex right) ↔ Told left right))
      ∧ (∀ path path' : Bytes,
        (digest env path ≠ digest env path' → cryptoHash env path ≠ cryptoHash env path')
          ↔ Told (digest env path) (digest env path'))
      ∧ ∀ num num' : Vector UInt8 16,
        (num ≠ num' → generateRandHexName num ≠ generateRandHexName num')
          ↔ Told num.toList num'.toList := by
  refine ⟨exact_iff_plain, fun left right lengths => told_iff lengths, fun path path' => ?_,
    fun num num' => ?_⟩
  · exact told_iff (by rw [digest, digest, Vector.length_toList, Vector.length_toList])
  · rw [generateRandHexName_eq, generateRandHexName_eq,
      ← told_iff (by rw [Vector.length_toList, Vector.length_toList]), Ne, ← Vector.toList_inj]

/-- Two small bytes print as they should. -/
theorem hex_exact_small
    : StaysInside [18, 127] ∧ binaryToHex [18, 127] = hexDigits [18, 127] :=
  ((hex_exact_iff twoDigests).1 [18, 127]).mpr (by unfold Plain; decide)

/-- Four bytes that begin with 128 print as others do, and neither text is right; one byte 128
alone leaves the buffer.
-/
theorem hex_inexact
    : ¬ (∀ binary : Bytes, StaysInside binary ∧ binaryToHex binary = hexDigits binary)
      ∧ binaryToHex [128, 0, 0, 0] = binaryToHex [129, 0, 0, 0]
      ∧ binaryToHex [128, 0, 0, 0] ≠ hexDigits [128, 0, 0, 0]
      ∧ ¬ StaysInside [128] := by
  have early : binaryToHex [128, 0, 0, 0] = [70, 70, 48, 48, 48, 48, 48, 48] := by decide +kernel
  have other : binaryToHex [129, 0, 0, 0] = [70, 70, 48, 48, 48, 48, 48, 48] := by decide +kernel
  have wrong : binaryToHex [128, 0, 0, 0] ≠ hexDigits [128, 0, 0, 0] := by
    rw [early]
    decide
  refine ⟨fun all => wrong (all _).2, early.trans other.symm, wrong, fun inside => ?_⟩
  rcases (staysInside_iff _).mp inside 0 (by decide) with low | near
  · exact absurd low (by decide)
  · exact absurd near (by decide)

end Util

end ZippyFS
