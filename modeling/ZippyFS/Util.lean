import Mathlib.Algebra.GroupWithZero.Nat
import Mathlib.Data.Vector.Basic
import ZippyFS.Lib.CellMemory

/-! Shared helpers: the outside world the program runs in, run-time faults, the clock, and
the names derived from hashes.
-/

namespace ZippyFS

open CellMemory

/-- File names, identifiers and file contents are byte strings. -/
abbrev Bytes := List UInt8

/-- What the program takes from outside its own sources: libsodium's `crypto_generichash`
with its default output length and no key, and whatever bytes lie in memory behind a
block's array.
-/
structure Env where
  generichash : Bytes → Vector UInt8 32
  beyond : Nat → UInt8

/-- The ways in which a call can fail to return. -/
inductive Fault where
  /-- `domain_error` of `TireFire::get_offset`. -/
  | unknownTire
  /-- `domain_error` of `BPLUSIndex::find_node_to_store`. -/
  | emptyTree
  /-- `domain_error` of the loader's descent. -/
  | willNotTerminate
  /-- A loop that never leaves. -/
  | diverges
  /-- `domain_error` of `BlockCache::get_refs`. -/
  | notHere
  /-- A dereferenced end iterator. -/
  | nullDeref
  /-- A dereferenced null inode. -/
  | nullInode
  /-- A read through a mapping that was already unmapped. -/
  | unmapped
  /-- A failed `assert`. -/
  | assertion
  deriving DecidableEq, Repr

/-- A computation that went on returned something before. -/
theorem bind_eq_ok {α β : Type} {first : Except Fault α} {rest : α → Except Fault β}
    {result : β}
    : first >>= rest = .ok result ↔ ∃ middle, first = .ok middle ∧ rest middle = .ok result := by
  cases first with
  | error fault => simp [bind, Except.bind]
  | ok middle => simp [bind, Except.bind]

/-- One reading of the system clock, in nanoseconds. Clocks show times after 1970. -/
structure Clock where
  nanoseconds : Nat
  started : 1000000 ≤ nanoseconds

/-- The clock after a number of whole milliseconds. -/
def Clock.at_ (millisec : Nat) : Clock := ⟨(millisec + 1) * 1000000, by omega⟩

/-- `struct timespec`. -/
structure Timespec where
  sec : Nat
  nsec : Nat
  deriving DecidableEq, Repr

namespace Util

/-- A number that is returned as an `int`. -/
@[irreducible] def toInt (value : Int) : Int := value.bmod (2 ^ 32)

/-- Milliseconds since 1970. -/
def getTime (now : Clock) : Nat :=
  now.nanoseconds / 1000000

/-- A time in milliseconds as a `timespec`. -/
def getTimeTs (millisec : Nat) : Timespec :=
  ⟨millisec / 1000, (millisec % 1000) * 1000000⟩

/-- `ceil(a / b)`. -/
def ulongCeil (a b : Nat) : Nat :=
  if a % b = 0 then a / b else a / b + 1

/-- An uppercase hexadecimal digit. -/
def hexDigit (value : UInt8) : UInt8 :=
  if value < 10 then 48 + value else 55 + value

/-- The digits that `sprintf` prints for `"%02X"` and a `char`. The `char` is signed and
promoted to `int`, so a byte from 128 on prints as eight digits.
-/
def sprintf02X (byte : UInt8) : Bytes :=
  if byte < 128 then [hexDigit (byte / 16), hexDigit (byte % 16)]
  else List.replicate 6 70 ++ [hexDigit (byte / 16), hexDigit (byte % 16)]

/-- The writes of the loop in `binary_to_hex`: each byte is printed two characters behind
the previous one, with a terminator that the next byte overwrites.
-/
def hexLoop (hex : Mem) (position : Nat) : Bytes → Mem
  | [] => hex
  | byte :: rest => hexLoop (hex.writeBytes position (sprintf02X byte ++ [0])) (position + 2) rest

/-- Bytes as text. The text ends at its first terminator, at most six characters behind
the two characters of each byte.
-/
def binaryToHex (binary : Bytes) : Bytes :=
  (hexLoop Mem.zero 0 binary).cString 0 (2 * binary.length + 7)

/-- `generate_rand_hex_name`: the name of a tree made of 16 random bytes. -/
def generateRandHexName (num : Vector UInt8 16) : Bytes :=
  (hexLoop Mem.zero 0 num.toList).cString 0 (2 * 16 + 7)

/-- The identifier of a path: `strcpy` stops at a terminator and leaves zeros behind it. -/
def cryptoHash (env : Env) (content : Bytes) : Bytes :=
  let copied := content.takeWhile (· ≠ 0)
  let ccontent := copied ++ List.replicate (content.length - copied.length) 0
  binaryToHex (env.generichash ccontent).toList

/-- The digests of `/a` and of `/b`, enough for a world with two files. -/
def twoDigests : Env where
  generichash := fun content =>
    if content = [47, 97] then
      ⟨#[112, 97, 140, 43, 74, 79, 130, 51, 152, 188, 248, 117, 116, 119, 202, 65, 147, 92, 92,
        215, 168, 8, 220, 22, 4, 23, 246, 85, 130, 141, 126, 15], rfl⟩
    else if content = [47, 98] then
      ⟨#[116, 20, 110, 138, 217, 140, 244, 25, 140, 18, 221, 45, 177, 232, 217, 205, 246, 110,
        141, 175, 38, 44, 125, 115, 146, 105, 184, 25, 225, 89, 156, 203], rfl⟩
    else Vector.replicate 32 0
  beyond := fun _ => 0

/-- Numbers in the range of an `int` are returned as they are. -/
theorem toInt_of_lt {value : Int} (low : -(2 ^ 31) ≤ value) (high : value < 2 ^ 31)
    : toInt value = value := by
  unfold toInt
  exact Int.bmod_eq_of_le (by omega) (by omega)

/-- Clock readings are positive in milliseconds. -/
theorem getTime_pos (now : Clock) : 0 < getTime now :=
  Nat.div_pos now.started (by decide)

/-- Hexadecimal digits are characters, never terminators. -/
theorem hexDigit_ne_zero {value : UInt8} (digit : value < 16) : hexDigit value ≠ 0 := by
  rw [UInt8.lt_iff_toNat_lt] at digit
  have bound : value.toNat < 16 := digit
  unfold hexDigit
  intro zero
  have sum := congrArg UInt8.toNat zero
  split at sum <;> simp at sum <;> omega

/-- What is printed for a byte starts with a digit. -/
theorem sprintf02X_ne_nil (byte : UInt8)
    : ∃ first rest, sprintf02X byte = first :: rest ∧ first ≠ 0 := by
  unfold sprintf02X
  split
  · refine ⟨_, _, rfl, hexDigit_ne_zero ?_⟩
    rw [UInt8.lt_iff_toNat_lt, UInt8.toNat_div]
    have bound := byte.toNat_lt
    simp
    omega
  · exact ⟨70, _, rfl, by decide⟩

/-- Later bytes leave the characters before their position alone, by induction on them. -/
theorem hexLoop_before (hex : Mem) (position : Nat) (binary : Bytes) {address : Nat}
    (before : address < position)
    : (hexLoop hex position binary).cell address = hex.cell address := by
  induction binary generalizing hex position with
  | nil => rfl
  | cons byte rest ih =>
      rw [hexLoop, ih _ _ (by omega)]
      exact Mem.write_outside _ _ _ _ (Or.inl before)

/-- A hash of at least one byte gives an identifier of 1 to 127 characters. -/
theorem binaryToHex_length {binary : Bytes} (nonempty : binary ≠ [])
    (short : binary.length ≤ 60)
    : 1 ≤ (binaryToHex binary).length ∧ (binaryToHex binary).length ≤ 127 := by
  constructor
  · obtain ⟨byte, rest, rfl⟩ := List.exists_cons_of_ne_nil nonempty
    obtain ⟨first, others, digits, notZero⟩ := sprintf02X_ne_nil byte
    have start : (hexLoop Mem.zero 0 (byte :: rest)).cell 0 = .byte first := by
      rw [hexLoop, hexLoop_before _ _ _ (by omega), digits]
      simp [Mem.writeBytes, Mem.write]
    unfold binaryToHex Mem.cString Mem.readBytes Mem.read
    rw [List.range_eq_range', List.range'_eq_cons_iff.mpr ⟨rfl, by omega, rfl⟩]
    simp [start, Cell.toByte, notZero]
  · have bound := (List.takeWhile_prefix (fun byte : UInt8 => decide (byte ≠ 0))
      (l := (hexLoop Mem.zero 0 binary).readBytes 0 (2 * binary.length + 7))).length_le
    have size : ((hexLoop Mem.zero 0 binary).readBytes 0 (2 * binary.length + 7)).length
        = 2 * binary.length + 7 := by simp [Mem.readBytes]
    unfold binaryToHex Mem.cString
    omega

/-- Identifiers of paths fit the slots of an index file. -/
theorem cryptoHash_length (env : Env) (content : Bytes)
    : 1 ≤ (cryptoHash env content).length ∧ (cryptoHash env content).length ≤ 127 := by
  refine binaryToHex_length ?_ ?_
  · exact List.ne_nil_of_length_eq_add_one (n := 31) (Vector.length_toList)
  · rw [Vector.length_toList]
    decide

/-- Identifiers contain no terminator. -/
theorem cString_clean (mem : Mem) (start limit : Nat) : (0 : UInt8) ∉ mem.cString start limit := by
  intro member
  have all := List.all_takeWhile (p := fun byte : UInt8 => decide (byte ≠ 0))
    (l := mem.readBytes start limit)
  have clean := List.all_eq_true.mp all 0 member
  simp at clean

/-- Identifiers of paths contain no terminator. -/
theorem cryptoHash_clean (env : Env) (content : Bytes) : (0 : UInt8) ∉ cryptoHash env content :=
  cString_clean _ _ _

end Util

end ZippyFS
