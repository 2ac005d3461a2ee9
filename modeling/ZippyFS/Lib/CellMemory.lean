import Mathlib.Data.List.Basic
import Mathlib.Tactic.Common

/-! Flat memory addressed by byte, in which an integer field keeps its whole value on its
first byte. Offsets and counters are mathematical integers, so no field ever wraps, while
partial overlaps still destroy what they hit.
-/

namespace CellMemory

/-- One addressable byte: a plain byte, the first byte of an integer field together with
the field's value, or a later byte of such a field.
-/
inductive Cell where
  | byte (value : UInt8)
  | word (value : Int)
  | rest
  deriving DecidableEq, Repr

/-- Memory: the cell at every address. -/
structure Mem where
  cell : Nat → Cell

/-- Fresh memory, as a file grown by `truncate` supplies it. -/
def Mem.zero : Mem := ⟨fun _ => .byte 0⟩

/-- The `count` cells from `start` on. -/
def Mem.read (mem : Mem) (start count : Nat) : List Cell :=
  (List.range count).map (fun index => mem.cell (start + index))

/-- Replace the cells from `start` on by `cells`. -/
def Mem.write (mem : Mem) (start : Nat) (cells : List Cell) : Mem :=
  let data := cells.toArray
  ⟨fun address =>
    if inside : start ≤ address ∧ address - start < data.size then data[address - start]
    else mem.cell address⟩

/-- Set `count` bytes from `start` on to zero. -/
def Mem.clear (mem : Mem) (start count : Nat) : Mem :=
  ⟨fun address =>
    if start ≤ address ∧ address < start + count then .byte 0 else mem.cell address⟩

@[simp] theorem Mem.length_read (mem : Mem) (start count : Nat)
    : (mem.read start count).length = count := by
  simp [Mem.read]

theorem Mem.getElem?_read (mem : Mem) (start count index : Nat)
    : (mem.read start count)[index]?
      = if index < count then some (mem.cell (start + index)) else none := by
  by_cases inside : index < count <;> simp [Mem.read, inside]

/-- A written address inside the range reads the written cell. -/
theorem Mem.write_inside (mem : Mem) (start index : Nat) (cells : List Cell)
    (inside : index < cells.length)
    : (mem.write start cells).cell (start + index) = cells[index] := by
  simp [Mem.write, inside]

/-- An address outside the written range keeps its cell. -/
theorem Mem.write_outside (mem : Mem) (start address : Nat) (cells : List Cell)
    (outside : address < start ∨ start + cells.length ≤ address)
    : (mem.write start cells).cell address = mem.cell address := by
  apply dif_neg
  simp only [List.size_toArray]
  omega

/-- Reading back exactly what was written returns it. -/
theorem Mem.read_write_same (mem : Mem) (start : Nat) (cells : List Cell)
    : (mem.write start cells).read start cells.length = cells := by
  apply List.ext_getElem?
  intro index
  rw [Mem.getElem?_read]
  split
  · next inside => simp [Mem.write_inside, inside]
  · next outside => simp [List.getElem?_eq_none (Nat.le_of_not_lt outside)]

/-- A cleared range reads as zero bytes. -/
theorem Mem.read_clear_same (mem : Mem) (start count : Nat)
    : (mem.clear start count).read start count = List.replicate count (.byte 0) := by
  apply List.ext_getElem?
  intro index
  rw [Mem.getElem?_read, List.getElem?_replicate]
  split
  · next inside => simp [Mem.clear, inside]
  · rfl

/-- An address outside the cleared range keeps its cell. -/
theorem Mem.clear_outside (mem : Mem) (start count address : Nat)
    (outside : address < start ∨ start + count ≤ address)
    : (mem.clear start count).cell address = mem.cell address := by
  apply if_neg
  omega

/-- Equal cells give equal reads. -/
theorem Mem.read_congr {left right : Mem} {start count : Nat}
    (same : ∀ address, start ≤ address → address < start + count
      → left.cell address = right.cell address)
    : left.read start count = right.read start count := by
  apply List.map_congr_left
  intro index member
  have inside := List.mem_range.mp member
  exact same _ (by omega) (by omega)

-----------------------------------------------------------------------------------------
-- Memory that ends
-----------------------------------------------------------------------------------------

/-- All bytes from `limit` on are zero. -/
def Mem.BlankFrom (mem : Mem) (limit : Nat) : Prop :=
  ∀ address, limit ≤ address → mem.cell address = .byte 0

theorem Mem.zero_blank (limit : Nat) : zero.BlankFrom limit := fun _ _ => rfl

/-- Memory that agrees behind the limit is blank there, too. -/
theorem Mem.BlankFrom.congr {mem next : Mem} {limit : Nat} (blank : mem.BlankFrom limit)
    (same : ∀ address, limit ≤ address → next.cell address = mem.cell address)
    : next.BlankFrom limit :=
  fun address behind => (same address behind).trans (blank address behind)

/-- Clearing what comes next moves the limit. -/
theorem Mem.BlankFrom.clear {mem : Mem} {limit : Nat} (blank : mem.BlankFrom limit) (count : Nat)
    : (mem.clear limit count).BlankFrom (limit + count) := by
  intro address behind
  rw [Mem.clear_outside _ _ _ _ (Or.inr behind)]
  exact blank address (by omega)

/-- Memory that ends is determined by the cells before its end. -/
theorem Mem.BlankFrom.write_read {mem : Mem} {limit : Nat} (blank : mem.BlankFrom limit)
    : zero.write 0 (mem.read 0 limit) = mem := by
  obtain ⟨cell⟩ := mem
  refine congrArg Mem.mk (funext fun address => ?_)
  by_cases inside : address < limit
  · have written := Mem.write_inside zero 0 address ((Mem.mk cell).read 0 limit)
      (by simpa using inside)
    rw [Nat.zero_add] at written
    refine written.trans (Option.some.inj ?_)
    rw [← List.getElem?_eq_getElem, Mem.getElem?_read, if_pos inside, Nat.zero_add]
  · have behind := Nat.le_of_not_lt inside
    have outside := Mem.write_outside zero 0 address ((Mem.mk cell).read 0 limit)
      (Or.inr (by simpa using behind))
    exact outside.trans (blank address behind).symm

-----------------------------------------------------------------------------------------
-- Byte strings
-----------------------------------------------------------------------------------------

/-- The byte a cell shows to a byte-wise reader. -/
def Cell.toByte : Cell → UInt8
  | .byte value => value
  | .word value => UInt8.ofNat (value.emod 256).toNat
  | .rest => 0

/-- Copy a byte string into memory. -/
def Mem.writeBytes (mem : Mem) (start : Nat) (bytes : List UInt8) : Mem :=
  mem.write start (bytes.map .byte)

/-- Copy `count` bytes out of memory. -/
def Mem.readBytes (mem : Mem) (start count : Nat) : List UInt8 :=
  (mem.read start count).map Cell.toByte

/-- A copied byte string reads back unchanged. -/
theorem Mem.readBytes_writeBytes_same (mem : Mem) (start : Nat) (bytes : List UInt8)
    : (mem.writeBytes start bytes).readBytes start bytes.length = bytes := by
  have back := Mem.read_write_same mem start (bytes.map .byte)
  rw [List.length_map] at back
  unfold Mem.readBytes Mem.writeBytes
  rw [back, List.map_map]
  exact List.map_id bytes

/-- A byte string copied over zeros is read with the zeros behind it. -/
theorem Mem.readBytes_padded (mem : Mem) (start : Nat) {bytes : List UInt8} {count : Nat}
    (short : bytes.length ≤ count)
    : ((mem.clear start count).writeBytes start bytes).readBytes start count
      = bytes ++ List.replicate (count - bytes.length) 0 := by
  apply List.ext_getElem?
  intro index
  unfold Mem.readBytes Mem.writeBytes
  rw [List.getElem?_map, Mem.getElem?_read]
  by_cases inside : index < bytes.length
  · rw [if_pos (Nat.lt_of_lt_of_le inside short), List.getElem?_append_left inside, Option.map_some,
      Mem.write_inside _ _ _ _ (by simpa using inside)]
    simp [Cell.toByte, inside]
  · rw [List.getElem?_append_right (Nat.le_of_not_lt inside), List.getElem?_replicate]
    by_cases padded : index < count
    · rw [if_pos padded, if_pos (by omega), Option.map_some, Mem.write_outside]
      · simp [Mem.clear, Cell.toByte, padded]
      · right
        rw [List.length_map]
        omega
    · rw [if_neg padded, if_neg (by omega), Option.map_none]

/-- A NUL-terminated string of at most `limit` bytes. -/
def Mem.cString (mem : Mem) (start limit : Nat) : List UInt8 :=
  (mem.readBytes start limit).takeWhile (· ≠ 0)

/-- Equal cells give equal strings. -/
theorem Mem.cString_congr {left right : Mem} {start limit : Nat}
    (same : left.read start limit = right.read start limit)
    : left.cString start limit = right.cString start limit := by
  unfold Mem.cString Mem.readBytes
  rw [same]

/-- A zero-padded NUL-free string is read back as itself. -/
theorem takeWhile_padded {bytes padding : List UInt8} (clean : (0 : UInt8) ∉ bytes)
    (zeros : ∀ byte ∈ padding, byte = 0)
    : (bytes ++ padding).takeWhile (· ≠ 0) = bytes := by
  have all : ∀ byte ∈ bytes, (decide (byte ≠ 0)) = true := by
    intro byte member
    simp only [decide_eq_true_eq]
    intro zero
    exact clean (zero ▸ member)
  rw [List.takeWhile_append_of_pos all]
  cases padding with
  | nil => simp
  | cons head tail => simp [zeros head (by simp)]

end CellMemory
