import ZippyFS.Lib.CellMemory

/-! C structures in flat memory: a layout fixes the size of a type, its encoding as cells,
the decoding, and the value that zero-filled memory decodes to.
-/

namespace StructLayout

open CellMemory

/-- How values of a type occupy memory. Invalid layouts cannot be built: the round trip and
the meaning of fresh memory are fields.
-/
structure Layout (α : Type) where
  size : Nat
  encode : α → List Cell
  decode : List Cell → α
  zero : α
  length_encode : ∀ value, (encode value).length = size
  decode_encode : ∀ value, decode (encode value) = value
  decode_zero : decode (List.replicate size (.byte 0)) = zero

/-- Load a value from memory. -/
def Layout.load {α : Type} (layout : Layout α) (mem : Mem) (start : Nat) : α :=
  layout.decode (mem.read start layout.size)

/-- Store a value to memory. -/
def Layout.store {α : Type} (layout : Layout α) (mem : Mem) (start : Nat) (value : α)
    : Mem :=
  mem.write start (layout.encode value)

section Access

variable {α : Type} (layout : Layout α) (mem : Mem) (start : Nat)

/-- A stored value is loaded back unchanged. -/
@[simp] theorem Layout.load_store_same (value : α)
    : layout.load (layout.store mem start value) start = value := by
  have back := Mem.read_write_same mem start (layout.encode value)
  rw [layout.length_encode] at back
  unfold Layout.load Layout.store
  rw [back, layout.decode_encode]

/-- A store changes no cell outside the value's own range. -/
theorem Layout.store_outside (value : α) (address : Nat)
    (outside : address < start ∨ start + layout.size ≤ address)
    : (layout.store mem start value).cell address = mem.cell address := by
  apply Mem.write_outside
  rwa [layout.length_encode]

/-- Freshly cleared memory holds the zero value. -/
theorem Layout.load_clear_same
    : layout.load (mem.clear start layout.size) start = layout.zero := by
  unfold Layout.load
  rw [Mem.read_clear_same, layout.decode_zero]

/-- Equal cells hold equal values. -/
theorem Layout.load_congr {left right : Mem}
    (same : ∀ address, start ≤ address → address < start + layout.size
      → left.cell address = right.cell address)
    : layout.load left start = layout.load right start := by
  unfold Layout.load
  rw [Mem.read_congr same]

end Access

-----------------------------------------------------------------------------------------
-- Building layouts
-----------------------------------------------------------------------------------------

/-- The value of plain bytes, least significant first. -/
def littleEndian : List UInt8 → Nat
  | [] => 0
  | byte :: rest => byte.toNat + 256 * littleEndian rest

theorem littleEndian_zeros (count : Nat)
    : littleEndian (List.replicate count 0) = 0 := by
  induction count with
  | zero => rfl
  | succ count ih => simp [List.replicate_succ, littleEndian, ih]

/-- The integer an integer field shows: its stored value, or the value of plain bytes. -/
def decodeInt : List Cell → Int
  | .word value :: _ => value
  | cells => littleEndian (cells.map Cell.toByte)

/-- An integer field of `later + 1` bytes. -/
def Layout.int (later : Nat) : Layout Int where
  size := later + 1
  encode value := .word value :: List.replicate later .rest
  decode := decodeInt
  zero := 0
  length_encode := by simp
  decode_encode := by simp [decodeInt]
  decode_zero := by
    rw [List.replicate_succ]
    simp [decodeInt, Cell.toByte, littleEndian, littleEndian_zeros]

/-- A layout carried along a retraction of the value type. -/
def Layout.retract {α β : Type} (layout : Layout α) (into : α → β) (back : β → α)
    (inverse : ∀ value, into (back value) = value)
    : Layout β where
  size := layout.size
  encode value := layout.encode (back value)
  decode cells := into (layout.decode cells)
  zero := into layout.zero
  length_encode value := layout.length_encode (back value)
  decode_encode value := by rw [layout.decode_encode, inverse]
  decode_zero := by rw [layout.decode_zero]

/-- An unsigned field of `later + 1` bytes. -/
def Layout.nat (later : Nat) : Layout Nat :=
  (Layout.int later).retract Int.toNat Int.ofNat (fun _ => rfl)

/-- A truth value kept in an integer field of `later + 1` bytes. -/
def Layout.flag (later : Nat) : Layout Bool :=
  (Layout.int later).retract (fun value => decide (value ≠ 0))
    (fun value => if value then 1 else 0) (by decide)

/-- Two members in sequence. -/
def Layout.pair {α β : Type} (first : Layout α) (second : Layout β) : Layout (α × β) where
  size := first.size + second.size
  encode value := first.encode value.1 ++ second.encode value.2
  decode cells := (first.decode (cells.take first.size), second.decode (cells.drop first.size))
  zero := (first.zero, second.zero)
  length_encode value := by simp [first.length_encode, second.length_encode]
  decode_encode value := by
    have split := first.length_encode value.1
    simp [List.take_left' split, List.drop_left' split, first.decode_encode,
      second.decode_encode]
  decode_zero := by
    simp [List.take_replicate, List.drop_replicate, first.decode_zero, second.decode_zero]

/-- A member followed by unused bytes. -/
def Layout.padded {α : Type} (layout : Layout α) (unused : Nat) : Layout α where
  size := layout.size + unused
  encode value := layout.encode value ++ List.replicate unused (.byte 0)
  decode cells := layout.decode (cells.take layout.size)
  zero := layout.zero
  length_encode value := by simp [layout.length_encode]
  decode_encode value := by
    rw [List.take_left' (layout.length_encode value), layout.decode_encode]
  decode_zero := by simp [List.take_replicate, layout.decode_zero]

/-- The members of an array, decoded one after the other. -/
def decodeArray {α : Type} (layout : Layout α) : Nat → List Cell → List α
  | 0, _ => []
  | count + 1, cells =>
      layout.decode (cells.take layout.size)
        :: decodeArray layout count (cells.drop layout.size)

@[simp] theorem length_decodeArray {α : Type} (layout : Layout α) (count : Nat)
    (cells : List Cell)
    : (decodeArray layout count cells).length = count := by
  induction count generalizing cells with
  | zero => rfl
  | succ count ih => simp [decodeArray, ih]

theorem decodeArray_flatMap {α : Type} (layout : Layout α) (values : List α)
    : decodeArray layout values.length (values.flatMap layout.encode) = values := by
  induction values with
  | nil => rfl
  | cons head tail ih =>
      have split := layout.length_encode head
      simp [decodeArray, List.take_left' split, List.drop_left' split,
        layout.decode_encode, ih]

theorem decodeArray_zeros {α : Type} (layout : Layout α) (count : Nat)
    : decodeArray layout count (List.replicate (count * layout.size) (.byte 0))
      = List.replicate count layout.zero := by
  induction count with
  | zero => rfl
  | succ count ih =>
      rw [Nat.succ_mul]
      simp [decodeArray, List.take_replicate, List.drop_replicate, layout.decode_zero, ih,
        List.replicate_succ]

/-- An array of `count` members. -/
def Layout.array {α : Type} (layout : Layout α) (count : Nat) : Layout (Vector α count) where
  size := count * layout.size
  encode value := value.toList.flatMap layout.encode
  decode cells := ⟨(decodeArray layout count cells).toArray, by simp⟩
  zero := Vector.replicate count layout.zero
  length_encode value := by
    rw [List.length_flatMap]
    simp [layout.length_encode]
  decode_encode value := by
    apply Vector.toList_inj.mp
    have back := decodeArray_flatMap layout value.toList
    simpa using back
  decode_zero := by
    apply Vector.toList_inj.mp
    simpa using decodeArray_zeros layout count

end StructLayout
