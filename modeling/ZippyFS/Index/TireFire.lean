import ZippyFS.Lib.StructLayout
import ZippyFS.Util
import Mathlib.Tactic.Order.ToInt

/-! The bump allocator behind an index file. Regions are handed out one behind the other
and addressed by their offset from `get_root()`; the mapping may move, offsets do not.
-/

namespace ZippyFS

open CellMemory StructLayout

/-- `class TireFire`, with the bytes of its file. -/
structure TireFire where
  curSize : Nat
  latestIndex : Nat
  indexToOffset : Std.ExtTreeMap Nat Nat
  mem : Mem

namespace TireFire

/-- The constructor: an empty file. -/
def new : TireFire := ⟨0, 0, ∅, Mem.zero⟩

/-- `get_tire`: the file grows by `size` zero bytes, which get the next index. -/
def getTire (tires : TireFire) (size : Nat) : Nat × TireFire :=
  let oldSize := tires.curSize
  (tires.latestIndex,
    { curSize := oldSize + size
      latestIndex := tires.latestIndex + 1
      indexToOffset := tires.indexToOffset.insert tires.latestIndex oldSize
      mem := tires.mem.clear oldSize size })

/-- `get_offset`; `get_memory` is the same place as a pointer. -/
def getOffset (tires : TireFire) (index : Nat) : Except Fault Nat :=
  match tires.indexToOffset[index]? with
  | some offset => .ok offset
  | none => .error .unknownTire

/-- Load a structure from an offset. -/
def load {α : Type} (tires : TireFire) (layout : Layout α) (offset : Nat) : α :=
  layout.load tires.mem offset

/-- Store a structure at an offset. -/
def store {α : Type} (tires : TireFire) (layout : Layout α) (offset : Nat) (value : α)
    : TireFire :=
  { tires with mem := layout.store tires.mem offset value }

/-- The same allocations over other file contents. -/
def withMem (tires : TireFire) (mem : Mem) : TireFire := { tires with mem := mem }

/-- A store leaves the end of the file where it is. -/
@[simp] theorem store_curSize {α : Type} (tires : TireFire) (layout : Layout α)
    (offset : Nat) (value : α)
    : (tires.store layout offset value).curSize = tires.curSize := rfl

/-- A store hands out no index. -/
@[simp] theorem store_latestIndex {α : Type} (tires : TireFire) (layout : Layout α)
    (offset : Nat) (value : α)
    : (tires.store layout offset value).latestIndex = tires.latestIndex := rfl

@[simp] theorem store_mem {α : Type} (tires : TireFire) (layout : Layout α)
    (offset : Nat) (value : α)
    : (tires.store layout offset value).mem = layout.store tires.mem offset value := rfl

/-- A store moves no region. -/
@[simp] theorem store_getOffset {α : Type} (tires : TireFire) (layout : Layout α)
    (offset : Nat) (value : α) (index : Nat)
    : (tires.store layout offset value).getOffset index = tires.getOffset index := rfl

/-- The next index is the one handed out. -/
@[simp] theorem getTire_index (tires : TireFire) (size : Nat)
    : (tires.getTire size).1 = tires.latestIndex := rfl

/-- The file grows by the size of the region. -/
@[simp] theorem getTire_curSize (tires : TireFire) (size : Nat)
    : (tires.getTire size).2.curSize = tires.curSize + size := rfl

@[simp] theorem getTire_latestIndex (tires : TireFire) (size : Nat)
    : (tires.getTire size).2.latestIndex = tires.latestIndex + 1 := rfl

/-- The region starts as zeros. -/
@[simp] theorem getTire_mem (tires : TireFire) (size : Nat)
    : (tires.getTire size).2.mem = tires.mem.clear tires.curSize size := rfl

/-- The region just handed out starts at the old end of the file. -/
@[simp] theorem getTire_getOffset_new (tires : TireFire) (size : Nat)
    : (tires.getTire size).2.getOffset tires.latestIndex = .ok tires.curSize := by
  simp [getTire, getOffset]

/-- Regions handed out earlier keep their offsets. -/
theorem getTire_getOffset_old (tires : TireFire) (size index : Nat)
    (old : index ≠ tires.latestIndex)
    : (tires.getTire size).2.getOffset index = tires.getOffset index := by
  have other : ¬ compare tires.latestIndex index = .eq := by
    rw [Std.compare_eq_iff_eq]
    exact Ne.symm old
  simp [getTire, getOffset, Std.ExtTreeMap.getElem?_insert, other]

end TireFire

end ZippyFS
