import ZippyFS.Util

/-! Blocks: fixed arrays of file bytes together with the number of bytes in use. -/

namespace ZippyFS

/-- `SIZE_`, the length of a block's array and the physical block size. -/
def SIZE : Nat := 4096

/-- A block. Indices of `data` below `SIZE` are the array `data_`; its other flags are
never read.
-/
structure Block where
  actualSize : Nat
  data : Nat → UInt8

namespace Block

/-- The array contents before any insertion: `data_ = {0}`. -/
def empty : Block := ⟨0, fun _ => 0⟩

/-- `insert_data`: the copy stops at the end of the array, the used size does not. -/
def insertData (block : Block) (data : Bytes) (size offset : Nat) : Block where
  actualSize := if size + offset > block.actualSize then size + offset else block.actualSize
  data := fun ii =>
    if offset ≤ ii ∧ ii < SIZE ∧ ii - offset < size then data.getD (ii - offset) 0
    else block.data ii

/-- The constructor `Block(data, size)`. -/
def new (data : Bytes) (size : Nat) : Block :=
  insertData empty data size 0

/-- `Block::insert`. -/
def insert (block : Block) (data : Bytes) (size offset : Nat) : Block :=
  insertData block data size offset

/-- The first `count` bytes behind the start of a copy of the array. -/
def copied (env : Env) (block : Block) (count : Nat) : Bytes :=
  (List.range count).map (fun ii => if ii < SIZE then block.data ii else env.beyond ii)

@[simp] theorem length_copied (env : Env) (block : Block) (count : Nat)
    : (block.copied env count).length = count := by
  simp [copied]

/-- A new block uses exactly the bytes it was given. -/
@[simp] theorem new_actualSize (data : Bytes) (size : Nat) : (new data size).actualSize = size := by
  simp only [new, insertData, empty, Nat.add_zero]
  cases size <;> simp

/-- An insertion extends the used size to its own end. -/
theorem insert_actualSize (block : Block) (data : Bytes) (size offset : Nat)
    : (block.insert data size offset).actualSize = max block.actualSize (size + offset) := by
  simp only [insert, insertData]
  split <;> omega

end Block

end ZippyFS
