import ZippyFS.Index.TireFire
import ZippyFS.Lib.ConsecutiveRegions

/-! The allocator as the process sees it: a mapping that may move with every allocation, and
tables of offsets and of pointers that have to follow it.

`TireFire` keeps only what survives a move. This module shows that the pointers always agree
with it, and what it is for: every index owns zeroed memory that no other index can reach.
-/

namespace ZippyFS

open CellMemory StructLayout Consecutive

/-- Where a successful `mmap` or `mremap` puts a mapping. It never chooses address 0. -/
structure Placement where
  address : Nat
  notNull : address ≠ 0

/-- `class TireFire` in the memory of its process. The address 0 is `nullptr`. -/
structure MappedTireFire where
  curSize : Nat
  curPtr : Nat
  latestIndex : Nat
  indexToOffset : Std.ExtTreeMap Nat Nat
  indexToPtr : Std.ExtTreeMap Nat Nat
  space : Mem

/-- `mmap` of an empty file that was grown to `size` bytes. -/
def mmap (space : Mem) (place : Placement) (size : Nat) : Mem :=
  space.clear place.address size

/-- `mremap` after the file grew: the contents come along, and zeros behind them. -/
def mremap (space : Mem) (old oldSize newSize : Nat) (place : Placement) : Mem :=
  (space.write place.address (space.read old oldSize)).clear (place.address + oldSize)
    (newSize - oldSize)

namespace MappedTireFire

/-- The constructor, in a process with any memory. -/
def new (space : Mem) : MappedTireFire := ⟨0, 0, 0, ∅, ∅, space⟩

/-- The loop that changes the old entries. `operator[]` lists an index without an offset. -/
def rebase : List Nat → MappedTireFire → MappedTireFire
  | [], tires => tires
  | index :: rest, tires =>
      let indexToOffset := tires.indexToOffset.insertIfNew index 0
      rebase rest { tires with
        indexToOffset := indexToOffset
        indexToPtr :=
          tires.indexToPtr.insert index (tires.curPtr + indexToOffset[index]?.getD 0) }

/-- The file and its mapping after they grew, with the pointers still at the old place. -/
def moved (tires : MappedTireFire) (size : Nat) (place : Placement) : MappedTireFire :=
  { tires with
    space := mremap tires.space tires.curPtr tires.curSize (tires.curSize + size) place
    curPtr := place.address
    curSize := tires.curSize + size }

/-- `get_tire`, with the place that `mmap` or `mremap` chooses. -/
def getTire (tires : MappedTireFire) (size : Nat) (place : Placement)
    : Nat × MappedTireFire :=
  let oldSize := tires.curSize
  let tires :=
    if tires.curPtr = 0 then
      -- only on the first go
      { tires with
        space := mmap tires.space place size
        curPtr := place.address
        curSize := size }
    else
      rebase tires.indexToPtr.keys (tires.moved size place)
  (tires.latestIndex,
    { tires with
      indexToOffset := tires.indexToOffset.insert tires.latestIndex oldSize
      indexToPtr := tires.indexToPtr.insert tires.latestIndex (tires.curPtr + oldSize)
      latestIndex := tires.latestIndex + 1 })

/-- `get_memory`. -/
def getMemory (tires : MappedTireFire) (index : Nat) : Nat :=
  tires.indexToPtr[index]?.getD 0

/-- `get_offset`. -/
def getOffset (tires : MappedTireFire) (index : Nat) : Except Fault Nat :=
  match tires.indexToOffset[index]? with
  | some offset => .ok offset
  | none => .error .unknownTire

/-- `get_root`. -/
def getRoot (tires : MappedTireFire) : Nat := tires.curPtr

end MappedTireFire

/-- What is done with an allocator: allocations, and writes through `get_memory`. -/
inductive TireCall where
  | getTire (size : Nat) (place : Placement)
  | write (index inner : Nat) (cells : List Cell)

/-- One call, as the process sees it. -/
def MappedTireFire.apply (tires : MappedTireFire) : TireCall → MappedTireFire
  | .getTire size place => (tires.getTire size place).2
  | .write index inner cells =>
      { tires with space := tires.space.write (tires.getMemory index + inner) cells }

/-- One call, in offsets. -/
def TireFire.apply (tires : TireFire) : TireCall → TireFire
  | .getTire size _ => (tires.getTire size).2
  | .write index inner cells =>
      match tires.getOffset index with
      | .ok offset => tires.withMem (tires.mem.write (offset + inner) cells)
      | .error _ => tires

/-- What an allocator is for: regions of the sizes asked for, each a memory of its own. -/
structure Separate where
  sizes : List Nat
  owned : Nat → Mem

namespace Separate

/-- No regions yet. -/
def new : Separate := ⟨[], fun _ => Mem.zero⟩

/-- One call, on separate memories. -/
def apply (regions : Separate) : TireCall → Separate
  | .getTire size _ => { regions with sizes := regions.sizes ++ [size] }
  | .write index inner cells =>
      { regions with
        owned := fun other =>
          if other = index then (regions.owned index).write inner cells
          else regions.owned other }

/-- A call that writes stays in the region it writes to. -/
def Inside (regions : Separate) : TireCall → Prop
  | .getTire _ _ => True
  | .write index inner cells =>
      ∃ size, regions.sizes[index]? = some size ∧ inner + cells.length ≤ size

/-- All calls stay in their regions. -/
def AllInside : Separate → List TireCall → Prop
  | _, [] => True
  | regions, call :: rest => regions.Inside call ∧ AllInside (regions.apply call) rest

end Separate

/-- The uses of one allocator. `mmap` refuses an empty first allocation. -/
structure TireSession where
  firstSize : Nat
  positive : 0 < firstSize
  firstPlace : Placement
  later : List TireCall

namespace TireSession

/-- All calls of a session. -/
def calls (session : TireSession) : List TireCall :=
  .getTire session.firstSize session.firstPlace :: session.later

/-- A session that goes on. -/
def goOn (session : TireSession) (more : List TireCall) : TireSession :=
  { session with later := session.later ++ more }

/-- The allocator after a session. -/
def mapped (session : TireSession) (space : Mem) : MappedTireFire :=
  session.calls.foldl MappedTireFire.apply (MappedTireFire.new space)

/-- The same in offsets. -/
def tires (session : TireSession) : TireFire :=
  session.calls.foldl TireFire.apply TireFire.new

/-- The same in separate memories. -/
def regions (session : TireSession) : Separate :=
  session.calls.foldl Separate.apply Separate.new

end TireSession

-----------------------------------------------------------------------------------------
-- Offsets
-----------------------------------------------------------------------------------------

/-- The allocator's counters and offsets lay its regions one behind the other. -/
structure Sized (tires : TireFire) (sizes : List Nat) : Prop where
  latest : tires.latestIndex = sizes.length
  total : tires.curSize = sizes.sum
  offsets
    : ∀ index, tires.indexToOffset[index]?
        = if index < sizes.length then some (start sizes index) else none

/-- A new allocator has no regions. -/
theorem Sized.new : Sized TireFire.new [] where
  latest := rfl
  total := rfl
  offsets := fun _ => by simp [TireFire.new]

/-- An allocation appends one region. -/
theorem Sized.getTire {tires : TireFire} {sizes : List Nat} (sized : Sized tires sizes)
    (size : Nat)
    : Sized (tires.getTire size).2 (sizes ++ [size]) where
  latest := by simp [sized.latest]
  total := by simp [sized.total]
  offsets := by
    intro index
    simp only [TireFire.getTire, Std.ExtTreeMap.getElem?_insert, sized.latest, sized.offsets,
      Std.compare_eq_iff_eq, List.length_append, List.length_singleton, sized.total]
    rcases Nat.lt_trichotomy index sizes.length with before | same | behind
    · rw [if_neg (by omega), if_pos before, if_pos (by omega),
        start_append _ (Nat.le_of_lt before)]
    · rw [if_pos same.symm, if_pos (by omega), same, start_append _ (le_refl _), start_length]
    · rw [if_neg (by omega), if_neg (by omega), if_neg (by omega)]

/-- Calls keep the regions laid. -/
theorem Sized.apply {tires : TireFire} {regions : Separate} (sized : Sized tires regions.sizes)
    (call : TireCall)
    : Sized (tires.apply call) (regions.apply call).sizes := by
  cases call with
  | getTire size place => exact sized.getTire size
  | write index inner cells =>
      simp only [TireFire.apply]
      split
      · exact ⟨sized.latest, sized.total, sized.offsets⟩
      · exact sized

/-- The offset of a region that was handed out. -/
theorem Sized.getOffset {tires : TireFire} {sizes : List Nat} (sized : Sized tires sizes)
    {index : Nat} (handed : index < sizes.length)
    : tires.getOffset index = .ok (start sizes index) := by
  simp [TireFire.getOffset, sized.offsets, handed]

/-- Any calls lay their regions one behind the other, by induction on them. -/
theorem Sized.run {tires : TireFire} {regions : Separate} (sized : Sized tires regions.sizes)
    (calls : List TireCall)
    : Sized (calls.foldl TireFire.apply tires) (calls.foldl Separate.apply regions).sizes := by
  induction calls generalizing tires regions with
  | nil => exact sized
  | cons call rest ih => exact ih (sized.apply call)

/-- Later calls only append sizes. -/
theorem Separate.sizes_prefix (regions : Separate) (calls : List TireCall)
    : ∃ more, (calls.foldl Separate.apply regions).sizes = regions.sizes ++ more := by
  induction calls generalizing regions with
  | nil => exact ⟨[], (List.append_nil _).symm⟩
  | cons call rest ih =>
      obtain ⟨more, later⟩ := ih (regions.apply call)
      cases call with
      | getTire size place => exact ⟨size :: more, by simpa [Separate.apply] using later⟩
      | write index inner cells => exact ⟨more, later⟩

-----------------------------------------------------------------------------------------
-- Contents
-----------------------------------------------------------------------------------------

/-- The same bytes written at corresponding places of two memories correspond. -/
theorem write_shifted {left right : Mem} {base position : Nat} (first : Nat) (cells : List Cell)
    (same : left.cell (base + position) = right.cell position)
    : (left.write (base + first) cells).cell (base + position)
      = (right.write first cells).cell position := by
  rcases Nat.lt_or_ge position first with before | behind
  · rw [Mem.write_outside _ _ _ _ (Or.inl (by omega)), Mem.write_outside _ _ _ _ (Or.inl before),
      same]
  · obtain ⟨index, rfl⟩ := Nat.exists_eq_add_of_le behind
    rcases Nat.lt_or_ge index cells.length with inside | outside
    · rw [← Nat.add_assoc, Mem.write_inside _ _ _ _ inside, Mem.write_inside _ _ _ _ inside]
    · rw [Mem.write_outside _ _ _ _ (Or.inr (by omega)),
        Mem.write_outside _ _ _ _ (Or.inr (by omega)), same]

/-- Every region of the file holds the memory that its index owns. -/
structure Owns (mem : Mem) (regions : Separate) : Prop where
  cells
    : ∀ index size, regions.sizes[index]? = some size
      → ∀ inner < size,
          mem.cell (start regions.sizes index + inner) = (regions.owned index).cell inner
  untouched : ∀ index, regions.sizes.length ≤ index → regions.owned index = Mem.zero

/-- An allocation clears a region of its own. -/
theorem Owns.getTire {mem : Mem} {regions : Separate} (owns : Owns mem regions) (size : Nat)
    (place : Placement)
    : Owns (mem.clear regions.sizes.sum size) (regions.apply (.getTire size place)) where
  cells := by
    intro index found here inner inside
    simp only [Separate.apply] at here ⊢
    rcases Nat.lt_or_ge index regions.sizes.length with old | new
    · rw [List.getElem?_append_left old] at here
      have ends := end_le_sum here
      rw [start_append _ (Nat.le_of_lt old), Mem.clear_outside _ _ _ _ (Or.inl (by omega))]
      exact owns.cells index found here inner inside
    · rw [List.getElem?_append_right new] at here
      have last : index = regions.sizes.length := by
        have single := (List.getElem?_eq_some_iff.mp here).1
        simp only [List.length_singleton] at single
        omega
      subst last
      simp only [Nat.sub_self, List.getElem?_cons_zero, Option.some.injEq] at here
      subst here
      rw [start_append _ (Nat.le_refl _), start_length, owns.untouched _ (Nat.le_refl _)]
      simp [Mem.clear, Mem.zero, inside]
  untouched := by
    intro index behind
    simp only [Separate.apply, List.length_append, List.length_singleton] at behind ⊢
    exact owns.untouched index (by omega)

/-- A write into one region changes what its index owns and nothing else. -/
theorem Owns.write {mem : Mem} {regions : Separate} (owns : Owns mem regions)
    {index inner : Nat} {cells : List Cell} (inside : regions.Inside (.write index inner cells))
    : Owns (mem.write (start regions.sizes index + inner) cells)
        (regions.apply (.write index inner cells)) where
  cells := by
    intro other size found position below
    obtain ⟨room, here, fits⟩ := inside
    simp only [Separate.apply] at found ⊢
    by_cases same : other = index
    · subst same
      rw [if_pos rfl]
      exact write_shifted _ _ (owns.cells other size found position below)
    · rw [if_neg same, ← owns.cells other size found position below]
      refine Mem.write_outside _ _ _ _ ?_
      rcases Nat.lt_or_gt_of_ne same with before | behind
      · have apart := end_le_start found before
        omega
      · have apart := end_le_start here behind
        omega
  untouched := by
    intro other behind
    obtain ⟨room, here, _⟩ := inside
    have handed := (List.getElem?_eq_some_iff.mp here).1
    simp only [Separate.apply] at behind ⊢
    rw [if_neg (by omega)]
    exact owns.untouched other behind

/-- A call inside its region keeps what every index owns. -/
theorem Owns.apply {tires : TireFire} {regions : Separate} (sized : Sized tires regions.sizes)
    (owns : Owns tires.mem regions) {call : TireCall} (inside : regions.Inside call)
    : Owns (tires.apply call).mem (regions.apply call) := by
  cases call with
  | getTire size place =>
      simp only [TireFire.apply, TireFire.getTire_mem, sized.total]
      exact owns.getTire size place
  | write index inner cells =>
      have written := owns.write inside
      obtain ⟨room, here, _⟩ := inside
      have handed := (List.getElem?_eq_some_iff.mp here).1
      simpa only [TireFire.apply, sized.getOffset handed, TireFire.withMem] using written

/-- Calls inside their regions keep what every index owns, by induction on them. -/
theorem Owns.run {tires : TireFire} {regions : Separate} (sized : Sized tires regions.sizes)
    (owns : Owns tires.mem regions) {calls : List TireCall} (inside : regions.AllInside calls)
    : Owns (calls.foldl TireFire.apply tires).mem (calls.foldl Separate.apply regions) := by
  induction calls generalizing tires regions with
  | nil => exact owns
  | cons call rest ih => exact ih (sized.apply call) (owns.apply sized inside.1) inside.2

/-- A new allocator owns nothing. -/
theorem Owns.new : Owns TireFire.new.mem Separate.new where
  cells := fun _ _ found => by simp [Separate.new] at found
  untouched := fun _ _ => rfl

-----------------------------------------------------------------------------------------
-- Pointers
-----------------------------------------------------------------------------------------

/-- The pointers of a mapping agree with the offsets. -/
structure Mirrors (mapped : MappedTireFire) (tires : TireFire) : Prop where
  placed : mapped.curPtr ≠ 0
  size : mapped.curSize = tires.curSize
  latest : mapped.latestIndex = tires.latestIndex
  offsets : ∀ index : Nat, mapped.indexToOffset[index]? = tires.indexToOffset[index]?
  pointers
    : ∀ index : Nat, mapped.indexToPtr[index]?
        = tires.indexToOffset[index]?.map (mapped.curPtr + ·)

/-- The mapping shows the bytes of the file. -/
def Shows (mapped : MappedTireFire) (tires : TireFire) : Prop :=
  ∀ position < tires.curSize,
    mapped.space.cell (mapped.curPtr + position) = tires.mem.cell position

/-- The loop changes tables only. -/
theorem rebase_frame (indices : List Nat) (mapped : MappedTireFire)
    : (MappedTireFire.rebase indices mapped).curSize = mapped.curSize
      ∧ (MappedTireFire.rebase indices mapped).curPtr = mapped.curPtr
      ∧ (MappedTireFire.rebase indices mapped).latestIndex = mapped.latestIndex
      ∧ (MappedTireFire.rebase indices mapped).space = mapped.space := by
  induction indices generalizing mapped with
  | nil => exact ⟨rfl, rfl, rfl, rfl⟩
  | cons index rest ih => exact ih _

/-- The loop over indices with offsets points each of them at its offset, by induction on
the loop.
-/
theorem rebase_tables (indices : List Nat) (mapped : MappedTireFire)
    (known : ∀ index ∈ indices, ∃ offset, mapped.indexToOffset[index]? = some offset)
    : (∀ index : Nat, (MappedTireFire.rebase indices mapped).indexToOffset[index]?
        = mapped.indexToOffset[index]?)
      ∧ ∀ index : Nat, (MappedTireFire.rebase indices mapped).indexToPtr[index]?
        = if index ∈ indices then mapped.indexToOffset[index]?.map (mapped.curPtr + ·)
          else mapped.indexToPtr[index]? := by
  induction indices generalizing mapped with
  | nil => simp [MappedTireFire.rebase]
  | cons first rest ih =>
      obtain ⟨offset, found⟩ := known first (by simp)
      -- The first index has an offset, so `operator[]` adds no entry.
      have kept : ∀ index : Nat, (mapped.indexToOffset.insertIfNew first 0)[index]?
          = mapped.indexToOffset[index]? := by
        intro index
        have listed : first ∈ mapped.indexToOffset := by
          rw [Std.ExtTreeMap.mem_iff_isSome_getElem?, found]
          rfl
        simp [Std.ExtTreeMap.getElem?_insertIfNew, listed]
      obtain ⟨offsets, pointers⟩ := ih
        { mapped with
          indexToOffset := mapped.indexToOffset.insertIfNew first 0
          indexToPtr := mapped.indexToPtr.insert first
            (mapped.curPtr + (mapped.indexToOffset.insertIfNew first 0)[first]?.getD 0) }
        (fun index member => by
          obtain ⟨place, same⟩ := known index (by simp [member])
          exact ⟨place, (kept index).trans same⟩)
      refine ⟨fun index => (offsets index).trans (kept index), fun index => ?_⟩
      refine (pointers index).trans ?_
      simp only [kept, found, Option.getD_some, Std.ExtTreeMap.getElem?_insert,
        Std.compare_eq_iff_eq, List.mem_cons]
      by_cases later : index ∈ rest
      · simp [later]
      · by_cases here : index = first
        · simp [here, found]
        · simp [here, later, Ne.symm here]

/-- A moved mapping shows its old contents, and zeros behind them. -/
theorem mremap_cell (space : Mem) (old oldSize newSize : Nat) (place : Placement)
    {position : Nat} (inside : position < newSize)
    : (mremap space old oldSize newSize place).cell (place.address + position)
      = if position < oldSize then space.cell (old + position) else .byte 0 := by
  unfold mremap
  split
  · next kept =>
      rw [Mem.clear_outside _ _ _ _ (Or.inl (by omega)),
        Mem.write_inside _ _ _ _ (by simpa using kept)]
      simp [Mem.read]
  · next fresh =>
      simp only [Mem.clear]
      rw [if_pos (by omega)]

/-- The first allocation places the mapping. -/
theorem Mirrors.first (space : Mem) (size : Nat) (place : Placement)
    : Mirrors ((MappedTireFire.new space).getTire size place).2
        (TireFire.new.getTire size).2 where
  placed := place.notNull
  size := (Nat.zero_add size).symm
  latest := rfl
  offsets := fun _ => rfl
  pointers := by
    intro index
    simp only [MappedTireFire.getTire, MappedTireFire.new, TireFire.getTire, TireFire.new,
      if_true, Std.ExtTreeMap.getElem?_insert]
    split
    · rfl
    · simp

/-- The first allocation shows zeros. -/
theorem Shows.first (space : Mem) (size : Nat) (place : Placement)
    : Shows ((MappedTireFire.new space).getTire size place).2 (TireFire.new.getTire size).2 := by
  intro position inside
  have below : position < size := by simpa [TireFire.new] using inside
  simp [MappedTireFire.getTire, MappedTireFire.new, TireFire.new, mmap, Mem.clear, below]

/-- Later allocations move the mapping and all pointers alike. -/
theorem Mirrors.getTire {mapped : MappedTireFire} {tires : TireFire}
    (mirrors : Mirrors mapped tires) (size : Nat) (place : Placement)
    : Mirrors (mapped.getTire size place).2 (tires.getTire size).2 := by
  have listed : ∀ index ∈ mapped.indexToPtr.keys,
      ∃ offset, mapped.indexToOffset[index]? = some offset := by
    intro index member
    rw [Std.ExtTreeMap.mem_keys, Std.ExtTreeMap.mem_iff_isSome_getElem?, mirrors.pointers,
      Option.isSome_map, ← mirrors.offsets] at member
    exact Option.isSome_iff_exists.mp member
  have absent : ∀ index, index ∉ mapped.indexToPtr.keys
      → mapped.indexToOffset[index]? = none := by
    intro index missing
    rw [Std.ExtTreeMap.mem_keys, Std.ExtTreeMap.mem_iff_isSome_getElem?, mirrors.pointers,
      Option.isSome_map, ← mirrors.offsets] at missing
    simpa using missing
  obtain ⟨sameSize, root, latest, _⟩ :=
    rebase_frame mapped.indexToPtr.keys (mapped.moved size place)
  obtain ⟨offsets, pointers⟩ :=
    rebase_tables mapped.indexToPtr.keys (mapped.moved size place) listed
  unfold MappedTireFire.getTire
  simp only [mirrors.placed, if_false]
  constructor
  · exact root ▸ place.notNull
  · rw [sameSize, TireFire.getTire_curSize, ← mirrors.size]
    rfl
  · rw [latest, TireFire.getTire_latestIndex, ← mirrors.latest]
    rfl
  · intro index
    simp only [TireFire.getTire, Std.ExtTreeMap.getElem?_insert, offsets, latest]
    simp only [MappedTireFire.moved, mirrors.latest, mirrors.size, mirrors.offsets]
  · intro index
    simp only [TireFire.getTire, Std.ExtTreeMap.getElem?_insert, pointers, latest, root,
      Std.compare_eq_iff_eq]
    simp only [MappedTireFire.moved, mirrors.latest, mirrors.size]
    by_cases new : tires.latestIndex = index
    · simp [new]
    · rw [if_neg new, if_neg new, ← mirrors.offsets]
      split
      · rfl
      · next missing =>
          have noOffset := absent index missing
          rw [noOffset, mirrors.pointers, ← mirrors.offsets, noOffset]
          rfl

/-- Later allocations keep the contents and show zeros behind them. -/
theorem Shows.getTire {mapped : MappedTireFire} {tires : TireFire}
    (mirrors : Mirrors mapped tires) (shows_ : Shows mapped tires) (size : Nat)
    (place : Placement)
    : Shows (mapped.getTire size place).2 (tires.getTire size).2 := by
  intro position inside
  rw [TireFire.getTire_curSize] at inside
  obtain ⟨_, root, _, space⟩ :=
    rebase_frame mapped.indexToPtr.keys (mapped.moved size place)
  unfold MappedTireFire.getTire
  simp only [mirrors.placed, if_false, space, root]
  simp only [MappedTireFire.moved, TireFire.getTire_mem, mirrors.size]
  rw [mremap_cell _ _ _ _ _ inside]
  split
  · next old =>
      rw [Mem.clear_outside _ _ _ _ (Or.inl old)]
      exact shows_ position old
  · next new =>
      simp only [Mem.clear]
      rw [if_pos (by omega)]

/-- Calls keep pointers and offsets in step. -/
theorem Mirrors.apply {mapped : MappedTireFire} {tires : TireFire}
    (mirrors : Mirrors mapped tires) (call : TireCall)
    : Mirrors (mapped.apply call) (tires.apply call) := by
  cases call with
  | getTire size place => exact mirrors.getTire size place
  | write index inner cells =>
      simp only [TireFire.apply]
      split <;> exact ⟨mirrors.placed, mirrors.size, mirrors.latest, mirrors.offsets,
        mirrors.pointers⟩

/-- Writes to regions that were handed out reach the file. -/
theorem Shows.apply {mapped : MappedTireFire} {tires : TireFire} {regions : Separate}
    (mirrors : Mirrors mapped tires) (sized : Sized tires regions.sizes)
    (shows_ : Shows mapped tires) {call : TireCall} (inside : regions.Inside call)
    : Shows (mapped.apply call) (tires.apply call) := by
  cases call with
  | getTire size place => exact shows_.getTire mirrors size place
  | write index inner cells =>
      obtain ⟨room, here, _⟩ := inside
      have handed := (List.getElem?_eq_some_iff.mp here).1
      have pointer : mapped.getMemory index = mapped.curPtr + start regions.sizes index := by
        simp [MappedTireFire.getMemory, mirrors.pointers, sized.offsets, handed]
      intro position below
      simp only [TireFire.apply, sized.getOffset handed] at below ⊢
      simp only [MappedTireFire.apply, pointer, Nat.add_assoc]
      exact write_shifted _ _ (shows_ position below)

/-- Calls keep pointers and offsets in step, by induction on them. -/
theorem Mirrors.run {mapped : MappedTireFire} {tires : TireFire}
    (mirrors : Mirrors mapped tires) (calls : List TireCall)
    : Mirrors (calls.foldl MappedTireFire.apply mapped) (calls.foldl TireFire.apply tires) := by
  induction calls generalizing mapped tires with
  | nil => exact mirrors
  | cons call rest ih => exact ih (mirrors.apply call)

/-- Calls inside their regions keep the mapping and the file alike, by induction on them. -/
theorem Shows.run {mapped : MappedTireFire} {tires : TireFire} {regions : Separate}
    (mirrors : Mirrors mapped tires) (sized : Sized tires regions.sizes)
    (shows_ : Shows mapped tires) {calls : List TireCall} (inside : regions.AllInside calls)
    : Shows (calls.foldl MappedTireFire.apply mapped) (calls.foldl TireFire.apply tires) := by
  induction calls generalizing mapped tires regions with
  | nil => exact shows_
  | cons call rest ih =>
      exact ih (mirrors.apply call) (sized.apply call)
        (shows_.apply mirrors sized inside.1) inside.2

-----------------------------------------------------------------------------------------
-- Sessions
-----------------------------------------------------------------------------------------

/-- Regions of the given sizes, handed out one behind the other and reached alike through
pointers and offsets.
-/
structure LaidOut (mapped : MappedTireFire) (sizes : List Nat) : Prop where
  handed : mapped.latestIndex = sizes.length
  total : mapped.curSize = sizes.sum
  offsets : ∀ index < sizes.length, mapped.getOffset index = .ok (start sizes index)
  pointers
    : ∀ index < sizes.length,
        mapped.getMemory index = mapped.getRoot + start sizes index
  consecutive
    : ∀ index size, sizes[index]? = some size
      → start sizes (index + 1) = start sizes index + size
  disjoint
    : ∀ index other position, InRegion sizes index position → InRegion sizes other position
      → index = other
  covered : ∀ position, position < sizes.sum ↔ ∃ index, InRegion sizes index position

namespace TireSession

variable (session : TireSession) (space : Mem)

/-- After a session the pointers agree with the offsets. -/
theorem mirrors : Mirrors (session.mapped space) session.tires :=
  (Mirrors.first space session.firstSize session.firstPlace).run session.later

/-- After a session the regions lie one behind the other. -/
theorem sized : Sized session.tires session.regions.sizes :=
  Sized.run (show Sized TireFire.new Separate.new.sizes from Sized.new) session.calls

/-- A session that goes on keeps the regions it has. -/
theorem sizes_goOn (more : List TireCall)
    : ∃ sizes, (session.goOn more).regions.sizes = session.regions.sizes ++ sizes := by
  have split : (session.goOn more).calls = session.calls ++ more := rfl
  unfold regions
  rw [split, List.foldl_append]
  exact Separate.sizes_prefix _ more

/-- The layout of every session, whatever places its mappings get. -/
theorem laidOut : LaidOut (session.mapped space) session.regions.sizes := by
  have mirrors := session.mirrors space
  have sized := session.sized
  constructor
  · rw [mirrors.latest, sized.latest]
  · rw [mirrors.size, sized.total]
  · intro index handed
    simp [MappedTireFire.getOffset, mirrors.offsets, sized.offsets, handed]
  · intro index handed
    simp [MappedTireFire.getMemory, MappedTireFire.getRoot, mirrors.pointers, sized.offsets,
      handed]
  · exact fun _ _ => start_succ
  · exact fun _ _ _ => InRegion.unique
  · exact covered_iff _

/-- Every cell of a region reads what was written through its index. -/
theorem cell_eq (inside : Separate.new.AllInside session.calls) {index size : Nat}
    (found : session.regions.sizes[index]? = some size) {inner : Nat} (below : inner < size)
    : (session.mapped space).space.cell
        ((session.mapped space).getRoot + (start session.regions.sizes index + inner))
      = (session.regions.owned index).cell inner := by
  have ends := end_le_sum found
  have sizedFirst : Sized (TireFire.new.getTire session.firstSize).2
      (Separate.new.apply (.getTire session.firstSize session.firstPlace)).sizes :=
    Sized.new.getTire session.firstSize
  have mapping : Shows (session.mapped space) session.tires :=
    Shows.run (Mirrors.first space session.firstSize session.firstPlace) sizedFirst
      (Shows.first space session.firstSize session.firstPlace) inside.2
  have sizedNew : Sized TireFire.new Separate.new.sizes := Sized.new
  have file : Owns session.tires.mem session.regions := Owns.run sizedNew Owns.new inside
  rw [← file.cells index size found inner below]
  exact mapping _ (by rw [session.sized.total]; omega)

end TireSession

/-- Whatever places the mappings get, the regions partition the file in the order of their
indices, offsets never change, every pointer is the root plus its offset, and what was
written through an index is read at its offset.
-/
theorem tireFire_consistent (space : Mem) (session : TireSession)
    : LaidOut (session.mapped space) session.regions.sizes
      ∧ (∀ more, ∀ index < session.regions.sizes.length,
          ((session.goOn more).mapped space).getOffset index
            = (session.mapped space).getOffset index)
      ∧ (Separate.new.AllInside session.calls
        → ∀ index size, session.regions.sizes[index]? = some size → ∀ inner < size,
            (session.mapped space).space.cell
                ((session.mapped space).getRoot + (start session.regions.sizes index + inner))
              = (session.regions.owned index).cell inner) := by
  refine ⟨session.laidOut space, ?_, ?_⟩
  · intro more index handed
    obtain ⟨sizes, longer⟩ := session.sizes_goOn more
    have later := ((session.goOn more).laidOut space).offsets index
      (by rw [longer, List.length_append]; omega)
    rw [later, (session.laidOut space).offsets index handed, longer,
      start_append _ (Nat.le_of_lt handed)]
  · exact fun inside index size found inner below => session.cell_eq space inside found below

/-- Two regions with an empty one between them, in a mapping that moves forth and back. -/
def threeTires : TireSession where
  firstSize := 2
  positive := by decide
  firstPlace := ⟨4096, by decide⟩
  later := [.write 0 1 [.byte 5], .getTire 0 ⟨8192, by decide⟩, .getTire 3 ⟨4096, by decide⟩]

/-- The write before the moves is read behind them. -/
theorem tireFire_consistent_three
    : (threeTires.mapped Mem.zero).space.cell ((threeTires.mapped Mem.zero).getRoot + 1)
      = .byte 5 :=
  ((tireFire_consistent Mem.zero threeTires).2.2
    ⟨trivial, ⟨2, rfl, by decide⟩, trivial, trivial, trivial⟩ 0 2 rfl 1 (by decide)).trans
    (by decide)

end ZippyFS
