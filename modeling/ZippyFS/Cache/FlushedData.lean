import ZippyFS.Cache.SideTable
import ZippyFS.Index.StoredRecords

/-! What a flush saves. The newest record and the newest blocks of a path on disk should be those of
the cached inode, which they are as long as the side table of dirty blocks was in step.
-/

namespace ZippyFS

open Runs NewestWins

variable {env : Env} {path : Bytes} {images : List Image}

/-- Files whose calls store nothing behind a time have no later records and no later blocks. -/
theorem Archived.upTo {last : Nat} (archived : Archived env (AddCall.UpTo last) images)
    {image : Image} (member : image ∈ images) {record : InodeRecord}
    (held : image.recordOf env path = some record)
    : record.mtime ≤ last ∧ ∀ stored ∈ image.blocksOf record, stored.mtime ≤ last := by
  obtain ⟨file, rfl, upTo⟩ := archived image member
  rcases file.recordOf_cases path with ⟨_, none⟩ | ⟨call, other, found, some, stores⟩
  · rw [none] at held
    cases held
  · obtain rfl := Option.some.inj (some.symm.trans held)
    have early := upTo call ((file.find_eq_some_iff _ _).mp found).1
    refine ⟨stores.mtime ▸ early.inode, ?_⟩
    rw [stores.blocks]
    intro stored inside
    obtain ⟨entry, _, rfl⟩ := List.mem_map.mp inside
    exact early.blocks entry.1

namespace BlockCache

variable {now : Clock} {cache next : BlockCache} {names : Set Bytes} {op : Op} {result : Int}
  {inode : Inode} {last bound : Nat}

-----------------------------------------------------------------------------------------
-- The law
-----------------------------------------------------------------------------------------

/-- The newest record of a path carries the mode, the size and the deleted flag of its inode, and
the newest version of each of its blocks carries the bytes of the block.
-/
structure Saved (env : Env) (cache : BlockCache) (path : Bytes) (inode : Inode)
    (images : List Image)
    : Prop where
  record : ∃ record, IsNewest InodeRecord.mtime (recordsOf env images path) record
  attributes
    : ∀ record, IsNewest InodeRecord.mtime (recordsOf env images path) record
      → record.mode = inode.mode ∧ record.size = inode.size ∧ record.deleted = inode.deleted
  block
    : ∀ (blockIdx : Nat) (ref : BlockRef), inode.blocks[blockIdx]? = some ref
      → ∃ stored, IsNewest StoredBlock.mtime (blocksOf env images path blockIdx) stored
  bytes
    : ∀ (blockIdx : Nat) (ref : BlockRef), inode.blocks[blockIdx]? = some ref
      → ∀ stored, IsNewest StoredBlock.mtime (blocksOf env images path blockIdx) stored
        → stored.bytes = (cache.heap ref).copied env (cache.heap ref).actualSize

/-- What is known along a run: the table is in step, and the files are older than the cache. -/
structure Kept (env : Env) (names : Set Bytes) (last bound : Nat) (cache : BlockCache)
    : Prop where
  coherent : Coherent env names cache
  current : Current last bound cache
  disk : Archived env (AddCall.UpTo last) cache.disk
  unmapped : cache.loader.mapped = false
  flagged : ∀ path ∈ cache.inodeIdx, cache.hasChanged = true
  ordered : last ≤ bound

/-- The file that a flush leaves holds what is stored of a cached path. -/
theorem Coherent.stores (coherent : Coherent env names cache)
    (found : cache.find path = some inode) {index : BPLUSIndex}
    (filled : cache.fill env = .ok index)
    : ∃ record, index.image.recordOf env path = some record
        ∧ index.image.Stores env record (cache.flushCall (path, inode.inodeId) inode) := by
  have id := (coherent.pointed.of_find found).1
  rw [(coherent.idx (mem_of_find found)).1, Option.some.injEq] at id
  obtain ⟨place, search, record⟩ := coherent.flushFits.recordOf coherent.pointed found filled
  exact ⟨_, Image.recordOf_eq (id ▸ search), record.stores⟩

/-- A flush of a cached path in step saves it. -/
theorem Kept.saved (kept : Kept env names last bound cache)
    (found : cache.find path = some inode) {index : BPLUSIndex}
    (filled : cache.fill env = .ok index)
    : Saved env cache path inode (cache.disk ++ [index.image]) := by
  have coherent := kept.coherent
  have inStep := kept.current.inStep _ inode (ptr_of_find found)
  rw [(coherent.pointed.of_find found).1, Option.getD_some] at inStep
  obtain ⟨written, held, stores⟩ := coherent.stores found filled
  have newest (other : InodeRecord)
      : IsNewest InodeRecord.mtime (recordsOf env (cache.disk ++ [index.image]) path) other
        ↔ other = written := by
    have split : recordsOf env (cache.disk ++ [index.image]) path
        = recordsOf env cache.disk path ++ [written] := by
      rw [recordsOf, List.filterMap_append, recordsOf, List.filterMap_cons, held,
        List.filterMap_nil]
    rw [split]
    refine isNewest_iff_of_latest (by simp) (fun old member => ?_) other
    rcases List.mem_append.mp member with before | last
    · obtain ⟨image, inside, older⟩ := List.mem_filterMap.mp before
      refine Or.inr ((kept.disk.upTo inside older).1.trans_lt ?_)
      rw [stores.mtime]
      exact inStep.stamped.1
    · exact Or.inl (List.mem_singleton.mp last)
  have blocks (blockIdx : Nat) (ref : BlockRef) (block : inode.blocks[blockIdx]? = some ref)
      (other : StoredBlock)
      : IsNewest StoredBlock.mtime (blocksOf env (cache.disk ++ [index.image]) path blockIdx) other
        ↔ other = ⟨blockIdx, (cache.dirtyBlockMtime[inode.inodeId]?.getD ∅)[blockIdx]?.getD 0,
          (cache.heap ref).copied env (cache.heap ref).actualSize⟩ := by
    obtain ⟨listed, later⟩ := inStep.listed blockIdx ref block
    have dirty : (cache.dirtyBlocksOf inode.inodeId)[blockIdx]? = some (cache.heap ref) := by
      rw [dirtyBlocksOf, Std.ExtTreeMap.getElem?_map, listed, Option.map_some]
    refine isNewest_iff_of_latest ?_ (fun old member => ?_) other
    · refine mem_blocksOf.mpr ⟨rfl, index.image, by simp, _, held, ?_⟩
      rw [stores.blocks]
      exact List.mem_map.mpr
        ⟨(blockIdx, cache.heap ref), Std.ExtTreeMap.mem_toList_iff_getElem?_eq_some.mpr dirty, rfl⟩
    · obtain ⟨number, image, inside, record, held', stored⟩ := mem_blocksOf.mp member
      rcases List.mem_append.mp inside with before | new
      · exact Or.inr (((kept.disk.upTo before held').2 old stored).trans_lt later)
      · obtain rfl := List.mem_singleton.mp new
        obtain rfl := Option.some.inj (held.symm.trans held')
        rw [stores.blocks] at stored
        obtain ⟨entry, listed', rfl⟩ := List.mem_map.mp stored
        obtain rfl : entry.1 = blockIdx := number
        have same := Std.ExtTreeMap.mem_toList_iff_getElem?_eq_some.mp listed'
        have same : some entry.2 = some (cache.heap ref) := same.symm.trans dirty
        rw [Option.some.inj same]
        exact Or.inl rfl
  exact {
    record := ⟨_, (newest _).mpr rfl⟩
    attributes := by
      intro other is
      rw [(newest other).mp is]
      exact ⟨stores.mode, stores.size, stores.deleted⟩
    block := fun blockIdx ref block => ⟨_, (blocks blockIdx ref block _).mpr rfl⟩
    bytes := by
      intro blockIdx ref block stored is
      rw [(blocks blockIdx ref block stored).mp is]
  }

/-- A new process over files that are older than everything it will write. -/
theorem Kept.restart {disk : List Image} (archived : Archived env (AddCall.UpTo last) disk)
    (ordered : last ≤ bound) (apart : Set.InjOn (Util.cryptoHash env) names)
    (order : VisitOrder) (size : Nat)
    : Kept env names last bound (BlockCache.new disk order size) where
  coherent := Coherent.new disk order size apart
  current := ⟨fun id inode known => by simp [ptr, BlockCache.new] at known, by
    simp [BlockCache.new]⟩
  disk := archived
  unmapped := rfl
  flagged := fun path member => absurd member Std.ExtTreeMap.not_mem_empty
  ordered := ordered

/-- An operation on files that comes later. -/
theorem Kept.effect (kept : Kept env names last bound cache) (later : bound < Util.getTime now)
    (members : ∀ path ∈ op.paths, path ∈ names) (onFiles : op.onFiles = true)
    (still : MovesNoBlocks cache op) (effect : Effect env now cache op result next)
    : Kept env names last (Util.getTime now) next := by
  have same := effect.sameDisk onFiles
  have after := kept.ordered.trans_lt later
  exact {
    coherent := kept.coherent.effect (plain_of_onFiles onFiles members) effect
    current := (kept.current.mono later.le).effect after kept.coherent members kept.unmapped onFiles
      still effect
    disk := same.disk ▸ kept.disk
    unmapped := same.loader ▸ kept.unmapped
    flagged := effect.flagged kept.flagged kept.unmapped onFiles
    ordered := after.le
  }

/-- A flush that comes later. -/
theorem Kept.flushed (kept : Kept env names last bound cache)
    (flush : Flushed env cache result next)
    : ∃ last, Kept env names last bound next := by
  have coherent := kept.coherent.flushed flush
  obtain ⟨loader, disk⟩ := flush.added kept.coherent.pointed fun _ => kept.coherent.flushFits
  cases flush with
  | nothing unchanged => exact ⟨last, kept⟩
  | flushed changed filled =>
      refine ⟨bound, coherent, ⟨fun id inode known => ?_, kept.current.times⟩, ?_, kept.unmapped,
        fun path member => absurd member Std.ExtTreeMap.not_mem_empty, le_refl _⟩
      · simp [ptr, BlockCache.flushed] at known
      · have older : Archived env (AddCall.UpTo bound) cache.disk :=
          kept.disk.mono fun call upTo => ⟨upTo.inode.trans kept.ordered, fun blockIdx =>
            (upTo.blocks blockIdx).trans kept.ordered⟩
        rcases disk with same | ⟨fits, some, added⟩
        · exact same ▸ older
        · rw [added]
          intro image member
          rcases List.mem_append.mp member with old | new
          · exact older image old
          · refine ⟨_, List.mem_singleton.mp new, fits.treeFile_calls _ some ?_⟩
            intro path inode found
            exact ⟨(kept.current.inStep _ inode (ptr_of_find found)).stamped.2,
              kept.current.times inode.inodeId⟩

end BlockCache

/-- A flush, in the background or not. -/
def Op.isFlush : Op → Bool
  | flushToDisk | flushToShdw _ => true
  | _ => false

/-- The time of a turn. -/
def Turn.time : Turn → Option Nat
  | call event => some (Util.getTime event.now)
  | restart _ _ => none

namespace BlockCache

/-- A turn that was carried out, with no rename that takes blocks to another path. -/
structure TurnsInStep (env : Env) (cache : BlockCache) (turn : Turn) (next : BlockCache)
    : Prop where
  taken : Turns env cache turn next
  still : ∀ event, turn = .call event → MovesNoBlocks cache event.op

/-- A turn that comes later. -/
theorem Kept.turn {turn : Turn} (kept : Kept env names last bound cache)
    (taken : TurnsInStep env cache turn next)
    (ops : ∀ event, turn = .call event → event.op.onFiles = true ∨ event.op.isFlush = true)
    (members : ∀ path ∈ turn.paths, path ∈ names) (later : ∀ time ∈ turn.time, bound < time)
    : ∃ last bound', (bound' = bound ∨ bound' ∈ turn.time) ∧ Kept env names last bound' next := by
  cases turn with
  | restart order size =>
      rw [show next = BlockCache.new cache.disk order size from taken.taken]
      exact ⟨last, bound, Or.inl rfl,
        .restart kept.disk kept.ordered kept.coherent.apart order size⟩
  | call event =>
      have effect := step_effect taken.taken
      rcases ops event rfl with onFiles | flush
      · exact ⟨last, _, Or.inr rfl, kept.effect (later _ rfl) members onFiles
          (taken.still event rfl) effect⟩
      · obtain ⟨now, op, result⟩ := event
        cases effect with
        | flushToDisk flushed =>
            obtain ⟨last, kept⟩ := kept.flushed flushed
            exact ⟨last, bound, Or.inl rfl, kept⟩
        | flushToShdwKept small => exact ⟨last, bound, Or.inl rfl, kept⟩
        | flushToShdw flushed =>
            obtain ⟨last, kept⟩ := kept.flushed flushed
            exact ⟨last, bound, Or.inl rfl, kept⟩
        | _ => cases flush

/-- After every such run at increasing times, the table is in step. -/
theorem Kept.run {turns : List Turn} {first : VisitOrder} {size : Nat}
    (run : Run (TurnsInStep env) (BlockCache.new [] first size) turns cache)
    (ops
      : ∀ event, Turn.call event ∈ turns → event.op.onFiles = true ∨ event.op.isFlush = true)
    (clock : (turns.filterMap Turn.time).Pairwise (· < ·))
    (apart : Set.InjOn (Util.cryptoHash env) (namedIn turns))
    : ∃ last bound, Kept env (namedIn turns) last bound cache := by
  have known : (turns.filterMap Turn.time).Pairwise (· < ·)
      → ∃ last bound, (bound = 0 ∨ bound ∈ turns.filterMap Turn.time)
        ∧ Kept env (namedIn turns) last bound cache := by
    refine run.recorded.invariant (P := fun done state =>
      (done.filterMap Turn.time).Pairwise (· < ·)
      → ∃ last bound, (bound = 0 ∨ bound ∈ done.filterMap Turn.time)
        ∧ Kept env (namedIn turns) last bound state) ?_ ?_
    · intro _
      exact ⟨0, 0, Or.inl rfl, .restart (fun image member => by simp at member) (le_refl 0) apart
        first size⟩
    · rintro done state turn next - before ⟨member, taken⟩ clock
      rw [List.filterMap_append, List.pairwise_append] at clock
      obtain ⟨last, bound, origin, kept⟩ := before clock.1
      have here {time : Nat} (is : time ∈ turn.time) : time ∈ [turn].filterMap Turn.time :=
        List.mem_filterMap.mpr ⟨turn, List.mem_singleton_self _, is⟩
      have later : ∀ time ∈ turn.time, bound < time := by
        intro time is
        rcases origin with rfl | earlier
        · cases turn with
          | restart order size => cases is
          | call event =>
              obtain rfl := Option.some.inj is
              exact Util.getTime_pos event.now
        · exact clock.2.2 bound earlier time (here is)
      obtain ⟨last', bound', origin', kept'⟩ := kept.turn taken
        (fun event same => ops event (same ▸ member)) (fun path inside => ⟨turn, member, inside⟩)
        later
      refine ⟨last', bound', ?_, kept'⟩
      rw [List.filterMap_append, List.mem_append]
      rcases origin' with rfl | new
      · exact origin.imp_right Or.inl
      · exact Or.inr (Or.inr (here new))
  obtain ⟨last, bound, -, kept⟩ := known clock
  exact ⟨last, bound, kept⟩

end BlockCache

end ZippyFS
