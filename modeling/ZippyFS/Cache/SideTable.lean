import ZippyFS.Cache.OtherPaths

/-! The side table of dirty blocks. A flush writes the blocks that are listed there, so the
operations have to keep it in step with the blocks of the inodes, which all but one of them do.
-/

namespace ZippyFS

open Runs

namespace BlockCache

variable {env : Env} {now : Clock} {cache next : BlockCache} {path : Bytes} {names : Set Bytes}
  {op : Op} {result : Int} {inode before after source : Inode} {last bound : Nat}

-----------------------------------------------------------------------------------------
-- The side table in step
-----------------------------------------------------------------------------------------

/-- An inode that changed behind the last flush, and whose blocks are listed with such times. -/
structure InStep (last bound : Nat) (dirty : Std.ExtTreeMap Nat BlockRef)
    (mtimes : Std.ExtTreeMap Nat Nat) (inode : Inode)
    : Prop where
  stamped : last < inode.ulMtime ∧ inode.ulMtime ≤ bound
  listed
    : ∀ (blockIdx : Nat) (ref : BlockRef), inode.blocks[blockIdx]? = some ref
      → dirty[blockIdx]? = some ref ∧ last < mtimes[blockIdx]?.getD 0

section InStep

variable {dirty : Std.ExtTreeMap Nat BlockRef} {mtimes : Std.ExtTreeMap Nat Nat}

theorem InStep.mono {later : Nat} (inStep : InStep last bound dirty mtimes inode)
    (more : bound ≤ later)
    : InStep last later dirty mtimes inode :=
  ⟨⟨inStep.stamped.1, inStep.stamped.2.trans more⟩, inStep.listed⟩

/-- A change that adds no blocks. -/
theorem InStep.change (inStep : InStep last (Util.getTime now) dirty mtimes before)
    (later : last < Util.getTime now)
    (blocks
      : ∀ (blockIdx : Nat) (ref : BlockRef), after.blocks[blockIdx]? = some ref
        → before.blocks[blockIdx]? = some ref)
    (time : after.ulMtime = before.ulMtime ∨ after.ulMtime = Util.getTime now)
    : InStep last (Util.getTime now) dirty mtimes after where
  stamped := by
    rcases time with same | new
    · rw [same]
      exact inStep.stamped
    · rw [new]
      exact ⟨later, le_refl _⟩
  listed := fun blockIdx ref held => inStep.listed blockIdx ref (blocks blockIdx ref held)

/-- An inode without blocks. -/
theorem InStep.empty (later : last < Util.getTime now) (blocks : inode.blocks = ∅)
    (time : inode.ulMtime = Util.getTime now)
    : InStep last (Util.getTime now) dirty mtimes inode where
  stamped := by
    rw [time]
    exact ⟨later, le_refl _⟩
  listed := fun blockIdx ref held => by simp [blocks] at held

end InStep

/-- The state of the block loop is in step. -/
structure Writing.InStep (last bound : Nat) (state : Writing) : Prop where
  inode : BlockCache.InStep last bound state.dirty state.mtimes state.inode
  times : ∀ blockIdx : Nat, state.mtimes[blockIdx]?.getD 0 ≤ bound

/-- A round lists the block that it writes. -/
theorem Writing.InStep.writeBlock {buf : Bytes}
    {alloc blockIdx currIdx blockSize offsetAmt : Nat} {state : Writing}
    (inStep : Writing.InStep last (Util.getTime now) state) (later : last < Util.getTime now)
    : Writing.InStep last (Util.getTime now)
        (BlockCache.writeBlock now buf alloc blockIdx currIdx blockSize offsetAmt state) := by
  have stamped (other : Nat)
      : (state.mtimes.insert blockIdx (Util.getTime now))[other]?.getD 0
        = if other = blockIdx then Util.getTime now else state.mtimes[other]?.getD 0 := by
    rw [Tables.getElem?_insert]
    split <;> rfl
  have times (other : Nat)
      : (state.mtimes.insert blockIdx (Util.getTime now))[other]?.getD 0 ≤ Util.getTime now := by
    rw [stamped]
    split
    · exact le_refl _
    · exact inStep.times other
  unfold BlockCache.writeBlock
  split
  case h_1 temp known =>
    refine ⟨⟨⟨later, le_refl _⟩, fun other ref held => ?_⟩, times⟩
    rw [Tables.getElem?_insert, stamped]
    by_cases same : other = blockIdx
    · subst same
      rw [if_pos rfl, if_pos rfl]
      exact ⟨known.symm.trans held, later⟩
    · rw [if_neg same, if_neg same]
      exact inStep.inode.listed other ref held
  case h_2 absent =>
    refine ⟨⟨⟨later, le_refl _⟩, fun other ref held => ?_⟩, times⟩
    have held : (state.inode.blocks.insert blockIdx (alloc, blockIdx))[other]? = some ref := held
    change (state.dirty.insert blockIdx (alloc, blockIdx))[other]? = some ref
      ∧ last < (state.mtimes.insert blockIdx (Util.getTime now))[other]?.getD 0
    rw [Tables.getElem?_insert] at held
    rw [Tables.getElem?_insert, stamped]
    by_cases same : other = blockIdx
    · rw [if_pos same] at held ⊢
      rw [if_pos same]
      exact ⟨held, later⟩
    · rw [if_neg same] at held ⊢
      rw [if_neg same]
      exact inStep.inode.listed other ref held

/-- All inodes are in step with the side table, whose times are not behind the bound. -/
structure Current (last bound : Nat) (cache : BlockCache) : Prop where
  inStep
    : ∀ id inode, cache.ptr id = some inode
      → InStep last bound (cache.dirtyBlock[id]?.getD ∅) (cache.dirtyBlockMtime[id]?.getD ∅) inode
  times
    : ∀ (id : Bytes) (blockIdx : Nat),
      (cache.dirtyBlockMtime[id]?.getD ∅)[blockIdx]?.getD 0 ≤ bound

theorem Current.mono {later : Nat} (current : Current last bound cache) (more : bound ≤ later)
    : Current last later cache where
  inStep := fun id inode known => (current.inStep id inode known).mono more
  times := fun id blockIdx => (current.times id blockIdx).trans more

theorem Current.congr (current : Current last bound cache)
    (ptrs : next.inodePtrs = cache.inodePtrs) (dirty : next.dirtyBlock = cache.dirtyBlock)
    (mtimes : next.dirtyBlockMtime = cache.dirtyBlockMtime)
    : Current last bound next where
  inStep := by
    intro id inode known
    rw [ptr, ptrs] at known
    rw [dirty, mtimes]
    exact current.inStep id inode known
  times := mtimes ▸ current.times

theorem Current.put (current : Current last bound cache) (path : Bytes)
    (inStep
      : InStep last bound (cache.dirtyBlock[inode.inodeId]?.getD ∅)
        (cache.dirtyBlockMtime[inode.inodeId]?.getD ∅) inode)
    : Current last bound (cache.put path inode) where
  inStep := by
    intro id found known
    rw [ptr_put] at known
    split at known
    case isTrue same =>
      obtain rfl := Option.some.inj known
      rw [same]
      exact inStep
    case isFalse => exact current.inStep id found known
  times := current.times

theorem Current.set (current : Current last bound cache) (found : cache.find path = some before)
    (keeps : ∀ dirty mtimes, InStep last bound dirty mtimes before
      → InStep last bound dirty mtimes after)
    : Current last bound (cache.set path after) where
  inStep := by
    intro id inode known
    rw [ptr_set] at known
    split at known
    case isTrue same =>
      obtain rfl := Option.some.inj known
      exact keeps _ _ (current.inStep id before (same ▸ ptr_of_find found))
    case isFalse => exact current.inStep id inode known
  times := current.times

-----------------------------------------------------------------------------------------
-- Calls
-----------------------------------------------------------------------------------------

/-- A rename to another path takes no blocks along. -/
def MovesNoBlocks (cache : BlockCache) (op : Op) : Prop :=
  ∀ from_ to_, op = .rename from_ to_ → from_ = to_
    ∨ ∀ inode, cache.find from_ = some inode → inode.blocks = ∅

/-- A loader whose files are not mapped finds nothing. -/
theorem nothing_of_unmapped {loader : Loader} {getData : Bool} {di : DiskInodeInfo}
    (unmapped : loader.mapped = false)
    (lookup : loader.findLatestInode env path getData = .ok di)
    : di.mtime = 0 := by
  rw [Loader.findLatestInode] at lookup
  split at lookup
  · cases lookup
  · next closed =>
      rw [BPLUSIndexLoader.findLatestInode] at lookup
      split at lookup
      · rw [← Except.ok.inj lookup]
        rfl
      · next named =>
          have none : loader.fileToMem = [] := by
            by_contra some
            exact closed ⟨named, by simpa using some, by simp [unmapped]⟩
          rw [none] at lookup
          rw [← Except.ok.inj lookup]
          rfl

/-- It loads nothing. -/
theorem Ensured.of_unmapped (ensured : Ensured env now cache path result next)
    (unmapped : cache.loader.mapped = false)
    : next = cache := by
  cases ensured with
  | cached here => rfl
  | absent away lookup none => rfl
  | loaded away lookup some => exact absurd (nothing_of_unmapped unmapped lookup) some

theorem Current.makeFile (current : Current last (Util.getTime now) cache)
    (later : last < Util.getTime now) (path : Bytes) (mode : UInt32) (dirty : Bool)
    : Current last (Util.getTime now) (cache.makeFile env now path mode dirty) := by
  cases dirty with
  | true => exact (current.put path (.empty later rfl rfl)).congr rfl rfl rfl
  | false => exact (current.put path (.empty later rfl rfl)).congr rfl rfl rfl

theorem Current.deleted (current : Current last (Util.getTime now) cache)
    (later : last < Util.getTime now) (found : cache.find path = some inode)
    : Current last (Util.getTime now) (cache.set path (inode.deleteInode now)) :=
  current.set found fun _ _ inStep =>
    inStep.change later (fun _ _ held => by simp [Inode.deleteInode] at held) (Or.inr rfl)

theorem Current.decLinks (current : Current last (Util.getTime now) cache)
    (later : last < Util.getTime now) (path : Bytes)
    : Current last (Util.getTime now) (cache.decLinks path) where
  inStep := by
    intro id found known
    rw [ptr_decLinks, Option.map_eq_some_iff] at known
    obtain ⟨inode, there, rfl⟩ := known
    have inStep := current.inStep id inode there
    split
    · refine inStep.change later (fun blockIdx ref held => ?_) (Or.inl rfl)
      unfold Inode.decLink at held
      dsimp only at held
      split at held
      · simp at held
      · exact held
    · exact inStep
  times := current.times

/-- A rename keeps the table in step if it takes no blocks to another path. -/
theorem Current.moved {from_ to_ : Bytes} (current : Current last (Util.getTime now) cache)
    (later : last < Util.getTime now) (coherent : Coherent env names cache)
    (found : cache.find from_ = some source) (still : from_ = to_ ∨ source.blocks = ∅)
    : Current last (Util.getTime now) (cache.moved env now from_ to_ source) := by
  refine ((current.deleted later found).put to_ ?_).congr rfl rfl rfl
  rcases still with rfl | empty
  · have listed := current.inStep _ source (ptr_of_find found)
    rw [(coherent.idx (mem_of_find found)).1, Option.getD_some] at listed
    exact listed.change later (fun _ _ held => held) (Or.inr rfl)
  · exact .empty later empty rfl

theorem Current.written {buf : Bytes} {offset : Nat} {state : Writing}
    (current : Current last (Util.getTime now) cache) (later : last < Util.getTime now)
    (found : cache.find path = some inode)
    (loop : cache.runLoop now path buf offset inode = .ok state)
    : Current last (Util.getTime now) (cache.written path state) := by
  have inStep : Writing.InStep last (Util.getTime now) state := by
    refine writeLoop_invariant (P := Writing.InStep last (Util.getTime now))
      (fun _ _ _ _ _ inStep => inStep.writeBlock later) loop ⟨?_, current.times _⟩
    refine (current.inStep _ inode (ptr_of_find found)).change later ?_ ?_
    · intro blockIdx ref held
      rwa [grown_blocks] at held
    · unfold grown
      split
      · exact Or.inr rfl
      · exact Or.inl rfl
  have tables {A : Type} (table : Std.ExtTreeMap Bytes A) (entry : A) (id : Bytes)
      : (table.insert (cache.inodeIdx[path]?.getD []) entry)[id]?
        = if id = cache.inodeIdx[path]?.getD [] then some entry else table[id]? :=
    Tables.getElem?_insert ..
  constructor
  · intro id other known
    have known : (cache.set path state.inode).ptr id = some other := known
    rw [ptr_set] at known
    rw [BlockCache.written, tables, tables]
    split at known
    case isTrue same =>
      obtain rfl := Option.some.inj known
      rw [if_pos same, if_pos same]
      exact inStep.inode
    case isFalse different =>
      rw [if_neg different, if_neg different]
      exact current.inStep id other known
  · intro id blockIdx
    rw [BlockCache.written, tables]
    split
    · exact inStep.times blockIdx
    · exact current.times id blockIdx

/-- Every operation on files keeps the table in step, if no rename takes blocks along. -/
theorem Current.effect (current : Current last (Util.getTime now) cache)
    (later : last < Util.getTime now) (coherent : Coherent env names cache)
    (members : ∀ path ∈ op.paths, path ∈ names) (unmapped : cache.loader.mapped = false)
    (onFiles : op.onFiles = true) (still : MovesNoBlocks cache op)
    (effect : Effect env now cache op result next)
    : Current last (Util.getTime now) next := by
  cases effect with
  | makeFile path mode dirty => exact current.makeFile later path mode dirty
  | writeMissing missing => exact current
  | write ready loop =>
      have middle := ready.found
      cases ready with
      | cached here found =>
          refine Current.written ?_ later middle loop
          exact current.set found fun _ _ inStep =>
            inStep.change later (fun _ _ held => held) (Or.inl rfl)
      | loaded away lookup some => exact absurd (nothing_of_unmapped unmapped lookup) some
  | truncateMissing away => exact current
  | truncate here found =>
      refine (current.set found fun _ _ inStep => ?_).congr rfl rfl rfl
      exact inStep.change later (fun _ _ held => held) (Or.inr rfl)
  | removeMissing away => exact current
  | @remove path inode here noNulls found =>
      exact ((current.decLinks later path).deleted later found).congr rfl rfl rfl
  | rmdirMissing away => exact current
  | rmdir here found => exact (current.deleted later found).congr rfl rfl rfl
  | renameMissing missing => exact current
  | @renameOver from_ to_ first second source ensured target found =>
      obtain rfl := ensured.of_unmapped unmapped
      obtain rfl := target.of_unmapped unmapped
      exact current.moved later coherent found
        ((still from_ to_ rfl).imp_right fun empty => empty source found)
  | @renameNew from_ to_ first old source ensured target was found =>
      obtain rfl := ensured.of_unmapped unmapped
      have member := members to_ (List.mem_cons_of_mem _ (List.mem_singleton_self _))
      have created : Coherent env names (first.makeFile env now to_ old.mode true) :=
        coherent.makeFile old.mode true member
      have named : (((Inode.new env now to_).setMode now old.mode).setDirty).Named env := rfl
      refine (current.makeFile later to_ old.mode true).moved later created found ?_
      rcases still from_ to_ rfl with same | empty
      · exact Or.inl same
      · rcases eq_or_ne from_ to_ with same | different
        · exact Or.inl same
        · have kept : first.find from_ = some source := by
            rw [← found]
            exact ((coherent.find_put member named rfl).trans (if_neg different)).symm
          exact Or.inr (empty source kept)
  | open_ ensured => exact ensured.of_unmapped unmapped ▸ current
  | read ensured found bytes => exact ensured.of_unmapped unmapped ▸ current
  | _ => cases onFiles

/-- With the flag down nothing is cached. -/
theorem Effect.flagged (flagged : ∀ path ∈ cache.inodeIdx, cache.hasChanged = true)
    (unmapped : cache.loader.mapped = false) (onFiles : op.onFiles = true)
    (effect : Effect env now cache op result next)
    : ∀ path ∈ next.inodeIdx, next.hasChanged = true := by
  cases effect with
  | writeMissing missing => exact flagged
  | truncateMissing away => exact flagged
  | removeMissing away => exact flagged
  | rmdirMissing away => exact flagged
  | renameMissing missing => exact flagged
  | open_ ensured => exact ensured.of_unmapped unmapped ▸ flagged
  | read ensured found bytes => exact ensured.of_unmapped unmapped ▸ flagged
  | makeFile path mode dirty => exact fun _ _ => rfl
  | write ready loop => exact fun _ _ => rfl
  | truncate here found => exact fun _ _ => rfl
  | remove here noNulls found => exact fun _ _ => rfl
  | rmdir here found => exact fun _ _ => rfl
  | renameOver ensured target found => exact fun _ _ => rfl
  | renameNew ensured target was found => exact fun _ _ => rfl
  | _ => cases onFiles

end BlockCache

end ZippyFS
