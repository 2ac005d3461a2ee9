import ZippyFS.Cache.Flush

/-! Reading back what was flushed. A flush empties the cache and writes a new file, but the
loader goes on searching the files that were mapped before, until a directory is listed.
-/

namespace ZippyFS

open Runs

namespace BPLUSIndexLoader

/-- The records that the loop of `find_latest_inode` reads when data is asked for. -/
def visitedRecords (phash : Bytes) : List Image → Except Fault (List InodeRecord)
  | [] => .ok []
  | tree :: rest => do
      match ← findInTree tree phash with
      | none => .ok []
      | some inodeoff =>
          let inode := tree.inode inodeoff.toNat
          if inode.blockData = -1 then .ok [inode]
          else do
            let more ← visitedRecords phash rest
            .ok (inode :: more)

/-- What is found is as new as the newest record read, by induction on the files. -/
theorem visitTrees_mtime (phash : Bytes) (trees : List Image) {latestTime : Nat}
    {latest : DiskInodeInfo} (current : latest.mtime = latestTime)
    : (∀ fault, visitedRecords phash trees = .error fault
        → visitTrees phash true trees latestTime latest = .error fault)
      ∧ (∀ records, visitedRecords phash trees = .ok records
        → ∃ di, visitTrees phash true trees latestTime latest = .ok di
          ∧ ∀ bound, bound ≤ di.mtime
            ↔ bound ≤ latestTime ∨ ∃ record ∈ records, bound ≤ record.mtime) := by
  induction trees generalizing latestTime latest with
  | nil =>
      refine ⟨fun fault none => (by cases none), ?_⟩
      intro records read
      obtain rfl := Except.ok.inj read
      exact ⟨latest, rfl, by simp [current]⟩
  | cons tree rest ih =>
      rw [visitedRecords, visitTrees]
      cases search : findInTree tree phash with
      | error fault =>
          constructor
          · intro other failed
            obtain rfl := Except.error.inj failed
            rfl
          · intro records read
            cases read
      | ok inodeoff =>
          cases inodeoff with
          | none =>
              refine ⟨fun fault none => (by cases none), ?_⟩
              intro records read
              obtain rfl := Except.ok.inj read
              exact ⟨latest, rfl, by simp [current]⟩
          | some inodeoff =>
              simp only [bind, Except.bind]
              generalize tree.inode inodeoff.toNat = inode
              -- The newer record takes the place of the one kept.
              have taken : (if decide (latestTime < inode.mtime) then takeRecord phash latest inode
                  else latest).mtime
                  = if decide (latestTime < inode.mtime) then inode.mtime else latestTime := by
                split
                · rfl
                · exact current
              have newest (bound : Nat)
                  : bound ≤ (if decide (latestTime < inode.mtime) then inode.mtime else latestTime)
                    ↔ bound ≤ latestTime ∨ bound ≤ inode.mtime := by
                simp only [decide_eq_true_eq]
                split <;> omega
              by_cases last : inode.blockData = -1
              · simp only [last, if_true]
                refine ⟨fun fault none => (by cases none), ?_⟩
                intro records read
                obtain rfl := Except.ok.inj read
                refine ⟨_, rfl, ?_⟩
                intro bound
                rw [taken, newest]
                simp
              · simp only [if_neg last, if_true]
                have stamped (entries : List BlockData) :=
                  (foldl_addBlock_attributes tree entries (if decide (latestTime < inode.mtime)
                    then takeRecord phash latest inode else latest)).1.trans taken
                obtain ⟨failing, reading⟩ := ih
                  (stamped (tree.blockEntries inode.blockData.toNat inode.blockDataSize))
                constructor
                · intro fault failed
                  cases more : visitedRecords phash rest with
                  | error other =>
                      rw [more] at failed
                      obtain rfl := Except.error.inj failed
                      exact failing other more
                  | ok records => simp [more] at failed
                · intro records read
                  cases more : visitedRecords phash rest with
                  | error other => simp [more] at read
                  | ok others =>
                      rw [more] at read
                      obtain rfl := Except.ok.inj read
                      obtain ⟨di, outcome, bounds⟩ := reading others more
                      refine ⟨di, outcome, ?_⟩
                      intro bound
                      rw [bounds, newest, or_assoc]
                      simp

end BPLUSIndexLoader

variable {env : Env}

/-- A lookup returns a record that is at least as new. -/
def Loader.Finds (env : Env) (loader : Loader) (path : Bytes) (mtime : Nat) : Prop :=
  ∃ di, loader.findLatestInode env path true = .ok di ∧ di.mtime ≠ 0 ∧ mtime ≤ di.mtime

/-- The search for a path goes through without a fault, and one of the records that it reads is
at least as new.
-/
structure Loader.Reaches (env : Env) (loader : Loader) (path : Bytes) (mtime : Nat) : Prop where
  named : path ≠ []
  mapped : loader.mapped = true
  record
    : ∃ records,
        BPLUSIndexLoader.visitedRecords (Util.cryptoHash env path) loader.fileToMem = .ok records
        ∧ ∃ record ∈ records, record.mtime ≠ 0 ∧ mtime ≤ record.mtime

/-- A lookup finds a version if and only if its search reaches one. -/
theorem Loader.finds_iff (loader : Loader) (path : Bytes) (mtime : Nat)
    : Finds env loader path mtime ↔ Reaches env loader path mtime := by
  have start : BPLUSIndexLoader.nothing.mtime = 0 := rfl
  obtain ⟨failing, reading⟩ :=
    BPLUSIndexLoader.visitTrees_mtime (Util.cryptoHash env path) loader.fileToMem start
  constructor
  · rintro ⟨di, lookup, some, recent⟩
    unfold Loader.findLatestInode at lookup
    split at lookup
    case isTrue => cases lookup
    case isFalse available =>
      unfold BPLUSIndexLoader.findLatestInode at lookup
      split at lookup
      case isTrue =>
        obtain rfl := Except.ok.inj lookup
        exact absurd rfl some
      case isFalse named =>
        cases read : BPLUSIndexLoader.visitedRecords (Util.cryptoHash env path)
            loader.fileToMem with
        | error fault =>
            rw [failing fault read] at lookup
            cases lookup
        | ok records =>
            obtain ⟨other, outcome, bounds⟩ := reading records read
            rw [outcome] at lookup
            obtain rfl := Except.ok.inj lookup
            rcases (bounds (max 1 mtime)).mp (by omega) with impossible | ⟨record, member, newer⟩
            · omega
            · refine ⟨named, ?_, records, read, record, member, by omega, by omega⟩
              by_contra unmapped
              refine available ⟨named, ?_, by simpa using unmapped⟩
              cases files : loader.fileToMem with
              | nil =>
                  rw [files] at read
                  obtain rfl := Except.ok.inj read
                  cases member
              | cons tree rest => rfl
  · rintro ⟨named, mapped, records, read, record, member, some, recent⟩
    obtain ⟨di, outcome, bounds⟩ := reading records read
    have newest := (bounds record.mtime).mpr (Or.inr ⟨record, member, le_refl _⟩)
    refine ⟨di, ?_, by omega, by omega⟩
    rw [Loader.findLatestInode, if_neg (by simp [mapped]), BPLUSIndexLoader.findLatestInode,
      if_neg named, outcome]

/-- The operations that make the loader map the files on disk anew. -/
def Op.reloads : Op → Bool
  | loadTrees _ | readdir .. => true
  | makeFile .. | write .. | truncate .. | remove _ | rmdir _ | rename .. | symlink ..
  | open_ _ | read .. | readlink .. | getattr _ | getRefs _ | inCache _ | loadFromDisk _
  | getInodeByPath _ | flushToDisk | flushToShdw _ => false

namespace BlockCache

variable {env : Env} {now : Clock} {cache next final : BlockCache} {path : Bytes}
  {result : Int} {inode : Inode} {later : List Event}

-----------------------------------------------------------------------------------------
-- The loader
-----------------------------------------------------------------------------------------

theorem Ready.loader (ready : Ready env now cache path next inode)
    : next.loader = cache.loader := by
  cases ready <;> rfl

theorem Loaded.loader (loaded : Loaded env now cache path result next)
    : next.loader = cache.loader := by
  cases loaded <;> rfl

theorem Flushed.loader (flushed : Flushed env cache result next)
    : next.loader = cache.loader := by
  cases flushed <;> rfl

/-- The other operations keep the mapped files. -/
theorem Effect.loader {op : Op} (effect : Effect env now cache op result next)
    (keeps : op.reloads = false)
    : next.loader = cache.loader := by
  cases effect with
  | makeFile path mode dirty => rfl
  | writeMissing missing => rfl
  | write ready loop => exact ready.loader
  | truncateMissing away => rfl
  | truncate here found => rfl
  | removeMissing away => rfl
  | remove here noNulls found => rfl
  | rmdirMissing away => rfl
  | rmdir here found => rfl
  | renameMissing missing => rfl
  | renameOver ensured target found => exact target.loader.trans ensured.loader
  | renameNew ensured target was found => exact ensured.loader
  | symlink from_ to_ => rfl
  | open_ ensured => exact ensured.loader
  | read ensured found bytes => exact ensured.loader
  | readlink outcome => rfl
  | getattr outcome => rfl
  | getRefs outcome => rfl
  | inCache path => rfl
  | loadFromDisk loaded => exact loaded.loader
  | getInodeByPath path => rfl
  | flushToDisk flushed => exact flushed.loader
  | flushToShdwKept small => rfl
  | flushToShdw flushed => exact flushed.loader
  | loadTrees order => cases keeps
  | readdir order path => cases keeps

/-- A run without reloads keeps the mapped files, by induction on it. -/
theorem loader_run (run : Run (Steps env) cache later final)
    (keeps : ∀ event ∈ later, event.op.reloads = false)
    : final.loader = cache.loader := by
  refine run.recorded.state_invariant (P := fun state => state.loader = cache.loader) rfl ?_
  rintro state event next same ⟨member, taken⟩
  rw [(step_effect taken).loader (keeps event member), same]

-----------------------------------------------------------------------------------------
-- Reading back
-----------------------------------------------------------------------------------------

/-- Every path that a flush took out of the cache is found again, as new as it was. -/
def ReadsOwnFlush (env : Env) (cache final : BlockCache) : Prop :=
  ∀ path inode, cache.find path = some inode
    → Loader.Finds env final.loader path inode.ulMtime

/-- After a flush, and before a directory is listed again, every flushed path is found if and
only if the files that were mapped before the flush already hold a version of it that is as new.
-/
theorem readsOwnFlush_iff {later : List Event}
    (flush : cache.flushToDisk env = .ok (0, next)) (run : Run (Steps env) next later final)
    (keeps : ∀ event ∈ later, event.op.reloads = false)
    : ReadsOwnFlush env cache final
      ↔ ∀ path inode, cache.find path = some inode
        → Loader.Reaches env cache.loader path inode.ulMtime := by
  have same : final.loader = cache.loader :=
    (loader_run run keeps).trans (flushToDisk_flushed flush).loader
  unfold ReadsOwnFlush
  rw [same]
  simp only [Loader.finds_iff]

/-- A flush of the file `/a`, right after it. -/
theorem readsOwnFlush_iff_created
    : ∃ next, withFile.flushToDisk Util.twoDigests = .ok (0, next)
      ∧ (ReadsOwnFlush Util.twoDigests withFile next
        ↔ ∀ path inode, withFile.find path = some inode
          → Loader.Reaches Util.twoDigests withFile.loader path inode.ulMtime) := by
  obtain ⟨index, flush⟩ := flush_withFile
  exact ⟨withFile.flushed index, flush, readsOwnFlush_iff flush .nil (by simp)⟩

/-- A file that was created and flushed is not found. -/
theorem readsOwnFlush_created
    : ∃ next,
        Run (Steps Util.twoDigests) fresh
          [⟨.at_ 1, .makeFile [47, 97] 0o100644 true, 0⟩, ⟨.at_ 2, .flushToDisk, 0⟩] next
        ∧ ¬ ReadsOwnFlush Util.twoDigests withFile next := by
  obtain ⟨index, flush⟩ := flush_withFile
  refine ⟨withFile.flushed index, .snoc (.snoc .nil rfl) flush, ?_⟩
  intro reads
  have here : (withFile.find [47, 97]).isSome := by decide +kernel
  obtain ⟨inode, found⟩ := Option.isSome_iff_exists.mp here
  obtain ⟨di, lookup, some, _⟩ := reads [47, 97] inode found
  obtain rfl := Except.ok.inj lookup
  exact some rfl

end BlockCache

end ZippyFS
