import ZippyFS.Cache.ChangeFlag
import ZippyFS.Cache.Flush
import ZippyFS.Index.LatestInode
import ZippyFS.Lib.Outcomes

/-! What is on disk. Every file there was written by a flush, so what a lookup returns was the
state of some cached inode before, in this process or in an earlier one over the same directory.
-/

namespace ZippyFS

open Runs NewestWins Outcomes

-----------------------------------------------------------------------------------------
-- Processes
-----------------------------------------------------------------------------------------

/-- A call, or the start of a new process over the directory that the last one left. -/
inductive Turn where
  | call (event : Event)
  | restart (order : VisitOrder) (size : Nat)

/-- The paths that a turn names. -/
def Turn.paths : Turn → List Bytes
  | call event => event.op.paths
  | restart _ _ => []

/-- The paths that the turns of a run name. -/
def namedIn (turns : List Turn) : Set Bytes := {path | ∃ turn ∈ turns, path ∈ turn.paths}

/-- A turn that was carried out. -/
def Turns (env : Env) (cache : BlockCache) : Turn → BlockCache → Prop
  | .call event, next => Steps env cache event next
  | .restart order size, next => next = BlockCache.new cache.disk order size

/-- Carry out turns one after the other, as long as the calls return what they should. -/
def replay (env : Env) : BlockCache → List Turn → Except Fault BlockCache
  | cache, [] => .ok cache
  | cache, .call event :: rest => do
      let (result, next) ← step env event.now cache event.op
      if result = event.result then replay env next rest else .error .assertion
  | cache, .restart order size :: rest => replay env (BlockCache.new cache.disk order size) rest

/-- Turns that can be carried out are a run, by induction on them. -/
theorem replay_run {env : Env} {cache final : BlockCache} {turns : List Turn}
    (replayed : replay env cache turns = .ok final)
    : Run (Turns env) cache turns final := by
  induction turns generalizing cache with
  | nil =>
      rw [replay, Except.ok.injEq] at replayed
      exact replayed ▸ .nil
  | cons turn rest ih =>
      cases turn with
      | restart order size =>
          have first : Run (Turns env) cache [.restart order size]
              (BlockCache.new cache.disk order size) := .snoc .nil rfl
          exact first.append (ih replayed)
      | call event =>
          rw [replay] at replayed
          obtain ⟨⟨result, next⟩, taken, replayed⟩ := bind_eq_ok.mp replayed
          dsimp only at replayed
          split at replayed
          · next same =>
              have first : Run (Turns env) cache [.call event] next :=
                .snoc .nil (by rw [Turns, Steps, taken, same])
              exact first.append (ih replayed)
          · cases replayed

/-- A property that was tested after turns holds after a run of them. -/
theorem exists_run {env : Env} {cache : BlockCache} {turns : List Turn}
    {property : BlockCache → Bool}
    (tested : (replay env cache turns).toOption.any property = true)
    : ∃ final, Run (Turns env) cache turns final ∧ property final = true := by
  cases replayed : replay env cache turns with
  | error fault => simp [replayed, Except.toOption] at tested
  | ok final =>
      refine ⟨final, replay_run replayed, ?_⟩
      simpa [replayed, Except.toOption] using tested

/-- A run of calls alone is a run of one process. -/
theorem steps_of_turns {env : Env} {cache final : BlockCache} {events : List Event}
    (run : Run (Turns env) cache (events.map .call) final)
    : Run (Steps env) cache events final := by
  refine run.invariant (P := fun turns state => ∀ events : List Event, events.map .call = turns
    → Run (Steps env) cache events state) ?_ ?_ events rfl
  · intro events none
    rw [List.map_eq_nil_iff.mp none]
    exact .nil
  · rintro turns state turn next - ih taken events split
    obtain ⟨before, last, rfl, first, single⟩ := List.map_eq_append_iff.mp split
    obtain ⟨event, rfl, rfl⟩ := List.map_eq_singleton_iff.mp single
    exact .snoc (ih before first) taken

/-- The same for a test after calls. -/
theorem exists_calls {env : Env} {cache : BlockCache} {events : List Event}
    {property : BlockCache → Bool}
    (tested : (replay env cache (events.map .call)).toOption.any property = true)
    : ∃ final, Run (Steps env) cache events final ∧ property final = true := by
  obtain ⟨final, run, holds⟩ := exists_run tested
  exact ⟨final, steps_of_turns run, holds⟩

/-- The same for a test after one call. -/
theorem exists_step {env : Env} {cache : BlockCache} {event : Event} {property : BlockCache → Bool}
    (tested : (replay env cache [.call event]).toOption.any property = true)
    : ∃ next, Steps env cache event next ∧ property next = true := by
  cases taken : step env event.now cache event.op with
  | error fault => simp [replay, taken, Except.toOption, bind, Except.bind] at tested
  | ok out =>
      by_cases same : out.1 = event.result
      · refine ⟨out.2, taken.trans (congrArg Except.ok (Prod.ext same rfl)), ?_⟩
        simpa [replay, taken, Except.toOption, bind, Except.bind, same] using tested
      · simp [replay, taken, Except.toOption, bind, Except.bind, same] at tested

-----------------------------------------------------------------------------------------
-- Files written by flushes
-----------------------------------------------------------------------------------------

/-- Every file was written by calls that all have a property. -/
def Archived (env : Env) (P : AddCall → Prop) (images : List Image) : Prop :=
  ∀ image ∈ images, ∃ file : TreeFile env, image = file.image ∧ ∀ call ∈ file.calls, P call

section Lookup

variable {env : Env} {P : AddCall → Prop} {images : List Image} {loader : Loader} {path : Bytes}
  {di : DiskInodeInfo}

/-- The files behind the images, by induction on the images. -/
theorem Archived.files (archived : Archived env P images)
    : ∃ files : List (TreeFile env), images = files.map (·.image)
        ∧ ∀ file ∈ files, ∀ call ∈ file.calls, P call := by
  induction images with
  | nil => exact ⟨[], rfl, by simp⟩
  | cons image rest ih =>
      obtain ⟨file, same, holds⟩ := archived image (List.mem_cons_self ..)
      obtain ⟨files, others, rests⟩ := ih (fun other member =>
        archived other (List.mem_cons_of_mem _ member))
      refine ⟨file :: files, by rw [List.map_cons, ← same, ← others], ?_⟩
      intro other member
      rcases List.mem_cons.mp member with rfl | later
      · exact holds
      · exact rests other later

theorem Archived.mono {Q : AddCall → Prop} (archived : Archived env P images)
    (weaker : ∀ call, P call → Q call)
    : Archived env Q images := by
  intro image member
  obtain ⟨file, same, holds⟩ := archived image member
  exact ⟨file, same, fun call inside => weaker call (holds call inside)⟩

/-- The attributes after some calls are those before, or those of one of the calls, by induction
on them.
-/
theorem foldl_visitCall_cases (env : Env) (phash : Bytes) (getData : Bool) (calls : List AddCall)
    (state : Nat × DiskInodeInfo)
    : (calls.foldl (BPLUSIndexLoader.visitCall env phash getData) state).2.attributes
          = state.2.attributes
        ∨ ∃ call ∈ calls,
          (calls.foldl (BPLUSIndexLoader.visitCall env phash getData) state).2.attributes
            = call.attributes := by
  induction calls generalizing state with
  | nil => exact Or.inl rfl
  | cons call rest ih =>
      have visited : (BPLUSIndexLoader.visitCall env phash getData state call).2.attributes
          = if state.1 < call.inode.ulMtime then call.attributes else state.2.attributes := by
        unfold BPLUSIndexLoader.visitCall
        by_cases newer : state.1 < call.inode.ulMtime
        · cases getData <;>
            simp only [newer, decide_true, if_true, Bool.false_eq_true, if_false,
              BPLUSIndexLoader.foldl_keepBlock_attributes] <;>
            rfl
        · cases getData <;>
            simp only [newer, decide_false, if_true, Bool.false_eq_true, if_false,
              BPLUSIndexLoader.foldl_keepBlock_attributes]
      rw [List.foldl_cons]
      rcases ih (BPLUSIndexLoader.visitCall env phash getData state call) with
        kept | ⟨other, member, taken⟩
      · rw [kept, visited]
        split
        · exact Or.inr ⟨call, List.mem_cons_self .., rfl⟩
        · exact Or.inl rfl
      · exact Or.inr ⟨other, List.mem_cons_of_mem _ member, taken⟩

/-- A visited record of a path belongs to one of the files. -/
theorem mem_of_visitedBy {files : List (TreeFile env)} {getData : Bool} {call : AddCall}
    (member : call ∈ visitedBy files path getData)
    : call.inode.inodeId = Util.cryptoHash env path ∧ ∃ file ∈ files, call ∈ file.calls := by
  have held := (visitedBy_sublist files path getData).subset member
  obtain ⟨file, inside, found⟩ := List.mem_filterMap.mp held
  obtain ⟨stored, same⟩ := (file.find_eq_some_iff _ _).mp found
  exact ⟨same, file, inside, stored⟩

/-- A lookup that finds something goes over the visited records of some files. -/
theorem Archived.lookup_files (archived : Archived env P loader.fileToMem)
    (lookup : loader.findLatestInode env path true = .ok di)
    : ∃ files : List (TreeFile env),
        (∀ file ∈ files, ∀ call ∈ file.calls, P call)
        ∧ BPLUSIndexLoader.findLatestInode env (files.map (·.image)) path true = .ok di := by
  obtain ⟨files, same, holds⟩ := archived.files
  unfold Loader.findLatestInode at lookup
  split at lookup
  · cases lookup
  · exact ⟨files, holds, same ▸ lookup⟩

/-- Without a path nothing is found. -/
theorem findLatestInode_nil (lookup : loader.findLatestInode env [] true = .ok di)
    : di = BPLUSIndexLoader.nothing := by
  unfold Loader.findLatestInode at lookup
  rw [if_neg (fun unmapped => unmapped.1 rfl), BPLUSIndexLoader.findLatestInode, if_pos rfl]
    at lookup
  exact (Except.ok.inj lookup).symm

/-- The attributes found for a path are those of one of its records. -/
theorem Archived.lookup (archived : Archived env P loader.fileToMem)
    (lookup : loader.findLatestInode env path true = .ok di) (some : di.mtime ≠ 0)
    : ∃ call, P call ∧ call.inode.inodeId = Util.cryptoHash env path
        ∧ di.attributes = call.attributes := by
  rcases eq_or_ne path [] with rfl | named
  · rw [findLatestInode_nil lookup] at some
    exact absurd rfl some
  · obtain ⟨files, holds, found⟩ := archived.lookup_files lookup
    rw [findLatestInode_eq named, Except.ok.injEq] at found
    subst found
    rcases foldl_visitCall_cases env (Util.cryptoHash env path) true
      (visitedBy files path true) (0, BPLUSIndexLoader.nothing) with kept | ⟨call, member, taken⟩
    · exact absurd (congrArg Attributes.mtime kept) some
    · obtain ⟨same, file, inside, stored⟩ := mem_of_visitedBy member
      exact ⟨call, holds file inside call stored, same, taken⟩

/-- A block found for a path is a copy of one that was stored in one of its records. -/
theorem Archived.lookup_block (archived : Archived env P loader.fileToMem)
    (lookup : loader.findLatestInode env path true = .ok di) {blockIdx : Nat} {block : Block}
    (known : di.blockData[blockIdx]? = some block)
    : ∃ call stored, P call ∧ call.inode.inodeId = Util.cryptoHash env path
        ∧ call.dirtyBlocks[blockIdx]? = some stored ∧ block = stored.readBack env := by
  rcases eq_or_ne path [] with rfl | named
  · rw [findLatestInode_nil lookup] at known
    simp [BPLUSIndexLoader.nothing] at known
  · obtain ⟨files, holds, found⟩ := archived.lookup_files lookup
    rw [findLatestInode_blocks named found, Option.map_eq_some_iff] at known
    obtain ⟨version, newest, rfl⟩ := known
    rcases scan_spec newer_le BlockVersion.mtime
      (versionsOf env blockIdx (visitedBy files path true)) with ⟨_, none⟩ | ⟨other, best, isNewest⟩
    · rw [none] at newest
      cases newest
    · obtain rfl := Option.some.inj (newest.symm.trans best)
      obtain ⟨among, index⟩ := List.mem_filter.mp isNewest.member
      obtain ⟨call, member, stored⟩ := List.mem_flatMap.mp among
      obtain ⟨⟨blockId, kept⟩, entry, rfl⟩ := List.mem_map.mp stored
      obtain rfl : blockId = blockIdx := of_decide_eq_true index
      obtain ⟨same, file, inside, there⟩ := mem_of_visitedBy member
      exact ⟨call, kept, holds file inside call there, same,
        Std.ExtTreeMap.mem_toList_iff_getElem?_eq_some.mp entry, rfl⟩

/-- The first of the files holds the path. -/
def FirstHolds (env : Env) (images : List Image) (path : Bytes) : Prop :=
  ∃ image rest di, images = image :: rest
    ∧ BPLUSIndexLoader.findLatestInode env [image] path false = .ok di ∧ di.mtime ≠ 0

/-- A lookup of attributes finds something exactly if it visits a record. -/
theorem exists_lookup {files : List (TreeFile env)} (named : path ≠ [])
    (stamped : ∀ file ∈ files, ∀ call ∈ file.calls, 0 < call.inode.ulMtime)
    : ∃ di, BPLUSIndexLoader.findLatestInode env (files.map (·.image)) path false = .ok di
      ∧ (di.mtime ≠ 0 ↔ visitedBy files path false ≠ []) := by
  have positive : ∀ call ∈ heldBy files path, 0 < call.mtime := by
    intro call member
    obtain ⟨file, inside, found⟩ := List.mem_filterMap.mp member
    exact stamped file inside call ((file.find_eq_some_iff _ _).mp found).1
  obtain ⟨di, lookup, shows⟩ := findLatestInode_attributes named positive false
  refine ⟨di, lookup, fun some none => some (shows.mtime_eq_zero none), fun visited => ?_⟩
  rcases shows with ⟨none, -⟩ | ⟨call, newest, same⟩
  · exact absurd none visited
  · have later := positive call ((visitedBy_sublist files path false).subset newest.member)
    have time : di.mtime = call.mtime := congrArg Attributes.mtime same
    omega

/-- A search for attributes visits something exactly if the first file holds the path. -/
theorem visitedBy_cons (file : TreeFile env) (rest : List (TreeFile env)) (path : Bytes)
    : visitedBy (file :: rest) path false ≠ []
      ↔ (file.find (Util.cryptoHash env path)).isSome = true := by
  unfold visitedBy
  rw [List.map_cons]
  cases file.find (Util.cryptoHash env path) with
  | none => simp [BPLUSIndexLoader.visited]
  | some call => simp [BPLUSIndexLoader.visited]

/-- A lookup of attributes finds something exactly if the first file holds the path. -/
theorem firstHolds_iff {files : List (TreeFile env)} (named : path ≠ [])
    (stamped : ∀ file ∈ files, ∀ call ∈ file.calls, 0 < call.inode.ulMtime)
    : FirstHolds env (files.map (·.image)) path ↔ visitedBy files path false ≠ [] := by
  cases files with
  | nil =>
      refine iff_of_false ?_ (by simp [visitedBy, BPLUSIndexLoader.visited])
      rintro ⟨image, rest, di, split, -⟩
      cases split
  | cons file rest =>
      obtain ⟨di, lookup, visits⟩ := @exists_lookup env path [file] named (fun other member =>
        stamped other (List.mem_cons.mpr (Or.inl (List.mem_singleton.mp member))))
      rw [visitedBy_cons, ← visitedBy_cons file [], ← visits]
      constructor
      · rintro ⟨image, others, di', split, lookup', some⟩
        obtain ⟨rfl, -⟩ := List.cons.inj split
        rwa [Except.ok.inj (lookup.symm.trans lookup')]
      · exact fun some => ⟨file.image, rest.map (·.image), di, rfl, lookup, some⟩

/-- What a loader finds of a path without its data, if it can read its files. -/
theorem Archived.shown (archived : Archived env P loader.fileToMem)
    (stamped : ∀ call, P call → 0 < call.inode.ulMtime)
    (readable : loader.fileToMem = [] ∨ loader.mapped = true) (path : Bytes)
    : ∃ di, loader.findLatestInode env path false = .ok di
      ∧ (di.mtime ≠ 0 ↔ FirstHolds env loader.fileToMem path) := by
  have open_ : loader.findLatestInode env path false
      = BPLUSIndexLoader.findLatestInode env loader.fileToMem path false := by
    unfold Loader.findLatestInode
    rw [if_neg]
    rintro ⟨-, some, unmapped⟩
    rcases readable with none | mapped
    · simp [none] at some
    · simp [mapped] at unmapped
  rw [open_]
  rcases eq_or_ne path [] with rfl | named
  · have nothing (images : List Image) : BPLUSIndexLoader.findLatestInode env images [] false
        = .ok BPLUSIndexLoader.nothing := by
      rw [BPLUSIndexLoader.findLatestInode, if_pos rfl]
    refine ⟨_, nothing _, iff_of_false (fun some => some rfl) ?_⟩
    rintro ⟨image, rest, di, -, lookup, some⟩
    rw [← Except.ok.inj ((nothing _).symm.trans lookup)] at some
    exact some rfl
  · obtain ⟨files, same, holds⟩ := archived.files
    have times : ∀ file ∈ files, ∀ call ∈ file.calls, 0 < call.inode.ulMtime :=
      fun file member call inside => stamped call (holds file member call inside)
    rw [same, firstHolds_iff named times]
    exact exists_lookup named times

/-- What the first file holds is one of the records. -/
theorem Archived.of_firstHolds {images : List Image} (archived : Archived env P images)
    (stamped : ∀ call, P call → 0 < call.inode.ulMtime) (first : FirstHolds env images path)
    : ∃ call, P call ∧ call.inode.inodeId = Util.cryptoHash env path := by
  rcases eq_or_ne path [] with rfl | named
  · obtain ⟨image, rest, di, -, lookup, some⟩ := first
    rw [BPLUSIndexLoader.findLatestInode, if_pos rfl] at lookup
    rw [← Except.ok.inj lookup] at some
    exact absurd rfl some
  · obtain ⟨files, rfl, holds⟩ := archived.files
    have visits := (firstHolds_iff named fun file member call inside =>
      stamped call (holds file member call inside)).mp first
    obtain ⟨call, member⟩ := List.exists_mem_of_ne_nil _ visits
    obtain ⟨same, file, inside, stored⟩ := mem_of_visitedBy member
    exact ⟨call, holds file inside call stored, same⟩

/-- What `getattr` returns for a path that is not cached. -/
theorem Archived.getattr_uncached {cache : BlockCache}
    (archived : Archived env P cache.loader.fileToMem)
    (stamped : ∀ call, P call → 0 < call.inode.ulMtime)
    (readable : cache.loader.fileToMem = [] ∨ cache.loader.mapped = true) (root : path ≠ [47])
    (away : path ∉ cache.inodeIdx)
    : (FirstHolds env cache.loader.fileToMem path
        → ∃ stat, cache.getattr env path = .ok (0, stat))
      ∧ (¬ FirstHolds env cache.loader.fileToMem path
        → cache.getattr env path = .ok (ENOENT, none)) := by
  have outside : cache.inCache path = false := by simp [BlockCache.inCache, away, root]
  obtain ⟨di, lookup, shown⟩ := archived.shown stamped readable path
  rw [BlockCache.getattr, if_neg (by simp [outside]), lookup, ok_bind]
  constructor
  · intro first
    exact ⟨_, if_neg (shown.mpr first)⟩
  · intro none
    exact if_pos (not_not.mp (mt shown.mp none))

end Lookup

-----------------------------------------------------------------------------------------
-- Calls and restarts keep it
-----------------------------------------------------------------------------------------

namespace BlockCache

variable {env : Env} {P : AddCall → Prop} {now : Clock} {cache next : BlockCache} {path : Bytes}
  {result : Int} {names : Set Bytes}

/-- The directory and the loader know such files only. -/
structure Backed (env : Env) (P : AddCall → Prop) (cache : BlockCache) : Prop where
  disk : Archived env P cache.disk
  loader : Archived env P cache.loader.fileToMem

/-- The directory and the loader are left alone. -/
structure SameDisk (cache next : BlockCache) : Prop where
  disk : next.disk = cache.disk
  loader : next.loader = cache.loader

theorem SameDisk.trans {last : BlockCache} (first : SameDisk cache next)
    (second : SameDisk next last)
    : SameDisk cache last :=
  ⟨second.disk.trans first.disk, second.loader.trans first.loader⟩

theorem Backed.congr (backed : Backed env P cache) (same : SameDisk cache next)
    : Backed env P next where
  disk := same.disk ▸ backed.disk
  loader := same.loader ▸ backed.loader

theorem Backed.mono {Q : AddCall → Prop} (backed : Backed env P cache)
    (weaker : ∀ call, P call → Q call)
    : Backed env Q cache where
  disk := backed.disk.mono weaker
  loader := backed.loader.mono weaker

/-- A new process knows the files that it finds in the directory. -/
theorem Backed.restart {disk : List Image} (archived : Archived env P disk) (order : VisitOrder)
    (size : Nat)
    : Backed env P (BlockCache.new disk order size) where
  disk := archived
  loader := fun image member => archived image ((order.perm disk).mem_iff.mp member)

theorem Backed.loadTrees (backed : Backed env P cache) (order : VisitOrder)
    : Backed env P (cache.loadTrees order) where
  disk := backed.disk
  loader := fun image member => backed.disk image ((order.perm cache.disk).mem_iff.mp member)

/-- A flush that fits adds at most one file, the one that its calls make. -/
theorem Flushed.added (flush : Flushed env cache result next) (pointed : Pointed env names cache)
    (fits : result = 0 → cache.FlushFits)
    : next.loader = cache.loader
      ∧ (next.disk = cache.disk
        ∨ ∃ (fits : cache.FlushFits) (some : cache.inodeIdx ≠ ∅),
          next.disk = cache.disk ++ [(fits.treeFile pointed some).image]) := by
  cases flush with
  | nothing unchanged => exact ⟨rfl, Or.inl rfl⟩
  | @flushed index changed filled =>
      refine ⟨rfl, ?_⟩
      by_cases none : cache.inodeIdx = ∅
      · exact Or.inl (by simp [BlockCache.flushed, none])
      · have some : cache.inodeIdx.isEmpty = false := by
          rwa [← Bool.not_eq_true, Std.ExtTreeMap.isEmpty_iff]
        obtain ⟨other, filled', same⟩ := (fits rfl).fill_eq pointed none
        obtain rfl := Except.ok.inj (filled.symm.trans filled')
        refine Or.inr ⟨fits rfl, none, ?_⟩
        rw [← same]
        simp [BlockCache.flushed, some]

/-- The records in that file are those of the cached inodes. -/
theorem FlushFits.treeFile_calls (fits : cache.FlushFits) (pointed : Pointed env names cache)
    (nonempty : cache.inodeIdx ≠ ∅)
    (written
      : ∀ path inode, cache.find path = some inode
        → P (cache.flushCall (path, inode.inodeId) inode))
    : ∀ call ∈ (fits.treeFile pointed nonempty).calls, P call := by
  intro call inside
  obtain ⟨ent, entry, made⟩ := List.mem_filterMap.mp inside
  obtain ⟨inode, found, id, _⟩ := pointed.entry entry
  rw [found, Option.map_some, Option.some.injEq] at made
  have holds := written ent.1 inode found
  rwa [id, made] at holds

/-- A flush that fits adds one file, whose records are those of the cached inodes. -/
theorem Backed.flushed (backed : Backed env P cache) (pointed : Pointed env names cache)
    (fits : result = 0 → cache.FlushFits)
    (written
      : ∀ path inode, cache.find path = some inode
        → P (cache.flushCall (path, inode.inodeId) inode))
    (flush : Flushed env cache result next)
    : Backed env P next := by
  obtain ⟨loader, disk⟩ := flush.added pointed fits
  refine ⟨?_, loader ▸ backed.loader⟩
  rcases disk with same | ⟨fits, some, added⟩
  · exact same ▸ backed.disk
  · rw [added]
    intro image member
    rcases List.mem_append.mp member with old | new
    · exact backed.disk image old
    · exact ⟨_, List.mem_singleton.mp new, fits.treeFile_calls pointed some written⟩

theorem Ensured.sameDisk (ensured : Ensured env now cache path result next)
    : SameDisk cache next := by
  cases ensured <;> exact ⟨rfl, rfl⟩

theorem Ready.sameDisk {inode : Inode} (ready : Ready env now cache path next inode)
    : SameDisk cache next := by
  cases ready <;> exact ⟨rfl, rfl⟩

theorem Loaded.sameDisk (loaded : Loaded env now cache path result next)
    : SameDisk cache next := by
  cases loaded <;> exact ⟨rfl, rfl⟩

/-- A call leaves the directory and the loader alone, flushes, or loads the files anew. -/
theorem Effect.disk {op : Op} (effect : Effect env now cache op result next)
    : SameDisk cache next
      ∨ ((result = 0 → Event.Flushes ⟨now, op, result⟩) ∧ Flushed env cache result next)
      ∨ ∃ order, next = cache.loadTrees order := by
  cases effect with
  | write ready loop => exact Or.inl (ready.sameDisk.trans ⟨rfl, rfl⟩)
  | renameOver ensured target found =>
      exact Or.inl ((ensured.sameDisk.trans target.sameDisk).trans ⟨rfl, rfl⟩)
  | renameNew ensured target was found => exact Or.inl (ensured.sameDisk.trans ⟨rfl, rfl⟩)
  | open_ ensured => exact Or.inl ensured.sameDisk
  | read ensured found bytes => exact Or.inl ensured.sameDisk
  | loadFromDisk loaded => exact Or.inl loaded.sameDisk
  | flushToDisk flushed => exact Or.inr (Or.inl ⟨fun done => ⟨Or.inl rfl, done⟩, flushed⟩)
  | @flushToShdw onClose _ _ flushed =>
      exact Or.inr (Or.inl ⟨fun done => ⟨Or.inr ⟨onClose, rfl⟩, done⟩, flushed⟩)
  | loadTrees order => exact Or.inr (Or.inr ⟨order, rfl⟩)
  | readdir order path => exact Or.inr (Or.inr ⟨order, rfl⟩)
  | _ => exact Or.inl ⟨rfl, rfl⟩

/-- A call keeps it if what it flushes has the property. -/
theorem Backed.effect {op : Op} (backed : Backed env P cache) (pointed : Pointed env names cache)
    (fits : Event.Flushes ⟨now, op, result⟩ → cache.FlushFits)
    (written
      : ∀ path inode, cache.find path = some inode
        → P (cache.flushCall (path, inode.inodeId) inode))
    (effect : Effect env now cache op result next)
    : Backed env P next := by
  rcases effect.disk with same | ⟨flushes, flushed⟩ | ⟨order, rfl⟩
  · exact backed.congr same
  · exact backed.flushed pointed (fun done => fits (flushes done)) written flushed
  · exact backed.loadTrees order

end BlockCache

end ZippyFS
