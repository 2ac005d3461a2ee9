import Mathlib.Data.List.Flatten
import ZippyFS.Index.TreeFile

/-! What `find_latest_inode` returns over any number of files. Among the records it visits
the newest wins, but it visits no file behind the first one without the path.
-/

namespace ZippyFS

open NewestWins

/-- The attributes of a record. -/
structure Attributes where
  mode : UInt32
  nlink : UInt32
  mtime : Nat
  ctime : Nat
  size : Nat
  deleted : Bool

def DiskInodeInfo.attributes (info : DiskInodeInfo) : Attributes :=
  ⟨info.mode, info.nlink, info.mtime, info.ctime, info.size, info.deleted⟩

def AddCall.attributes (call : AddCall) : Attributes :=
  ⟨call.inode.mode, call.inode.nlink, call.inode.ulMtime, call.inode.ulCtime, call.inode.size,
    call.inode.deleted⟩

/-- The modification time of a call's record. -/
def AddCall.mtime (call : AddCall) : Nat := call.inode.ulMtime

/-- All versions of one block that some calls store. -/
def versionsOf (env : Env) (blockId : Nat) (calls : List AddCall) : List BlockVersion :=
  (calls.flatMap (·.versions env)).filter (fun version => decide (version.blockId = blockId))

/-- Fewer calls store fewer versions. -/
theorem versionsOf_sublist (env : Env) (blockId : Nat) {fewer calls : List AddCall}
    (sublist : fewer.Sublist calls)
    : (versionsOf env blockId fewer).Sublist (versionsOf env blockId calls) :=
  (sublist.flatMap (·.versions env)).filter _

/-- The records of one path in all files, in the order of the files. -/
def heldBy {env : Env} (files : List (TreeFile env)) (path : Bytes) : List AddCall :=
  files.filterMap (·.find (Util.cryptoHash env path))

/-- The records of one path that the loader visits. -/
def visitedBy {env : Env} (files : List (TreeFile env)) (path : Bytes) (getData : Bool)
    : List AddCall :=
  BPLUSIndexLoader.visited getData (files.map (·.find (Util.cryptoHash env path)))

namespace BPLUSIndexLoader

variable {env : Env} {phash : Bytes} {getData : Bool}

-----------------------------------------------------------------------------------------
-- The fold over the visited calls
-----------------------------------------------------------------------------------------

/-- Keeping a block changes no attribute. -/
@[simp] theorem keepBlock_attributes (latest : DiskInodeInfo) (blockId mtime : Nat) (block : Block)
    : (keepBlock latest blockId mtime block).attributes = latest.attributes := by
  unfold keepBlock
  split <;> try split
  all_goals rfl

/-- Keeping blocks changes no attribute, by induction on the blocks. -/
theorem foldl_keepBlock_attributes (versions : List BlockVersion) (latest : DiskInodeInfo)
    : (versions.foldl (fun latest version => keepBlock latest version.blockId version.mtime
        version.block) latest).attributes = latest.attributes := by
  induction versions generalizing latest with
  | nil => rfl
  | cons version rest ih => rw [List.foldl_cons, ih, keepBlock_attributes]

/-- After some calls the attributes are those of the newest, by induction from the end. -/
theorem foldl_visitCall_attributes (env : Env) (phash : Bytes) (getData : Bool)
    (calls : List AddCall)
    (positive : ∀ call ∈ calls, 0 < call.mtime)
    : (calls.foldl (visitCall env phash getData) (0, nothing)).1
        = (scan (· < ·) AddCall.mtime calls).elim 0 AddCall.mtime
      ∧ (calls.foldl (visitCall env phash getData) (0, nothing)).2.attributes
        = (scan (· < ·) AddCall.mtime calls).elim nothing.attributes AddCall.attributes := by
  induction calls using List.reverseRecOn with
  | nil => exact ⟨rfl, rfl⟩
  | append_singleton calls call ih =>
      obtain ⟨time, attributes⟩ := ih (fun other inside => positive other (by simp [inside]))
      have later := positive call (by simp)
      rw [List.foldl_concat, scan_concat]
      generalize calls.foldl (visitCall env phash getData) (0, nothing) = state at *
      have step : (visitCall env phash getData state call).1
          = (if state.1 < call.mtime then call.mtime else state.1)
          ∧ (visitCall env phash getData state call).2.attributes
            = (if state.1 < call.mtime then call.attributes else state.2.attributes) := by
        constructor
        · by_cases newer : state.1 < call.inode.ulMtime <;>
            simp [visitCall, AddCall.mtime, newer]
        · by_cases newer : state.1 < call.inode.ulMtime
          · cases getData <;>
              simp only [visitCall, newer, AddCall.mtime, decide_true, if_true,
                Bool.false_eq_true, if_false, foldl_keepBlock_attributes] <;>
              rfl
          · cases getData <;>
              simp only [visitCall, newer, AddCall.mtime, decide_false, if_true,
                Bool.false_eq_true, if_false, foldl_keepBlock_attributes]
      rw [step.1, step.2, time, attributes]
      cases scan (· < ·) AddCall.mtime calls with
      | none => simp [keep, later]
      | some best =>
          by_cases newer : best.mtime < call.mtime <;> simp [keep, newer]

/-- The block kept under an id is the best version so far. -/
def Tracks (latest : DiskInodeInfo) (blockId : Nat) (best : Option BlockVersion) : Prop :=
  latest.blockTime[blockId]? = best.map BlockVersion.mtime
    ∧ latest.blockData[blockId]? = best.map BlockVersion.block

/-- One version more. -/
theorem Tracks.keepBlock {latest : DiskInodeInfo} {blockId : Nat} {best : Option BlockVersion}
    (tracks : Tracks latest blockId best) (version : BlockVersion)
    : Tracks (keepBlock latest version.blockId version.mtime version.block) blockId
        (if version.blockId = blockId then keep (· ≤ ·) BlockVersion.mtime best version
        else best) := by
  obtain ⟨time, data⟩ := tracks
  by_cases same : version.blockId = blockId
  · subst same
    rw [if_pos rfl]
    unfold BPLUSIndexLoader.keepBlock
    rw [time]
    cases best with
    | none => simp [Tracks, keep]
    | some old =>
        simp only [Option.map_some, keep]
        by_cases newer : old.mtime ≤ version.mtime
        · simp [newer, Tracks]
        · simp only [newer, if_false]
          exact ⟨time, data⟩
  · rw [if_neg same]
    unfold BPLUSIndexLoader.keepBlock Tracks
    split <;> try split
    all_goals simp [Std.ExtTreeMap.getElem?_insert, same, time, data]

/-- Many versions more, by induction on them. -/
theorem Tracks.foldl {latest : DiskInodeInfo} {blockId : Nat} {best : Option BlockVersion}
    (tracks : Tracks latest blockId best) (versions : List BlockVersion)
    : Tracks
        (versions.foldl (fun latest version => BPLUSIndexLoader.keepBlock latest version.blockId
          version.mtime version.block) latest)
        blockId
        ((versions.filter (fun version => decide (version.blockId = blockId))).foldl
          (keep (· ≤ ·) BlockVersion.mtime) best) := by
  induction versions generalizing latest best with
  | nil => exact tracks
  | cons version rest ih =>
      have next := ih (tracks.keepBlock version)
      rw [List.foldl_cons, List.filter_cons]
      by_cases same : version.blockId = blockId
      · simpa [same] using next
      · simpa [same] using next

/-- Taking over attributes keeps the blocks. -/
theorem Tracks.visitCall {state : Nat × DiskInodeInfo} {blockId : Nat}
    {best : Option BlockVersion} (tracks : Tracks state.2 blockId best) (env : Env)
    (phash : Bytes) (call : AddCall)
    : Tracks (BPLUSIndexLoader.visitCall env phash true state call).2 blockId
        (((call.versions env).filter (fun version => decide (version.blockId = blockId))).foldl
          (keep (· ≤ ·) BlockVersion.mtime) best) := by
  simp only [BPLUSIndexLoader.visitCall, if_true]
  apply Tracks.foldl
  split <;> exact tracks

/-- After some calls every block is its newest version, by induction on the calls. -/
theorem foldl_visitCall_blocks (calls : List AddCall) (state : Nat × DiskInodeInfo)
    (blockId : Nat) (best : Option BlockVersion) (tracks : Tracks state.2 blockId best)
    : Tracks (calls.foldl (visitCall env phash true) state).2 blockId
        ((versionsOf env blockId calls).foldl (keep (· ≤ ·) BlockVersion.mtime) best) := by
  induction calls generalizing state best with
  | nil => exact tracks
  | cons call rest ih =>
      have next := ih _ _ (tracks.visitCall env phash call)
      rw [List.foldl_cons]
      simpa [versionsOf, List.flatMap_cons, List.filter_append, List.foldl_append] using next

/-- A search visits some of the records, in their order, by induction on the files. -/
theorem visited_sublist (getData : Bool) (records : List (Option AddCall))
    : (visited getData records).Sublist (records.filterMap id) := by
  induction records with
  | nil => exact List.Sublist.refl []
  | cons head rest ih =>
      cases head with
      | none => exact List.nil_sublist _
      | some call =>
          simp only [visited, List.filterMap_cons, id_eq]
          split
          · exact (List.nil_sublist _).cons_cons call
          · exact ih.cons_cons call

/-- A search for attributes visits what a search for data visits, by induction on the files. -/
theorem visited_subset (records : List (Option AddCall))
    : visited true records ⊆ visited false records := by
  induction records with
  | nil => exact List.Subset.refl []
  | cons head rest ih =>
      cases head with
      | none => exact List.Subset.refl []
      | some call =>
          simp only [visited, true_and, Bool.false_eq_true, false_and, if_false]
          split
          · simp
          · exact List.cons_subset_cons call ih

end BPLUSIndexLoader

-----------------------------------------------------------------------------------------
-- The newest record
-----------------------------------------------------------------------------------------

/-- Both kinds of lookup found the newest of the records: its attributes, and with data the
newest version of every block.
-/
structure NewestFound (env : Env) (held : List AddCall) (full brief : DiskInodeInfo) : Prop where
  fullAbsent : full.mtime = 0 ↔ held = []
  briefAbsent : brief.mtime = 0 ↔ held = []
  attributes
    : ∀ call, IsNewest AddCall.mtime held call
      → full.attributes = call.attributes ∧ brief.attributes = call.attributes
  blocks
    : ∀ version, IsNewest BlockVersion.mtime (versionsOf env version.blockId held) version
      → full.blockData[version.blockId]? = some version.block

/-- The lookups of a path find the newest of its records in all files. -/
def FindsNewest {env : Env} (files : List (TreeFile env)) (path : Bytes) : Prop :=
  ∃ full brief,
    BPLUSIndexLoader.findLatestInode env (files.map (·.image)) path true = .ok full
    ∧ BPLUSIndexLoader.findLatestInode env (files.map (·.image)) path false = .ok brief
    ∧ NewestFound env (heldBy files path) full brief

/-- The newest record is among those visited, and so is for every block a version with the
bytes of the newest.
-/
structure NewestVisited {env : Env} (files : List (TreeFile env)) (path : Bytes) : Prop where
  record
    : ∃ call ∈ visitedBy files path true, IsNewest AddCall.mtime (heldBy files path) call
  blocks
    : ∀ version,
      IsNewest BlockVersion.mtime (versionsOf env version.blockId (heldBy files path)) version
      → ∃ seen,
          IsNewest BlockVersion.mtime
            (versionsOf env version.blockId (visitedBy files path true)) seen
          ∧ seen.block = version.block

/-- An info has the attributes of the newest of some records, or none if there is none. -/
def ShowsNewest (records : List AddCall) (info : DiskInodeInfo) : Prop :=
  (records = [] ∧ info.attributes = BPLUSIndexLoader.nothing.attributes)
    ∨ ∃ call, IsNewest AddCall.mtime records call ∧ info.attributes = call.attributes

/-- Without records the modification time is zero. -/
theorem ShowsNewest.mtime_eq_zero {records : List AddCall} {info : DiskInodeInfo}
    (shows : ShowsNewest records info) (none : records = [])
    : info.mtime = 0 := by
  rcases shows with ⟨_, same⟩ | ⟨call, newest, _⟩
  · exact congrArg Attributes.mtime same
  · have member := newest.member
    simp [none] at member

/-- The attributes are those of the newest record, if there is just one newest. -/
theorem ShowsNewest.attributes_eq {records : List AddCall} {info : DiskInodeInfo}
    (shows : ShowsNewest records info) (distinct : (records.map AddCall.mtime).Nodup)
    {call : AddCall} (newest : IsNewest AddCall.mtime records call)
    : info.attributes = call.attributes := by
  rcases shows with ⟨empty, _⟩ | ⟨other, isNewest, same⟩
  · have member := newest.member
    simp [empty] at member
  · rw [same, isNewest.unique distinct newest]

section Newest

variable {env : Env} {files : List (TreeFile env)} {path : Bytes}

theorem visitedBy_sublist (files : List (TreeFile env)) (path : Bytes) (getData : Bool)
    : (visitedBy files path getData).Sublist (heldBy files path) := by
  have sublist := BPLUSIndexLoader.visited_sublist getData
    (files.map (·.find (Util.cryptoHash env path)))
  rwa [List.filterMap_map] at sublist

/-- The info a lookup returns. -/
theorem findLatestInode_eq (named : path ≠ []) (getData : Bool)
    : BPLUSIndexLoader.findLatestInode env (files.map (·.image)) path getData
      = .ok ((visitedBy files path getData).foldl
        (BPLUSIndexLoader.visitCall env (Util.cryptoHash env path) getData)
        (0, BPLUSIndexLoader.nothing)).2 := by
  rw [BPLUSIndexLoader.findLatestInode, if_neg named, BPLUSIndexLoader.visitTrees_files]
  rfl

/-- A lookup returns the attributes of the newest visited record. -/
theorem findLatestInode_attributes (named : path ≠ [])
    (positive : ∀ call ∈ heldBy files path, 0 < call.mtime) (getData : Bool)
    : ∃ info,
        BPLUSIndexLoader.findLatestInode env (files.map (·.image)) path getData = .ok info
        ∧ ShowsNewest (visitedBy files path getData) info := by
  refine ⟨_, findLatestInode_eq named getData, ?_⟩
  have inside := (visitedBy_sublist files path getData).subset
  have attributes := (BPLUSIndexLoader.foldl_visitCall_attributes env
    (Util.cryptoHash env path) getData (visitedBy files path getData)
    (fun call member => positive call (inside member))).2
  unfold ShowsNewest
  rw [attributes]
  rcases scan_spec newer_lt AddCall.mtime (visitedBy files path getData) with
    ⟨empty, none⟩ | ⟨call, found, newest⟩
  · exact Or.inl ⟨empty, by rw [none]; rfl⟩
  · exact Or.inr ⟨call, newest, by rw [found]; rfl⟩

/-- A lookup with data returns the newest visited version of every block. -/
theorem findLatestInode_blocks (named : path ≠ []) {info : DiskInodeInfo}
    (outcome
      : BPLUSIndexLoader.findLatestInode env (files.map (·.image)) path true = .ok info)
    (blockId : Nat)
    : info.blockData[blockId]?
      = (scan (· ≤ ·) BlockVersion.mtime
          (versionsOf env blockId (visitedBy files path true))).map BlockVersion.block := by
  rw [findLatestInode_eq named, Except.ok.injEq] at outcome
  subst outcome
  have start : BPLUSIndexLoader.Tracks BPLUSIndexLoader.nothing blockId none := by
    simp [BPLUSIndexLoader.Tracks, BPLUSIndexLoader.nothing]
  exact (BPLUSIndexLoader.foldl_visitCall_blocks _ (0, BPLUSIndexLoader.nothing) blockId none
    start).2

/-- The lookups of a path find the newest of its records exactly if there is none, or if the
newest record and the newest bytes of every block are visited.
-/
theorem findsNewest_iff (named : path ≠ [])
    (positive : ∀ call ∈ heldBy files path, 0 < call.mtime)
    (distinct : ((heldBy files path).map AddCall.mtime).Nodup)
    (versions
      : ∀ blockId,
        ((versionsOf env blockId (heldBy files path)).map BlockVersion.mtime).Nodup)
    : FindsNewest files path ↔ heldBy files path = [] ∨ NewestVisited files path := by
  obtain ⟨full, fullOutcome, fullIs⟩ := findLatestInode_attributes named positive true
  obtain ⟨brief, briefOutcome, briefIs⟩ := findLatestInode_attributes named positive false
  have data := findLatestInode_blocks named fullOutcome
  have fullInside := (visitedBy_sublist files path true).subset
  have briefInside := (visitedBy_sublist files path false).subset
  constructor
  · rintro ⟨full', brief', fullOutcome', briefOutcome', found⟩
    obtain rfl := Except.ok.inj (fullOutcome.symm.trans fullOutcome')
    rcases eq_or_ne (heldBy files path) [] with none | some
    · exact Or.inl none
    · refine Or.inr ⟨?_, ?_⟩
      · obtain ⟨newest, isNewest⟩ := exists_isNewest AddCall.mtime some
        have later := positive newest isNewest.member
        have attributes := (found.attributes newest isNewest).1
        rcases fullIs with ⟨_, nothing⟩ | ⟨call, visited, same⟩
        · have zero : (0 : Nat) = newest.mtime :=
            congrArg Attributes.mtime (nothing.symm.trans attributes)
          omega
        · have time : call.mtime = newest.mtime :=
            congrArg Attributes.mtime (same.symm.trans attributes)
          refine ⟨call, visited.member, fullInside visited.member, ?_⟩
          intro other member
          rw [time]
          exact isNewest.latest other member
      · intro version newest
        have kept := found.blocks version newest
        rw [data] at kept
        obtain ⟨seen, found, same⟩ := Option.map_eq_some_iff.mp kept
        rcases scan_spec newer_le BlockVersion.mtime
          (versionsOf env version.blockId (visitedBy files path true)) with
          ⟨_, none⟩ | ⟨other, scanned, isNewest⟩
        · rw [none] at found
          simp at found
        · obtain rfl := Option.some.inj (found.symm.trans scanned)
          exact ⟨seen, isNewest, same⟩
  · rintro (none | ⟨⟨call, visited, newest⟩, blocks⟩)
    · have unvisited : ∀ getData, visitedBy files path getData = [] := fun getData =>
        List.sublist_nil.mp (none ▸ visitedBy_sublist files path getData)
      refine ⟨full, brief, fullOutcome, briefOutcome, ?_⟩
      rw [none]
      refine {
        fullAbsent := iff_of_true (fullIs.mtime_eq_zero (unvisited true)) rfl
        briefAbsent := iff_of_true (briefIs.mtime_eq_zero (unvisited false)) rfl
        attributes := fun call newest => by simpa using newest.member
        blocks := fun version newest => by simpa [versionsOf] using newest.member
      }
    · have held : heldBy files path ≠ [] := List.ne_nil_of_mem newest.member
      have alone : ∀ getData, ((visitedBy files path getData).map AddCall.mtime).Nodup :=
        fun getData => distinct.sublist ((visitedBy_sublist files path getData).map AddCall.mtime)
      have also := BPLUSIndexLoader.visited_subset _ visited
      have later := positive call newest.member
      have fullSame := fullIs.attributes_eq (alone true) (newest.restrict visited fullInside)
      have briefSame := briefIs.attributes_eq (alone false) (newest.restrict also briefInside)
      have fullTime : full.mtime = call.mtime := congrArg Attributes.mtime fullSame
      have briefTime : brief.mtime = call.mtime := congrArg Attributes.mtime briefSame
      refine ⟨full, brief, fullOutcome, briefOutcome, ?_⟩
      refine {
        fullAbsent := iff_of_false (by omega) held
        briefAbsent := iff_of_false (by omega) held
        attributes := ?_
        blocks := ?_
      }
      · intro other isNewest
        rw [isNewest.unique distinct newest]
        exact ⟨fullSame, briefSame⟩
      · intro version isNewest
        obtain ⟨seen, seenNewest, same⟩ := blocks version isNewest
        have fewer := versionsOf_sublist env version.blockId (visitedBy_sublist files path true)
        have once := (versions version.blockId).sublist (fewer.map BlockVersion.mtime)
        rw [data, (scan_eq_some_iff newer_le once seen).mpr seenNewest, Option.map_some, same]

end Newest

/-- A file that holds nothing but one version of `/a`, and one that holds nothing but `/b`. -/
def fileOfA (data : Bytes) (mtime : Nat) : TreeFile Util.twoDigests :=
  TreeFile.single Util.twoDigests
    (oneBlockCall (Util.cryptoHash Util.twoDigests [47, 97]) [47, 97] data mtime)
    (show (Util.cryptoHash Util.twoDigests [47, 97]).length < HASH_SIZE by decide +kernel)
    (Util.cString_clean _ _ _)

def fileOfB (data : Bytes) (mtime : Nat) : TreeFile Util.twoDigests :=
  TreeFile.single Util.twoDigests
    (oneBlockCall (Util.cryptoHash Util.twoDigests [47, 98]) [47, 98] data mtime)
    (show (Util.cryptoHash Util.twoDigests [47, 98]).length < HASH_SIZE by decide +kernel)
    (Util.cString_clean _ _ _)

/-- All versions having different times is enough for those of every block. -/
theorem versionsOf_nodup {env : Env} {calls : List AddCall}
    (distinct : ((calls.flatMap (·.versions env)).map BlockVersion.mtime).Nodup) (blockId : Nat)
    : ((versionsOf env blockId calls).map BlockVersion.mtime).Nodup :=
  distinct.sublist (List.filter_sublist.map BlockVersion.mtime)

/-- Two versions of one file. -/
theorem findsNewest_iff_two
    : FindsNewest [fileOfA [1, 2] 7, fileOfA [3] 8] [47, 97]
      ↔ heldBy [fileOfA [1, 2] 7, fileOfA [3] 8] [47, 97] = []
        ∨ NewestVisited [fileOfA [1, 2] 7, fileOfA [3] 8] [47, 97] :=
  findsNewest_iff (by decide) (by decide +kernel) (by decide +kernel)
    (versionsOf_nodup (by decide +kernel))

/-- A file without the path hides the files behind it. -/
theorem findsNewest_hidden
    : (∀ call ∈ heldBy [fileOfB [1] 7, fileOfA [2] 8] [47, 97], 0 < call.mtime)
      ∧ ((heldBy [fileOfB [1] 7, fileOfA [2] 8] [47, 97]).map AddCall.mtime).Nodup
      ∧ (∀ blockId, ((versionsOf Util.twoDigests blockId
          (heldBy [fileOfB [1] 7, fileOfA [2] 8] [47, 97])).map BlockVersion.mtime).Nodup)
      ∧ ¬ FindsNewest [fileOfB [1] 7, fileOfA [2] 8] [47, 97] := by
  have positive : ∀ call ∈ heldBy [fileOfB [1] 7, fileOfA [2] 8] [47, 97], 0 < call.mtime := by
    decide +kernel
  refine ⟨positive, by decide +kernel, versionsOf_nodup (by decide +kernel), ?_⟩
  rintro ⟨full, brief, outcome, _, found⟩
  have unvisited : (visitedBy [fileOfB [1] 7, fileOfA [2] 8] [47, 97] true).length = 0 := by
    decide +kernel
  have held : (heldBy [fileOfB [1] 7, fileOfA [2] 8] [47, 97]).length = 1 := by
    decide +kernel
  obtain ⟨info, outcome', shows⟩ := findLatestInode_attributes (by decide) positive true
  obtain rfl := Except.ok.inj (outcome.symm.trans outcome')
  have none := found.fullAbsent.mp
    (shows.mtime_eq_zero (List.length_eq_zero_iff.mp unvisited))
  simp [none] at held

end ZippyFS
