import ZippyFS.Cache.ListingLookup
import ZippyFS.Index.Confined
import ZippyFS.Sync.Convergence

/-! What clients list of files that they share. A listing merges the records of all files in the
order in which a hash map happens to be iterated, so that clients with the same files agree unless
two records of one path are equally new and only one of them is a deletion.
-/

namespace ZippyFS

open CellMemory StructLayout Runs NewestWins

variable {env : Env} {dir path : Bytes} {files : List (FlushedFile env)}

-----------------------------------------------------------------------------------------
-- Mapped files
-----------------------------------------------------------------------------------------

namespace FlushedFile

/-- The bytes that the flush leaves. -/
def bytes (file : FlushedFile env) : List Cell := file.image.file

/-- The file as another client maps it. -/
def mapped (file : FlushedFile env) : Image := Image.ofFile file.bytes

/-- At most one record for each path. -/
def Once (file : FlushedFile env) : Prop := (file.calls.map (·.inode.path)).Nodup

/-- A file that is mapped again is the image that was flushed. -/
theorem mapped_eq (file : FlushedFile env) : file.mapped = file.image :=
  file.remapped

end FlushedFile

-----------------------------------------------------------------------------------------
-- The same files in any order
-----------------------------------------------------------------------------------------

/-- Records of one path in one file: at most one. -/
theorem entriesOf_single {file : FlushedFile env} (once : file.Once) {call : AddCall}
    (member : call ∈ file.calls)
    : entriesOf [file] call.inode.path = [call.entry] := by
  have paths : (file.calls.map AddCall.entry).map IndexEntry.path
      = file.calls.map (·.inode.path) := by
    rw [List.map_map]
    rfl
  have nodup : ((file.calls.map AddCall.entry).map IndexEntry.path).Nodup := paths ▸ once
  have there : call.entry ∈ file.calls.map AddCall.entry := List.mem_map_of_mem member
  obtain ⟨before, after, split⟩ := List.append_of_mem there
  rw [split, List.map_append, List.map_cons, List.nodup_append, List.nodup_cons] at nodup
  obtain ⟨-, ⟨fresh, -⟩, apart⟩ := nodup
  rw [entriesOf, List.flatMap_singleton, split, List.filter_append, List.filter_cons]
  have others {rest : List IndexEntry}
      (away : ∀ entry ∈ rest, entry.path ≠ call.inode.path)
      : rest.filter (fun entry => decide (entry.path = call.inode.path)) = [] := by
    rw [List.filter_eq_nil_iff]
    exact fun entry inside => by simpa using away entry inside
  rw [others, others, List.nil_append]
  · exact if_pos (decide_eq_true rfl)
  · exact fun entry inside same => fresh (List.mem_map.mpr ⟨entry, inside, same⟩)
  · exact fun entry inside => apart _ (List.mem_map_of_mem inside) _ (List.mem_cons_self ..)

/-- The records of a path come in the order of the files. -/
theorem entriesOf_perm {visited : List (FlushedFile env)} (same : visited.Perm files)
    : (entriesOf visited path).Perm (entriesOf files path) :=
  (same.flatMap_right _).filter _

/-- A cache whose directory holds the files, in any order. -/
def Serves (cache : BlockCache) (files : List (FlushedFile env)) : Prop :=
  cache.disk.Perm (files.map FlushedFile.mapped)

/-- The files behind the images that a listing visits. -/
theorem Serves.visited {cache : BlockCache} (serves : Serves cache files) (order : VisitOrder)
    : ∃ visited : List (FlushedFile env), visited.Perm files
        ∧ order.visit cache.disk = visited.map FlushedFile.mapped := by
  have same : (order.visit cache.disk).Perm (files.map FlushedFile.mapped) :=
    (order.perm cache.disk).trans serves
  obtain ⟨visited, split, perm⟩ := (congrFun (congrFun
    (List.eq_map_comp_perm FlushedFile.mapped) _) _).mpr same
  exact ⟨visited, perm, split⟩

/-- A listing shows the newest of the records, in the order in which it visits the files. -/
theorem listed_newest {cache : BlockCache} {order : VisitOrder} {visited : List (FlushedFile env)}
    (child : IsChild dir path) (scannable : ∀ file ∈ visited, file.Scannable)
    (visits : order.visit cache.disk = visited.map FlushedFile.mapped)
    : Listed cache order dir path ↔ NewestAlive visited path := by
  have same : visited.map FlushedFile.mapped = visited.map (·.image) :=
    List.map_congr_left fun file _ => file.mapped_eq
  rw [listed_iff child (visits.trans same).symm, and_iff_right scannable]

/-- The scan over undisputed records ends with one that shows whether the newest are deletions. -/
theorem newestAlive_iff {visited : List (FlushedFile env)}
    (undisputed : Undisputed IndexEntry.mtime IndexEntry.deleted (entriesOf files path))
    (same : visited.Perm files)
    : NewestAlive visited path
      ↔ ∃ entry, IsNewest IndexEntry.mtime (entriesOf files path) entry
        ∧ entry.deleted = false := by
  rw [← undisputed.scan_look newer_le (entriesOf_perm same), Option.map_eq_some_iff]
  rfl

/-- Visited last, a newest record decides whether its path is listed. -/
theorem listed_last (child : IsChild dir path) (scannable : ∀ file ∈ files, file.Scannable)
    (once : ∀ file ∈ files, file.Once) {entry : IndexEntry}
    (newest : IsNewest IndexEntry.mtime (entriesOf files path) entry)
    : ∃ cache, Serves cache files
        ∧ (Listed cache ⟨id, .refl⟩ dir path ↔ entry.deleted = false) := by
  obtain ⟨stored, here⟩ := List.mem_filter.mp newest.member
  obtain ⟨file, among, made⟩ := List.mem_flatMap.mp stored
  obtain ⟨call, member, rfl⟩ := List.mem_map.mp made
  obtain rfl : call.inode.path = path := of_decide_eq_true here
  obtain ⟨before, after, rfl⟩ := List.append_of_mem among
  have moved : (before ++ after ++ [file]).Perm (before ++ file :: after) := by
    rw [List.append_assoc]
    exact (List.perm_append_singleton file after).append_left before
  refine ⟨.new ((before ++ after ++ [file]).map FlushedFile.mapped) ⟨id, .refl⟩ 0,
    moved.map _, ?_⟩
  rw [listed_newest child
    (fun other inside => scannable other (moved.mem_iff.mp inside)) rfl, NewestAlive]
  have split : entriesOf (before ++ after ++ [file]) call.inode.path
      = entriesOf (before ++ after) call.inode.path ++ [call.entry] := by
    rw [← entriesOf_single (once file among) member, entriesOf, entriesOf, entriesOf,
      List.flatMap_append, List.filter_append]
  have last := newest.perm (entriesOf_perm moved)
  rw [split] at last ⊢
  rw [scan_concat_newest last]
  simp

/-- Clients that hold the same files agree on whether a path is listed, whatever the order in which
each of them visits the files, exactly if all newest records of the path agree on whether it is
deleted.
-/
theorem replicas_agree_iff (child : IsChild dir path) (scannable : ∀ file ∈ files, file.Scannable)
    (once : ∀ file ∈ files, file.Once)
    : (∀ (one two : BlockCache) (first second : VisitOrder), Serves one files → Serves two files
        → (Listed one first dir path ↔ Listed two second dir path))
      ↔ Undisputed IndexEntry.mtime IndexEntry.deleted (entriesOf files path) := by
  constructor
  · intro agree one two newest also
    obtain ⟨left, served, shows⟩ := listed_last child scannable once newest
    obtain ⟨right, serves, reveals⟩ := listed_last child scannable once also
    have same := agree left right ⟨id, .refl⟩ ⟨id, .refl⟩ served serves
    rw [shows, reveals] at same
    cases alive : one.deleted with
    | false => exact (same.mp alive).symm
    | true =>
        cases dead : two.deleted with
        | false => exact alive.symm.trans (same.mpr dead)
        | true => rfl
  · intro undisputed one two first second served serves
    obtain ⟨visited, perm, visits⟩ := served.visited first
    obtain ⟨others, perm', visits'⟩ := serves.visited second
    rw [listed_newest child (fun file inside => scannable file (perm.mem_iff.mp inside)) visits,
      listed_newest child (fun file inside => scannable file (perm'.mem_iff.mp inside)) visits',
      newestAlive_iff undisputed perm, newestAlive_iff undisputed perm']

/-- A file with one record of `/a`, which may be a deletion. -/
def oneRecord (deleted : Bool) : FlushedFile Util.twoDigests where
  toTreeFile := .single _
    { oneBlockCall [65] [47, 97] [1] 7 with
      inode := { (oneBlockCall [65] [47, 97] [1] 7).inode with deleted := deleted } }
    (show 1 < HASH_SIZE by decide) (show (0 : UInt8) ∉ [65] by decide)
  full := rfl
  paths := fun call member => by
    obtain rfl := List.mem_singleton.mp member
    exact ⟨[[97]], by decide, by decide, rfl⟩
  stamped := fun call member => by
    obtain rfl := List.mem_singleton.mp member
    exact show 0 < 7 by decide

/-- Two clients that removed and wrote `/a` in the same millisecond leave files of which others
make different listings.
-/
theorem replicas_disagree
    : ¬ ∀ (one two : BlockCache) (first second : VisitOrder),
        Serves one [oneRecord false, oneRecord true] → Serves two [oneRecord false, oneRecord true]
          → (Listed one first [47] [47, 97] ↔ Listed two second [47] [47, 97]) := by
  rw [replicas_agree_iff BlockCache.isChild_root]
  · intro undisputed
    have entries : entriesOf [oneRecord false, oneRecord true] [47, 97]
        = [⟨[47, 97], 7, false⟩, ⟨[47, 97], 7, true⟩] := rfl
    rw [entries] at undisputed
    have same := undisputed ⟨[47, 97], 7, false⟩ ⟨[47, 97], 7, true⟩
      ⟨by simp, by simp⟩ ⟨by simp, by simp⟩
    cases same
  · intro file member
    have one : file.calls.length = 1 := by
      rcases List.mem_pair.mp member with rfl | rfl <;> rfl
    rw [FlushedFile.Scannable, one]
    decide
  · intro file member
    rcases List.mem_pair.mp member with rfl | rfl <;> exact List.nodup_singleton _

-----------------------------------------------------------------------------------------
-- Directories
-----------------------------------------------------------------------------------------

/-- The names that `load_trees` maps start with `TREE-`. -/
def BPLUSIndexLoader.isTreeName (name : Bytes) : Bool := name.take 5 = [84, 82, 69, 69, 45]

/-- The tree files of a directory, each under a name of its own. -/
structure Holds (directory : Bytes → Option (List Cell)) (files : List (Bytes × FlushedFile env))
    : Prop where
  once : (files.map Prod.fst).Nodup
  contents
    : ∀ name bytes, BPLUSIndexLoader.isTreeName name = true ∧ directory name = some bytes
      ↔ ∃ file, (name, file) ∈ files ∧ file.bytes = bytes

/-- No tree file is there at first. -/
theorem Holds.empty : Holds (fun _ => none) ([] : List (Bytes × FlushedFile env)) where
  once := List.nodup_nil
  contents := fun name bytes => by simp

/-- A new name adds its file. -/
theorem Holds.add {directory : Bytes → Option (List Cell)} {files : List (Bytes × FlushedFile env)}
    {name : Bytes} (holds : Holds directory files) (fresh : directory name = none)
    (tree : BPLUSIndexLoader.isTreeName name = true) (file : FlushedFile env)
    : Holds (Function.update directory name (some file.bytes)) (files ++ [(name, file)]) := by
  have away {other : FlushedFile env} (member : (name, other) ∈ files) : False := by
    obtain ⟨-, there⟩ := (holds.contents name other.bytes).mpr ⟨other, member, rfl⟩
    exact nomatch fresh.symm.trans there
  constructor
  · rw [List.map_append, List.map_singleton, List.nodup_append]
    refine ⟨holds.once, List.nodup_singleton _, fun one member two last => ?_⟩
    rintro rfl
    obtain ⟨⟨named, other⟩, inside, rfl⟩ := List.mem_map.mp member
    obtain rfl := List.mem_singleton.mp last
    exact away inside
  · intro path bytes
    simp only [List.mem_append, List.mem_singleton]
    by_cases same : path = name
    · subst same
      rw [Function.update_self, Option.some.injEq]
      constructor
      · rintro ⟨-, rfl⟩
        exact ⟨file, Or.inr rfl, rfl⟩
      · rintro ⟨other, old | new, rfl⟩
        · exact (away old).elim
        · obtain rfl := (Prod.mk.inj new).2
          exact ⟨tree, rfl⟩
    · rw [Function.update_of_ne same, holds.contents path bytes]
      constructor
      · rintro ⟨other, member, rfl⟩
        exact ⟨other, Or.inl member, rfl⟩
      · rintro ⟨other, old | new, rfl⟩
        · exact ⟨other, old, rfl⟩
        · exact absurd (Prod.mk.inj new).1 same

/-- The images that a loader gets from a directory: of every tree file there. -/
def Mounts (directory : Bytes → Option (List Cell)) (disk : List Image) : Prop :=
  ∃ names : List Bytes, names.Nodup
    ∧ (∀ name, name ∈ names
      ↔ BPLUSIndexLoader.isTreeName name = true ∧ ∃ bytes, directory name = some bytes)
    ∧ disk = names.filterMap (fun name => (directory name).map Image.ofFile)

/-- A cache over a directory serves its tree files. -/
theorem Mounts.serves {cache : BlockCache} {directory : Bytes → Option (List Cell)}
    {files : List (Bytes × FlushedFile env)} (mounts : Mounts directory cache.disk)
    (holds : Holds directory files)
    : Serves cache (files.map Prod.snd) := by
  obtain ⟨names, distinct, listed, onDisk⟩ := mounts
  have names_perm : names.Perm (files.map Prod.fst) := by
    refine (List.perm_ext_iff_of_nodup distinct holds.once).mpr fun name => ?_
    rw [listed, List.mem_map]
    constructor
    · rintro ⟨tree, bytes, there⟩
      obtain ⟨file, member, -⟩ := (holds.contents name bytes).mp ⟨tree, there⟩
      exact ⟨_, member, rfl⟩
    · rintro ⟨⟨name, file⟩, member, rfl⟩
      obtain ⟨tree, there⟩ := (holds.contents name file.bytes).mpr ⟨file, member, rfl⟩
      exact ⟨tree, _, there⟩
  have mapped : (files.map Prod.fst).filterMap (fun name => (directory name).map Image.ofFile)
      = (files.map Prod.snd).map FlushedFile.mapped := by
    rw [List.filterMap_map, List.map_map, ← List.filterMap_eq_map]
    refine List.filterMap_congr fun entry member => ?_
    obtain ⟨-, there⟩ := (holds.contents entry.1 entry.2.bytes).mpr ⟨entry.2, member, rfl⟩
    simp only [Function.comp_apply, there, Option.map_some]
    rfl
  rw [Serves, onDisk, ← mapped]
  exact names_perm.filterMap _

/-- What a cache over a directory lists. -/
theorem Mounts.listed_iff {cache : BlockCache} {directory : Bytes → Option (List Cell)}
    {files : List (Bytes × FlushedFile env)} (mounts : Mounts directory cache.disk)
    (holds : Holds directory files) (child : IsChild dir path)
    (scannable : ∀ entry ∈ files, entry.2.Scannable)
    (undisputed
      : Undisputed IndexEntry.mtime IndexEntry.deleted (entriesOf (files.map Prod.snd) path))
    (order : VisitOrder)
    : Listed cache order dir path
      ↔ ∃ entry, IsNewest IndexEntry.mtime (entriesOf (files.map Prod.snd) path) entry
          ∧ entry.deleted = false := by
  obtain ⟨visited, perm, visits⟩ := (mounts.serves holds).visited order
  rw [listed_newest child ?_ visits, newestAlive_iff undisputed perm]
  intro file inside
  obtain ⟨entry, member, rfl⟩ := List.mem_map.mp (perm.mem_iff.mp inside)
  exact scannable entry member

end ZippyFS
