import ZippyFS.FuseOps
import ZippyFS.Lib.NewestWins
import ZippyFS.Lib.Tables
import ZippyFS.Index.RecordList

/-! Directory listings. All records of all files are read, the newest record of each path is
kept, and the names of those that are not deletions go to the filler.
-/

namespace ZippyFS

open NewestWins Outcomes

variable {env : Env} {dir path : Bytes}

-----------------------------------------------------------------------------------------
-- The newest entry of each path
-----------------------------------------------------------------------------------------

namespace BlockCache

/-- One more entry changes what is kept for its own path only. -/
theorem addName_getElem? (names : Std.ExtTreeMap Bytes IndexEntry) (entry : IndexEntry)
    (path : Bytes)
    : (addName names entry)[path]?
      = if entry.path = path
        then keep (fun old new => old ≤ new) IndexEntry.mtime names[path]? entry
        else names[path]? := by
  by_cases same : entry.path = path
  · subst same
    rw [if_pos rfl, addName, keep.eq_def]
    cases found : names[entry.path]? with
    | none => simp
    | some added =>
        by_cases newer : added.mtime > entry.mtime
        · simp only [if_pos newer, found, if_neg (Nat.not_le.mpr newer)]
        · simp only [if_neg newer, if_pos (Nat.not_lt.mp newer)]
          simp
  · rw [if_neg same, addName]
    cases names[entry.path]? with
    | none => simp only [Tables.getElem?_insert, if_neg (Ne.symm same)]
    | some added =>
        by_cases newer : added.mtime > entry.mtime
        · simp only [if_pos newer]
        · simp only [if_neg newer, Tables.getElem?_insert, if_neg (Ne.symm same)]

/-- The newest entry of each path is kept, by induction from the last entry. -/
theorem addNames_getElem? (entries : List IndexEntry) (path : Bytes)
    : (entries.foldl addName ∅)[path]?
      = scan (fun old new => old ≤ new) IndexEntry.mtime
        (entries.filter (fun entry => decide (entry.path = path))) := by
  induction entries using List.reverseRecOn with
  | nil => simp
  | append_singleton entries entry ih =>
      rw [List.foldl_append, List.foldl_cons, List.foldl_nil, addName_getElem?, ih,
        List.filter_append]
      by_cases same : entry.path = path
      · simp [same]
      · simp [same]

/-- What is kept for a path is the newest entry of that path. -/
theorem addNames_newest {entries : List IndexEntry} {entry : IndexEntry}
    (kept : (entries.foldl addName ∅)[path]? = some entry)
    : entry.path = path ∧ entry ∈ entries
      ∧ ∀ other ∈ entries, other.path = path → other.mtime ≤ entry.mtime := by
  rw [addNames_getElem?] at kept
  rcases scan_spec newer_le IndexEntry.mtime
    (entries.filter (fun entry => decide (entry.path = path)))
    with ⟨_, empty⟩ | ⟨best, found, newest⟩
  · rw [empty] at kept
    cases kept
  · rw [found, Option.some.injEq] at kept
    subst kept
    have member := List.mem_filter.mp newest.member
    refine ⟨of_decide_eq_true member.2, member.1, ?_⟩
    intro other inside same
    exact newest.latest other (List.mem_filter.mpr ⟨inside, decide_eq_true same⟩)

/-- Something is kept for every path that has an entry. -/
theorem addNames_some {entries : List IndexEntry} {entry : IndexEntry} (member : entry ∈ entries)
    : ∃ best, (entries.foldl addName ∅)[entry.path]? = some best := by
  rw [addNames_getElem?]
  have inside : entry ∈ entries.filter (fun other => decide (other.path = entry.path)) :=
    List.mem_filter.mpr ⟨member, decide_eq_true rfl⟩
  rcases scan_spec newer_le IndexEntry.mtime
    (entries.filter (fun other => decide (other.path = entry.path)))
    with ⟨empty, _⟩ | ⟨best, found, _⟩
  · rw [empty] at inside
    simp at inside
  · exact ⟨best, found⟩

/-- The entries that `readdir` returns are the kept ones. -/
theorem mem_addNames {entries : List IndexEntry} {entry : IndexEntry}
    : entry ∈ (entries.foldl addName ∅).toList.map Prod.snd
      ↔ (entries.foldl addName ∅)[entry.path]? = some entry := by
  constructor
  · intro member
    obtain ⟨⟨path, kept⟩, listed, rfl⟩ := List.mem_map.mp member
    have found := Std.ExtTreeMap.mem_toList_iff_getElem?_eq_some.mp listed
    obtain ⟨rfl, _⟩ := addNames_newest found
    exact found
  · intro found
    exact List.mem_map.mpr ⟨_, Std.ExtTreeMap.mem_toList_iff_getElem?_eq_some.mpr found, rfl⟩

/-- They have different paths. -/
theorem addNames_nodup (entries : List IndexEntry)
    : (((entries.foldl addName ∅).toList.map Prod.snd).map IndexEntry.path).Nodup := by
  have keys : ((entries.foldl addName ∅).toList.map Prod.snd).map IndexEntry.path
      = (entries.foldl addName ∅).toList.map Prod.fst := by
    rw [List.map_map]
    apply List.map_congr_left
    rintro ⟨path, entry⟩ listed
    exact (addNames_newest (Std.ExtTreeMap.mem_toList_iff_getElem?_eq_some.mp listed)).1
  rw [keys, Std.ExtTreeMap.map_fst_toList_eq_keys]
  exact Std.ExtTreeMap.nodup_keys

end BlockCache

-----------------------------------------------------------------------------------------
-- Names
-----------------------------------------------------------------------------------------

/-- A name behind the last slash is the base name. -/
theorem basename_append {parents name : Bytes} (last : 47 ∉ name) (nonempty : name ≠ [])
    : basename (parents ++ 47 :: name) = name := by
  have reversed : (parents ++ 47 :: name).reverse = name.reverse ++ 47 :: parents.reverse := by
    simp
  have stripped : (name.reverse ++ 47 :: parents.reverse).dropWhile
      (fun byte : UInt8 => decide (byte = 47)) = name.reverse ++ 47 :: parents.reverse := by
    obtain ⟨final, rest, split⟩ := List.exists_cons_of_ne_nil
      (fun empty => nonempty (List.reverse_eq_nil_iff.mp empty))
    have other : final ≠ 47 := by
      rintro rfl
      exact last (List.mem_reverse.mp (by rw [split]; simp))
    rw [split, List.cons_append, List.dropWhile_cons, if_neg (by simpa using other)]
  have taken : (name.reverse ++ 47 :: parents.reverse).takeWhile
      (fun byte : UInt8 => decide (byte ≠ 47)) = name.reverse := by
    rw [List.takeWhile_append_of_pos]
    · simp
    · intro byte member
      exact decide_eq_true fun same => last (same ▸ List.mem_reverse.mp member)
  simp only [basename, reversed, stripped, taken, List.reverse_reverse]
  simp

/-- A path in a directory is the directory followed by its base name. -/
theorem InDirectory.path_eq (inside : InDirectory dir path) (valid : IsFilePath path)
    : path = (if dir = [47] then [] else dir) ++ 47 :: basename path ∧ 47 ∉ basename path := by
  obtain ⟨_, parents, name, rfl, last, nonempty, single⟩ := valid.split
  obtain ⟨others, component, same, final, is⟩ := inside
  have equal := congrArg BPLUSIndexLoader.parentOf same
  rw [BPLUSIndexLoader.parentOf_append last, BPLUSIndexLoader.parentOf_append final] at equal
  subst equal
  rw [basename_append last nonempty]
  refine ⟨?_, last⟩
  by_cases top : parents = []
  · rw [if_pos top] at is
    rw [if_pos is.symm, top]
  · rw [if_neg top] at is
    rw [← is, if_neg single]

/-- The base name is the only name behind a slash that it can have. -/
theorem basename_eq_iff (valid : IsFilePath path) (name : Bytes)
    : basename path = name ↔ 47 ∉ name ∧ ∃ parents, path = parents ++ 47 :: name := by
  obtain ⟨_, parents, component, rfl, last, nonempty, _⟩ := valid.split
  rw [basename_append last nonempty]
  constructor
  · rintro rfl
    exact ⟨last, parents, rfl⟩
  · rintro ⟨final, others, same⟩
    have equal := congrArg BPLUSIndexLoader.parentOf same
    rw [BPLUSIndexLoader.parentOf_append last, BPLUSIndexLoader.parentOf_append final] at equal
    subst equal
    exact (List.cons.inj (List.append_cancel_left same)).2

-----------------------------------------------------------------------------------------
-- Listings
-----------------------------------------------------------------------------------------

/-- What the three calls return for a directory: the children found, the entries kept, and the
names passed to the filler.
-/
structure IsListing (records : List IndexEntry) (dir : Bytes) (found entries : List IndexEntry)
    (names : List Bytes) : Prop where
  found : found.Perm (records.filter (fun record => decide (InDirectory dir record.path)))
  once : (entries.map IndexEntry.path).Nodup
  complete
    : ∀ path, path ∈ entries.map IndexEntry.path
      ↔ ∃ record ∈ records, record.path = path ∧ InDirectory dir path
  newest
    : ∀ entry ∈ entries, entry ∈ records
      ∧ ∀ record ∈ records, record.path = entry.path → record.mtime ≤ entry.mtime
  distinct : names.Nodup
  names
    : ∀ name, name ∈ names
      ↔ 47 ∉ name
        ∧ ∃ entry ∈ entries, entry.deleted = false ∧ ∃ parents, entry.path = parents ++ 47 :: name

/-- The children found in the files, in any order of the files. -/
theorem getChildren_filled (trees : List (FilledTree env)) {images : List Image}
    (order : images.Perm (trees.map FilledTree.image)) (absolute : dir.head? = some 47)
    : ∃ found, BPLUSIndexLoader.getChildren dir images [] = .ok found
        ∧ found.Perm ((trees.flatMap FilledTree.records).filter
          (fun record => decide (InDirectory dir record.path))) := by
  have ends : ∀ image ∈ images,
      image.header.inodeList + image.header.numInodes * inodeLayout.size < 2 ^ 32 := by
    intro image member
    obtain ⟨tree, _, rfl⟩ := List.mem_map.mp (order.mem_iff.mp member)
    obtain ⟨start, count⟩ := tree.header
    rw [start, count, tree.full]
    exact tree.ends
  refine ⟨[] ++ images.flatMap (·.children dir), BPLUSIndexLoader.getChildren_eq dir ends [], ?_⟩
  rw [List.nil_append]
  refine (order.flatMap_right _).trans (.of_eq ?_)
  rw [List.flatMap_map, List.filter_flatMap]
  exact List.flatMap_congr fun tree _ => tree.children absolute

/-- A map filled from entries with different paths holds those entries, by induction from the
last entry.
-/
theorem insertEntries_getElem? {entries : List IndexEntry}
    (once : (entries.map IndexEntry.path).Nodup) (entry : IndexEntry)
    : (entries.foldl
        (fun (names : Std.ExtTreeMap Bytes IndexEntry) ent => names.insert ent.path ent)
        ∅)[path]? = some entry
      ↔ entry ∈ entries ∧ entry.path = path := by
  induction entries using List.reverseRecOn with
  | nil => simp
  | append_singleton entries last ih =>
      rw [List.map_append, List.nodup_append] at once
      rw [List.foldl_append, List.foldl_cons, List.foldl_nil, Tables.getElem?_insert]
      by_cases same : path = last.path
      · rw [if_pos same, Option.some.injEq]
        constructor
        · rintro rfl
          exact ⟨by simp, same.symm⟩
        · rintro ⟨member, here⟩
          rcases List.mem_append.mp member with before | final
          · exact absurd (here.trans same)
              (once.2.2 _ (List.mem_map_of_mem before) _ (by simp))
          · exact (List.mem_singleton.mp final).symm
      · rw [if_neg same, ih once.1, List.mem_append, List.mem_singleton]
        constructor
        · exact fun ⟨member, here⟩ => ⟨Or.inl member, here⟩
        · rintro ⟨member | rfl, here⟩
          · exact ⟨member, here⟩
          · exact absurd here.symm same

/-- The entries that `readdir` returns fill the same map once more. -/
theorem insertEntries_addNames (entries : List IndexEntry)
    : ((entries.foldl BlockCache.addName ∅).toList.map Prod.snd).foldl
        (fun (names : Std.ExtTreeMap Bytes IndexEntry) ent => names.insert ent.path ent) ∅
      = entries.foldl BlockCache.addName ∅ := by
  refine Std.ExtTreeMap.ext_getElem? fun path => Option.ext fun entry => ?_
  rw [insertEntries_getElem? (BlockCache.addNames_nodup entries), BlockCache.mem_addNames]
  constructor
  · rintro ⟨kept, rfl⟩
    exact kept
  · intro kept
    obtain ⟨rfl, _⟩ := BlockCache.addNames_newest kept
    exact ⟨kept, rfl⟩

/-- Filled files hold file paths. -/
theorem FilledTree.validPath {trees : List (FilledTree env)} {record : IndexEntry}
    (member : record ∈ trees.flatMap FilledTree.records)
    : IsFilePath record.path := by
  obtain ⟨tree, _, inside⟩ := List.mem_flatMap.mp member
  obtain ⟨call, made, rfl⟩ := List.mem_map.mp inside
  exact tree.paths call made

/-- The map of the newest entries gives a listing. -/
theorem isListing {records found : List IndexEntry}
    (valid : ∀ record ∈ records, IsFilePath record.path)
    (scanned : found.Perm (records.filter (fun record => decide (InDirectory dir record.path))))
    : IsListing records dir found ((found.foldl BlockCache.addName ∅).toList.map Prod.snd)
        (((found.foldl BlockCache.addName ∅).toList.filter (fun entry => !entry.2.deleted)).map
          (fun entry => basename entry.1)) := by
  have mem_found {record : IndexEntry}
      : record ∈ found ↔ record ∈ records ∧ InDirectory dir record.path := by
    rw [scanned.mem_iff, List.mem_filter, decide_eq_true_iff]
  have kept {entry : IndexEntry}
      (member : entry ∈ (found.foldl BlockCache.addName ∅).toList.map Prod.snd)
      : entry ∈ records ∧ InDirectory dir entry.path
        ∧ ∀ record ∈ records, record.path = entry.path → record.mtime ≤ entry.mtime := by
    obtain ⟨_, inside, newest⟩ :=
      BlockCache.addNames_newest (BlockCache.mem_addNames.mp member)
    obtain ⟨record, here⟩ := mem_found.mp inside
    refine ⟨record, here, fun other there same => newest other ?_ same⟩
    exact mem_found.mpr ⟨there, same ▸ here⟩
  have entry_of {entry : Bytes × IndexEntry}
      (listed : entry ∈ (found.foldl BlockCache.addName ∅).toList)
      : entry.1 = entry.2.path
        ∧ entry.2 ∈ (found.foldl BlockCache.addName ∅).toList.map Prod.snd := by
    have there := Std.ExtTreeMap.mem_toList_iff_getElem?_eq_some.mp listed
    exact ⟨(BlockCache.addNames_newest there).1.symm, List.mem_map_of_mem listed⟩
  refine {
    found := scanned
    once := BlockCache.addNames_nodup found
    complete := ?_
    newest := fun entry member => ⟨(kept member).1, (kept member).2.2⟩
    distinct := ?_
    names := ?_
  }
  · intro path
    constructor
    · intro member
      obtain ⟨entry, listed, rfl⟩ := List.mem_map.mp member
      obtain ⟨record, inside, _⟩ := kept listed
      exact ⟨entry, record, rfl, inside⟩
    · rintro ⟨record, member, rfl, inside⟩
      obtain ⟨best, stored⟩ := BlockCache.addNames_some (mem_found.mpr ⟨member, inside⟩)
      obtain ⟨same, _⟩ := BlockCache.addNames_newest stored
      rw [← same] at stored ⊢
      exact List.mem_map_of_mem (BlockCache.mem_addNames.mpr stored)
  · -- two paths of one directory with the same base name are the same path
    have paths : ((found.foldl BlockCache.addName ∅).toList.filter
        (fun entry => !entry.2.deleted)).map (fun entry => basename entry.1)
        = (((found.foldl BlockCache.addName ∅).toList.filter
          (fun entry => !entry.2.deleted)).map Prod.fst).map basename := by
      rw [List.map_map]
      rfl
    rw [paths]
    refine List.Nodup.map_on ?_ ((Std.ExtTreeMap.nodup_keys
      (t := found.foldl BlockCache.addName ∅)).sublist ?_)
    · intro first firstIn second secondIn same
      obtain ⟨one, oneIn, rfl⟩ := List.mem_map.mp firstIn
      obtain ⟨two, twoIn, rfl⟩ := List.mem_map.mp secondIn
      obtain ⟨onePath, oneKept⟩ := entry_of (List.mem_of_mem_filter oneIn)
      obtain ⟨twoPath, twoKept⟩ := entry_of (List.mem_of_mem_filter twoIn)
      obtain ⟨oneRecord, oneInside, _⟩ := kept oneKept
      obtain ⟨twoRecord, twoInside, _⟩ := kept twoKept
      have onePath' := (oneInside.path_eq (valid _ oneRecord)).1
      have twoPath' := (twoInside.path_eq (valid _ twoRecord)).1
      rw [onePath, twoPath] at same ⊢
      rw [onePath', twoPath', same]
    · rw [← Std.ExtTreeMap.map_fst_toList_eq_keys]
      exact (List.filter_sublist).map _
  · intro name
    constructor
    · intro member
      obtain ⟨entry, listed, rfl⟩ := List.mem_map.mp member
      obtain ⟨inside, alive⟩ := List.mem_filter.mp listed
      obtain ⟨path, entryIn⟩ := entry_of inside
      obtain ⟨last, whole⟩ := (basename_eq_iff (valid _ (kept entryIn).1) _).mp rfl
      rw [path]
      exact ⟨last, entry.2, entryIn, by simpa using alive, whole⟩
    · rintro ⟨last, entry, listed, alive, whole⟩
      have name := (basename_eq_iff (valid _ (kept listed).1) _).mpr ⟨last, whole⟩
      have stored := Std.ExtTreeMap.mem_toList_iff_getElem?_eq_some.mpr
        (BlockCache.mem_addNames.mp listed)
      refine List.mem_map.mpr ⟨_, List.mem_filter.mpr ⟨stored, ?_⟩, name⟩
      simp [alive]

/-- The names of the newest entries that are not deletions go to the filler. -/
theorem FuseOps.readdir_eq {cache : BlockCache} {order : VisitOrder} {found : List IndexEntry}
    (children : BPLUSIndexLoader.getChildren dir (order.visit cache.disk) [] = .ok found)
    : FuseOps.readdir cache order dir
      = .ok ((((found.foldl BlockCache.addName ∅).toList.filter
          (fun entry => !entry.2.deleted)).map (fun entry => basename entry.1)) ++ [[46], [46, 46]],
        cache.loadTrees order) := by
  simp only [FuseOps.readdir, BlockCache.readdir, BlockCache.loadTrees, children, ok_bind,
    insertEntries_addNames]

/-- A listing of files that were filled: one child for each record, the newest record of each
path, and the names of those that are not deletions.
-/
theorem BlockCache.readdir_listing (trees : List (FilledTree env)) (cache : BlockCache)
    (order : VisitOrder) (onDisk : cache.disk = trees.map FilledTree.image)
    (absolute : dir.head? = some 47)
    : ∃ found entries names,
        BPLUSIndexLoader.getChildren dir (order.visit cache.disk) [] = .ok found
        ∧ cache.readdir order dir = .ok (entries, cache.loadTrees order)
        ∧ FuseOps.readdir cache order dir
          = .ok (names ++ [[46], [46, 46]], cache.loadTrees order)
        ∧ IsListing (trees.flatMap FilledTree.records) dir found entries names := by
  obtain ⟨found, children, scanned⟩ := getChildren_filled trees
    (onDisk ▸ order.perm cache.disk) absolute
  have children : BPLUSIndexLoader.getChildren dir (order.visit cache.disk) [] = .ok found := by
    rw [onDisk]
    exact children
  have listed : cache.readdir order dir
      = .ok ((found.foldl addName ∅).toList.map Prod.snd, cache.loadTrees order) := by
    simp only [readdir, loadTrees, children, ok_bind]
  exact ⟨found, _, _, children, listed, FuseOps.readdir_eq children,
    isListing (fun record member => FilledTree.validPath member) scanned⟩

/-- The root lists `/a` once, of which two files have a record. -/
theorem BlockCache.readdir_listing_two
    : let call (mtime : Nat) := oneBlockCall [65] [47, 97] [1, 2] mtime
      ∃ trees : List (FilledTree ⟨fun _ => Vector.replicate 32 0, fun _ => 0⟩),
        trees.map (·.calls) = [[call 7], [call 9]]
        ∧ ∃ cache : BlockCache, cache.disk = trees.map FilledTree.image
          ∧ ∃ found entries names,
            BPLUSIndexLoader.getChildren [47] cache.disk [] = .ok found
            ∧ cache.readdir ⟨id, .refl⟩ [47] = .ok (entries, cache.loadTrees ⟨id, .refl⟩)
            ∧ FuseOps.readdir cache ⟨id, .refl⟩ [47]
              = .ok (names ++ [[46], [46, 46]], cache.loadTrees ⟨id, .refl⟩)
            ∧ IsListing (trees.flatMap FilledTree.records) [47] found entries names := by
  intro call
  have valid : IsFilePath [47, 97] := ⟨[[97]], by decide, by decide, rfl⟩
  have only {mtime : Nat} {other : AddCall} (member : other ∈ [call mtime])
      : IsFilePath other.inode.path := by
    rw [List.mem_singleton.mp member]
    exact valid
  refine ⟨[
    .ofValid _ ⟨1, 2, 1, 2⟩ (List.cons_ne_nil (call 7) []) rfl
      ⟨by decide, by decide, by decide, by decide⟩ ⟨by decide, by decide, by decide⟩ (by decide)
      (fun _ => only),
    .ofValid _ ⟨1, 2, 1, 2⟩ (List.cons_ne_nil (call 9) []) rfl
      ⟨by decide, by decide, by decide, by decide⟩ ⟨by decide, by decide, by decide⟩ (by decide)
      (fun _ => only)], rfl, ?_⟩
  generalize List.cons _ _ = trees
  obtain ⟨cache, onDisk⟩ : ∃ cache : BlockCache, cache.disk = trees.map FilledTree.image :=
    ⟨.new (trees.map FilledTree.image) ⟨id, .refl⟩ 0, rfl⟩
  exact ⟨cache, onDisk, BlockCache.readdir_listing trees cache ⟨id, .refl⟩ onDisk rfl⟩

end ZippyFS
