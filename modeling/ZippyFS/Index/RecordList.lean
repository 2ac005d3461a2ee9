import ZippyFS.Index.NodeArena
import ZippyFS.Index.RecordDecode

/-! The inode list of an index file. Whatever ids the calls had, the list holds one record for
each call, in the order of the calls, and a scan reads back what the calls stored.
-/

namespace ZippyFS

open CellMemory StructLayout Outcomes

variable {env : Env} {caps : Capacities} {index new : BPLUSIndex} {done calls : List AddCall}
  {call : AddCall}

/-- An index whose calls left all their records, and whose nodes form an arena. -/
structure Laid (env : Env) (caps : Capacities) (index : BPLUSIndex) (calls : List AddCall)
    : Prop where
  shaped : Shaped caps.base index none
  regions : Regions caps index calls
  records
    : ∀ before call after, calls = before ++ call :: after
      → RecordAt env index.mem.mem (placeAfter caps before) call
  header : ∃ root, headerLayout.load index.mem.mem 0 = ⟨caps.numEnts, 608, root⟩

/-- An index in which only the first node is allocated. -/
theorem Shaped.first {root : IndexNode} {mem : Mem} (room : 608 ≤ caps.base)
    (hasRoot : index.hasRoot = true) (header : index.headerIdx = 0) (rooted : index.rootIdx = 1)
    (count : index.mem.latestIndex = 7) (size : index.mem.curSize = caps.base)
    (start : index.mem.getOffset 0 = .ok 0) (second : index.mem.getOffset 1 = .ok 24)
    (node : nodeLayout.load mem 24 = root) (leaf : root.isLeaf = true) (orphan : root.parent = -1)
    (full : root.numKeys ≤ ORDER - 1)
    : Shaped caps.base (withBytes index mem) none := by
  have size : (withBytes index mem).mem.curSize = caps.base := size
  have only {offset : Nat} (there : Allocated caps.base caps.base offset) : offset = 24 := by
    obtain ⟨rfl | ⟨number, rfl⟩, inside⟩ := there
    · rfl
    · omega
  refine {
    bounded := ?_
    linked := ?_
    room := room
    frontier := ⟨0, size⟩
    hasRoot := hasRoot
    header := by
      change index.mem.getOffset index.headerIdx = .ok 0
      rw [header]
      exact start
    headerOld := by
      change index.headerIdx < index.mem.latestIndex
      omega
    rooted := ⟨24, by
      change index.mem.getOffset index.rootIdx = .ok 24
      rw [rooted]
      exact second, Or.inl rfl, by
      rw [size]
      omega⟩
    rootOld := by
      change index.rootIdx < index.mem.latestIndex
      omega
  }
  · intro offset there
    rw [size] at there
    rw [only there, withBytes_mem, node]
    exact ⟨full, fun inner => absurd (leaf.symm.trans inner) (by decide),
      fun inner => absurd (leaf.symm.trans inner) (by decide)⟩
  · intro offset there _
    rw [size] at there
    rw [only there, withBytes_mem, node]
    exact Or.inl orphan

/-- A record that is written touches no node. -/
theorem Shaped.recordWritten (shaped : Shaped caps.base index none) {place : Place}
    (ordered : place.Ordered call caps.base) {mem : Mem}
    (outside
      : ∀ address, ¬ place.Covers call address → mem.cell address = index.mem.mem.cell address)
    : Arena caps.base index.mem.curSize mem none := by
  refine shaped.toArena.rewrite fun offset there => ?_
  rw [ordered.node outside there.1]
  exact ⟨shaped.bounded offset there, rfl, Or.inl ⟨rfl, by simp⟩⟩

/-- A record that is written leaves the index in shape. -/
theorem Laid.recordWritten (laid : Laid env caps index done)
    (fits : caps.Respected (done ++ [call])) (short : call.inode.inodeId.length ≤ HASH_SIZE)
    : Shaped caps.base (afterRecord env caps index done call) none := by
  have ordered := placeAfter_ordered fits
  obtain ⟨_, outside⟩ := recordBytes_spec env index.mem.mem ordered short
  exact {
    toArena := laid.shaped.recordWritten ordered outside
    room := laid.shaped.room
    frontier := laid.shaped.frontier
    hasRoot := laid.shaped.hasRoot
    header := laid.shaped.header
    headerOld := laid.shaped.headerOld
    rooted := laid.shaped.rooted
    rootOld := laid.shaped.rootOld
  }

/-- Every later call keeps the records and adds its own. -/
theorem Laid.next (laid : Laid env caps index done) (fits : caps.Respected (done ++ [call]))
    (short : call.inode.inodeId.length ≤ HASH_SIZE)
    (outcome
      : index.addInode env call.inode call.dirtyBlocks call.blockMtime = .ok new)
    : Laid env caps new (done ++ [call]) := by
  have ordered := placeAfter_ordered fits
  obtain ⟨record, outside⟩ := recordBytes_spec env index.mem.mem ordered short
  have written := laid.regions.writeRecord env call
  have regions := laid.regions.recordWritten env call
  have records := records_written laid.records fits record outside
  obtain ⟨root, header⟩ := laid.header
  have headerKept := ordered.header outside
  have shaped := laid.recordWritten fits short
  have linked : (afterRecord env caps index done call).insertKey call.inode.inodeId
      (placeAfter caps done).keyOf (placeAfter caps done).inodeOf = .ok new := by
    simpa only [BPLUSIndex.addInode, laid.shaped.hasRoot, Bool.not_true, Bool.false_eq_true,
      if_false, pure, Except.pure, ok_bind, written] using outcome
  have memIs : (afterRecord env caps index done call).mem.mem
      = recordBytes env index.mem.mem (placeAfter caps done) call := rfl
  rw [← memIs] at records headerKept
  generalize afterRecord env caps index done call = middle at *
  obtain ⟨done', progress⟩ := shaped.insertKey linked
  refine ⟨done', regions.progress progress, records_progress records fits progress, ?_⟩
  refine ⟨(headerLayout.load new.mem.mem 0).root, ?_⟩
  rw [progress.header, headerKept, header]

/-- The first call leaves a record behind the first node. -/
theorem Laid.first (fits : caps.Respected [call]) (short : call.inode.inodeId.length ≤ HASH_SIZE)
    (outcome
      : caps.index.addInode env call.inode call.dirtyBlocks call.blockMtime = .ok new)
    : Laid env caps new [call] := by
  obtain ⟨fresh, final, made, regions, hasRoot, headerIdx, rootIdx, stage, node, record, header⟩ :=
    addInode_first env fits short
  rw [made, Except.ok.injEq] at outcome
  subst outcome
  have room : 608 ≤ caps.base := by
    simp only [Capacities.base, Capacities.pathArr, Capacities.hashArr, Capacities.bdArr,
      Capacities.blockArr]
    omega
  have small : 1 ≤ ORDER - 1 := by decide
  refine ⟨Shaped.first room hasRoot headerIdx rootIdx stage.count stage.size
    (stage.offset 0 0 rfl) (stage.offset 1 24 rfl) node rfl rfl small, ?_, ?_, ⟨24, header⟩⟩
  · obtain ⟨_, _, _, _, _, _, _, _, _, _, _⟩ := regions.recordWritten env call
    constructor <;> assumption
  · intro before other after split
    obtain ⟨rfl, rfl⟩ : before = [] ∧ other = call := by
      cases before with
      | nil => exact ⟨rfl, (List.cons.inj split).1.symm⟩
      | cons head tail => simp at split
    exact record

/-- Calls that were carried out left their records, by induction on the calls. -/
theorem addAll_laid (made : calls ≠ []) (fits : caps.Respected calls)
    (short : ∀ call ∈ calls, call.inode.inodeId.length ≤ HASH_SIZE)
    (outcome : addAll env caps calls = .ok index)
    : Laid env caps index calls := by
  induction calls using List.reverseRecOn generalizing index with
  | nil => exact absurd rfl made
  | append_singleton done call ih =>
      obtain ⟨middle, before, last⟩ := addAll_concat.mp outcome
      have shortCall := short call (by simp)
      rcases eq_or_ne done [] with rfl | earlier
      · obtain rfl : caps.index = middle := Except.ok.inj before
        exact .first fits shortCall last
      · have laid := ih earlier fits.left (fun call member => short call (by simp [member])) before
        exact laid.next fits shortCall last

-----------------------------------------------------------------------------------------
-- Scanning
-----------------------------------------------------------------------------------------

/-- The entries that a scan of one file adds. -/
def Image.children (image : Image) (dir : Bytes) : List IndexEntry :=
  (List.range' 0 image.header.numInodes).flatMap (fun number =>
    (BPLUSIndexLoader.childEntry image dir
      (image.inode (image.header.inodeList + number * inodeLayout.size))).toList)

namespace BPLUSIndexLoader

/-- The cursor passes every record once if the list ends early enough, by induction on the
records that are left.
-/
theorem scanRecords_eq (image : Image) (dir : Bytes)
    (ends : image.header.inodeList + image.header.numInodes * inodeLayout.size < 2 ^ 32)
    (names : List IndexEntry)
    : scanRecords image dir (image.header.numInodes + 1) (image.header.inodeList % 2 ^ 32) names
      = .ok (names ++ image.children dir) := by
  have from_ (left done : Nat) (names : List IndexEntry)
      (split : done + left = image.header.numInodes)
      : scanRecords image dir (left + 1)
          (image.header.inodeList + done * inodeLayout.size) names
        = .ok (names ++ (List.range' done left).flatMap (fun number =>
          (childEntry image dir
            (image.inode (image.header.inodeList + number * inodeLayout.size))).toList)) := by
    induction left generalizing done names with
    | zero =>
        rw [scanRecords, if_neg (by rw [← split]; simp)]
        simp
    | succ left ih =>
        have inside : done * inodeLayout.size < image.header.numInodes * inodeLayout.size := by
          rw [← split]
          simp only [inodeLayout_size]
          omega
        have step : (image.header.inodeList + done * inodeLayout.size + inodeLayout.size) % 2 ^ 32
            = image.header.inodeList + (done + 1) * inodeLayout.size := by
          rw [← split] at ends
          simp only [inodeLayout_size] at ends ⊢
          omega
        rw [scanRecords, if_pos (by omega), step, ih (done + 1) _ (by omega), List.append_assoc]
        rfl
  have whole := from_ image.header.numInodes 0 names (Nat.zero_add _)
  simp only [Nat.zero_mul, Nat.add_zero] at whole
  rw [Nat.mod_eq_of_lt (by omega), whole]
  rfl

/-- The cursor never gets behind a list that does not end below `2 ^ 32`, by induction on the
budget.
-/
theorem scanRecords_diverges {image : Image}
    (wraps : 2 ^ 32 ≤ image.header.inodeList + image.header.numInodes * inodeLayout.size)
    (dir : Bytes) (fuel : Nat) {cursor : Nat} (bits : cursor < 2 ^ 32) (names : List IndexEntry)
    : scanRecords image dir fuel cursor names = .error .diverges := by
  induction fuel generalizing cursor names with
  | zero => rfl
  | succ fuel ih =>
      rw [scanRecords, if_pos (bits.trans_le wraps)]
      exact ih (Nat.mod_lt _ (by decide)) _

/-- If all children are found then every list ends, by induction on the files. -/
theorem ends_of_getChildren {dir : Bytes} {images : List Image} {names found : List IndexEntry}
    (children : getChildren dir images names = .ok found)
    : ∀ image ∈ images,
        image.header.inodeList + image.header.numInodes * inodeLayout.size < 2 ^ 32 := by
  induction images generalizing names with
  | nil => simp
  | cons first rest ih =>
      rw [getChildren] at children
      obtain ⟨middle, scanned, others⟩ := bind_eq_ok.mp children
      intro image member
      rcases List.mem_cons.mp member with rfl | later
      · by_contra wraps
        rw [scanRecords_diverges (not_lt.mp wraps) dir _ (Nat.mod_lt _ (by decide))] at scanned
        cases scanned
      · exact ih others image later

/-- The entries of all files, by induction on them. -/
theorem getChildren_eq (dir : Bytes) {images : List Image}
    (ends
      : ∀ image ∈ images,
        image.header.inodeList + image.header.numInodes * inodeLayout.size < 2 ^ 32)
    (names : List IndexEntry)
    : getChildren dir images names = .ok (names ++ images.flatMap (·.children dir)) := by
  induction images generalizing names with
  | nil => simp [getChildren]
  | cons image rest ih =>
      rw [getChildren, scanRecords_eq image dir (ends image (List.mem_cons_self ..)), ok_bind,
        ih (fun other member => ends other (List.mem_cons_of_mem _ member)), List.append_assoc,
        List.flatMap_cons]

end BPLUSIndexLoader

-----------------------------------------------------------------------------------------
-- Directories
-----------------------------------------------------------------------------------------

/-- The path without its last component is the directory. Nothing before the last slash means
the root.
-/
def InDirectory (dir path : Bytes) : Prop :=
  ∃ parents name : Bytes, path = parents ++ 47 :: name ∧ 47 ∉ name
    ∧ (if parents = [] then [47] else parents) = dir

/-- What comes before the last slash. -/
theorem BPLUSIndexLoader.parentOf_append {parents name : Bytes} (last : 47 ∉ name)
    : parentOf (parents ++ 47 :: name) = parents := by
  have behind : ∀ byte ∈ name.reverse, decide (byte ≠ (47 : UInt8)) = true := by
    intro byte member
    exact decide_eq_true fun same => last (same ▸ List.mem_reverse.mp member)
  have slash : (47 : UInt8) ∈ parents ++ 47 :: name := by simp
  rw [parentOf, if_pos slash, List.reverse_append, List.reverse_cons, List.append_assoc,
    List.dropWhile_append_of_pos behind]
  simp

/-- A path with a slash has a last one. -/
theorem exists_last_slash {path : Bytes} (slash : 47 ∈ path)
    : ∃ parents name : Bytes, path = parents ++ 47 :: name ∧ 47 ∉ name := by
  obtain ⟨name, parents, split, last⟩ :=
    List.eq_append_cons_of_mem (List.mem_reverse.mpr slash)
  refine ⟨parents.reverse, name.reverse, ?_, fun member => last (List.mem_reverse.mp member)⟩
  rw [← List.reverse_reverse path, split]
  simp

/-- The test of `get_children` decides what lies in an absolute directory. -/
theorem inDirectory_iff {dir path : Bytes} (slash : 47 ∈ path) (absolute : dir.head? = some 47)
    : InDirectory dir path
      ↔ (BPLUSIndexLoader.parentOf path = [] ∧ dir = [47])
        ∨ BPLUSIndexLoader.parentOf path = dir := by
  obtain ⟨parents, name, rfl, last⟩ := exists_last_slash slash
  rw [BPLUSIndexLoader.parentOf_append last]
  have nonempty : dir ≠ [] := fun none => by simp [none] at absolute
  constructor
  · rintro ⟨others, component, same, final, is⟩
    have equal := congrArg BPLUSIndexLoader.parentOf same
    rw [BPLUSIndexLoader.parentOf_append last, BPLUSIndexLoader.parentOf_append final] at equal
    subst equal
    by_cases top : parents = []
    · rw [if_pos top] at is
      exact Or.inl ⟨top, is.symm⟩
    · rw [if_neg top] at is
      exact Or.inr is
  · intro either
    refine ⟨parents, name, rfl, last, ?_⟩
    rcases either with ⟨top, root⟩ | same
    · rw [if_pos top, root]
    · rw [if_neg (fun top => nonempty (same ▸ top)), same]

instance (dir path : Bytes) : Decidable (InDirectory dir path) :=
  decidable_of_iff
    (path.any (· == 47) = true ∧ (if BPLUSIndexLoader.parentOf path = [] then [47]
      else BPLUSIndexLoader.parentOf path) = dir) <| by
    constructor
    · rintro ⟨slash, same⟩
      have member : 47 ∈ path := by simpa using slash
      obtain ⟨parents, name, rfl, last⟩ := exists_last_slash member
      rw [BPLUSIndexLoader.parentOf_append last] at same
      exact ⟨parents, name, rfl, last, same⟩
    · rintro ⟨parents, name, rfl, last, same⟩
      rw [BPLUSIndexLoader.parentOf_append last]
      exact ⟨by simp, same⟩

/-- An absolute path other than the root: at least one component, none of them empty, and no
terminator.
-/
def IsFilePath (path : Bytes) : Prop :=
  ∃ components : List Bytes, components ≠ []
    ∧ (∀ name ∈ components, name ≠ [] ∧ 47 ∉ name ∧ (0 : UInt8) ∉ name)
    ∧ path = components.flatMap (fun name => 47 :: name)

/-- The parts of a file path around its last slash. -/
theorem IsFilePath.split {path : Bytes} (valid : IsFilePath path)
    : (0 : UInt8) ∉ path
      ∧ ∃ parents name, path = parents ++ 47 :: name ∧ 47 ∉ name ∧ name ≠ [] ∧ parents ≠ [47] := by
  obtain ⟨components, some, clean, rfl⟩ := valid
  constructor
  · intro zero
    obtain ⟨name, member, inside⟩ := List.mem_flatMap.mp zero
    rcases List.mem_cons.mp inside with slash | inside
    · exact absurd slash (by decide)
    · exact (clean name member).2.2 inside
  · obtain ⟨before, name, rfl⟩ := List.eq_nil_or_concat components |>.resolve_left some
    obtain ⟨nonempty, last, _⟩ := clean name (by simp)
    refine ⟨before.flatMap (fun name => 47 :: name), name, by simp, last, nonempty, ?_⟩
    -- every component before the last slash has a character behind its own slash
    cases before with
    | nil => simp
    | cons first rest =>
        obtain ⟨character, _⟩ := clean first (by simp)
        intro same
        rw [List.flatMap_cons, List.cons_append, List.cons.injEq, List.append_eq_nil_iff] at same
        exact character same.2.1

/-- A file path is longer than the root. -/
theorem IsFilePath.one_lt_length {path : Bytes} (valid : IsFilePath path) : 1 < path.length := by
  obtain ⟨-, parents, name, rfl, -, nonempty, -⟩ := valid.split
  have some := List.length_pos_iff.mpr nonempty
  rw [List.length_append, List.length_cons]
  omega

/-- It is neither empty nor the root. -/
theorem IsFilePath.proper {path : Bytes} (valid : IsFilePath path) : path ≠ [] ∧ path ≠ [47] := by
  have long := valid.one_lt_length
  constructor
  · rintro rfl
    cases long
  · rintro rfl
    exact absurd long (lt_irrefl 1)

/-- The entry that a listing makes of a record. -/
def AddCall.entry (call : AddCall) : IndexEntry :=
  ⟨call.inode.path, call.inode.ulMtime, call.inode.deleted⟩

/-- A record in place is listed if its path lies in the directory. -/
theorem RecordAt.childEntry {image : Image} {place : Place}
    (record : RecordAt env image.mem place call) (valid : IsFilePath call.inode.path)
    {dir : Bytes} (absolute : dir.head? = some 47)
    : BPLUSIndexLoader.childEntry image dir (image.inode place.inodeOf)
      = if InDirectory dir call.inode.path then some call.entry else none := by
  obtain ⟨clean, parents, name, split, _, _, _⟩ := valid.split
  have slash : 47 ∈ call.inode.path := by
    rw [split]
    exact List.mem_append_right _ (List.mem_cons_self ..)
  have path := record.pathOf clean
  have mtime : (image.inode place.inodeOf).mtime = call.inode.ulMtime := record.mtime
  have deleted : (image.inode place.inodeOf).deleted = call.inode.deleted := record.deleted
  simp only [BPLUSIndexLoader.childEntry, path, mtime, deleted, ← inDirectory_iff slash absolute,
    AddCall.entry]

/-- A loaded file that was filled with exactly as many inodes as it has room for. -/
structure FilledTree (env : Env) where
  caps : Capacities
  calls : List AddCall
  made : calls ≠ []
  full : calls.length = caps.numEnts
  fits : caps.Respected calls
  short : ∀ call ∈ calls, call.inode.inodeId.length ≤ HASH_SIZE
  filled : ∃ index, addAll env caps calls = .ok index
  ends : 608 + caps.numEnts * inodeLayout.size < 2 ^ 32
  paths : ∀ call ∈ calls, IsFilePath call.inode.path

namespace FilledTree

/-- Calls with different ids fill a file. -/
def ofValid (env : Env) (caps : Capacities) {calls : List AddCall} (made : calls ≠ [])
    (full : calls.length = caps.numEnts) (fits : caps.Respected calls) (valid : ValidIds calls)
    (ends : 608 + caps.numEnts * inodeLayout.size < 2 ^ 32)
    (paths : ∀ call ∈ calls, IsFilePath call.inode.path)
    : FilledTree env where
  caps := caps
  calls := calls
  made := made
  full := full
  fits := fits
  short := fun call member => Nat.le_of_lt (valid.short call member)
  filled :=
    have ⟨index, _, _, _, outcome, _⟩ := addAll_built env made fits valid
    ⟨index, outcome⟩
  ends := ends
  paths := paths

/-- The bytes of the file. -/
def image (tree : FilledTree env) : Image :=
  match addAll env tree.caps tree.calls with
  | .ok index => index.image
  | .error _ => ⟨0, Mem.zero⟩

/-- The records of the file, one for each call. -/
def records (tree : FilledTree env) : List IndexEntry := tree.calls.map AddCall.entry

theorem laid (tree : FilledTree env)
    : ∃ index, tree.image = index.image ∧ Laid env tree.caps index tree.calls := by
  obtain ⟨index, outcome⟩ := tree.filled
  exact ⟨index, by simp only [image, outcome], addAll_laid tree.made tree.fits tree.short outcome⟩

/-- The header knows where the records are. -/
theorem header (tree : FilledTree env)
    : tree.image.header.inodeList = 608 ∧ tree.image.header.numInodes = tree.calls.length := by
  obtain ⟨index, image, laid⟩ := tree.laid
  obtain ⟨root, header⟩ := laid.header
  have is : tree.image.header = ⟨tree.caps.numEnts, 608, root⟩ := by
    rw [image]
    exact header
  rw [is, tree.full]
  exact ⟨rfl, rfl⟩

/-- A scan finds the entries of the records that lie in the directory, in the order of the calls.
-/
theorem children (tree : FilledTree env) {dir : Bytes} (absolute : dir.head? = some 47)
    : tree.image.children dir
      = tree.records.filter (fun entry => decide (InDirectory dir entry.path)) := by
  obtain ⟨index, image, laid⟩ := tree.laid
  obtain ⟨start, count⟩ := tree.header
  have one {before rest : List AddCall} {call : AddCall}
      (split : tree.calls = before ++ call :: rest)
      : (BPLUSIndexLoader.childEntry tree.image dir
          (tree.image.inode (608 + before.length * inodeLayout.size))).toList
        = [call.entry].filter (fun entry => decide (InDirectory dir entry.path)) := by
    have record := laid.records before call rest split
    have valid := tree.paths call (by simp [split])
    have place : 608 + before.length * inodeLayout.size
        = (placeAfter tree.caps before).inodeOf := by
      simp only [placeAfter]
    rw [image, place]
    generalize placeAfter tree.caps before = at_ at record
    have image : index.image.mem = index.mem.mem := rfl
    rw [← image] at record
    rw [record.childEntry valid absolute]
    by_cases inside : InDirectory dir call.inode.path
    · simp [AddCall.entry, inside]
    · simp [AddCall.entry, inside]
  have from_ (before rest : List AddCall) (split : tree.calls = before ++ rest)
      : (List.range' before.length rest.length).flatMap (fun number =>
          (BPLUSIndexLoader.childEntry tree.image dir
            (tree.image.inode (608 + number * inodeLayout.size))).toList)
        = (rest.map AddCall.entry).filter
          (fun entry => decide (InDirectory dir entry.path)) := by
    induction rest generalizing before with
    | nil => rfl
    | cons call rest ih =>
        have later := ih (before ++ [call]) (by rw [split]; simp)
        rw [List.length_append, List.length_singleton] at later
        have cons : (call :: rest).map AddCall.entry = [call.entry] ++ rest.map AddCall.entry := rfl
        rw [List.length_cons, List.range'_succ, List.flatMap_cons, later, one split, cons,
          List.filter_append]
  rw [Image.children, start, count]
  exact from_ [] tree.calls rfl

end FilledTree

end ZippyFS
