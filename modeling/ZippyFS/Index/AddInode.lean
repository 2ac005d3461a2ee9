import ZippyFS.Index.WriteRecord

/-! Whole sequences of `add_inode`: after every call the image is a search tree over the
inserted ids, and the record of every call lies where its own call wrote it.
-/

namespace ZippyFS

open CellMemory StructLayout ByteOrder SearchTree

open AddCall

/-- A sequence of calls on a fresh index. -/
def addAll (env : Env) (caps : Capacities) (calls : List AddCall) : Except Fault BPLUSIndex :=
  calls.foldlM
    (fun index call => index.addInode env call.inode call.dirtyBlocks call.blockMtime)
    caps.index

/-- The ids of the calls fit their slots and are pairwise distinct. -/
structure ValidIds (calls : List AddCall) : Prop where
  short : ∀ call ∈ calls, call.inode.inodeId.length < HASH_SIZE
  clean : ∀ call ∈ calls, (0 : UInt8) ∉ call.inode.inodeId
  distinct : (calls.map (·.inode.inodeId)).Nodup

/-- Earlier calls are as valid as all of them. -/
theorem ValidIds.left {calls rest : List AddCall} (valid : ValidIds (calls ++ rest))
    : ValidIds calls where
  short := fun call member => valid.short call (by simp [member])
  clean := fun call member => valid.clean call (by simp [member])
  distinct := by
    have whole := valid.distinct
    rw [List.map_append] at whole
    exact (List.nodup_append.mp whole).1

/-- The members of the index that name its regions and running positions. -/
structure Regions (caps : Capacities) (index : BPLUSIndex) (done : List AddCall) : Prop where
  inodeArr : index.mem.getOffset index.inodeArrIdx = .ok 608
  blockArr : index.mem.getOffset index.blockArrIdx = .ok caps.blockArr
  bdArr : index.mem.getOffset index.bdArrIdx = .ok caps.bdArr
  hashArr : index.mem.getOffset index.hashArrIdx = .ok caps.hashArr
  pathArr : index.mem.getOffset index.pathArrIdx = .ok caps.pathArr
  older
    : ∀ number ∈ [index.inodeArrIdx, index.blockArrIdx, index.bdArrIdx, index.hashArrIdx,
        index.pathArrIdx], number < index.mem.latestIndex
  inodes : index.curInodeArrIdx = done.length
  hashes : index.curHashArrIdx = done.length * HASH_SIZE
  bytes : index.curBlockArrIdx = totalBytes done
  blocks : index.curBdArrIdx = totalBlocks done
  paths : index.curPathIdx = totalPaths done

/-- The index after a record was written and before its key is linked. -/
def afterRecord (env : Env) (caps : Capacities) (index : BPLUSIndex) (done : List AddCall)
    (call : AddCall)
    : BPLUSIndex :=
  { index with
    mem := index.mem.withMem (recordBytes env index.mem.mem (placeAfter caps done) call)
    curBlockArrIdx := totalBytes done + call.blockBytes
    curBdArrIdx := totalBlocks done + call.dirtyBlocks.size
    curInodeArrIdx := done.length + 1
    curHashArrIdx := done.length * HASH_SIZE + HASH_SIZE
    curPathIdx := totalPaths done + call.inode.path.length }

section Record

variable {env : Env} {caps : Capacities} {index : BPLUSIndex} {done : List AddCall}
  {call : AddCall}

/-- The record goes to the place behind the calls made so far. -/
theorem Regions.writeRecord (regions : Regions caps index done) (env : Env) (call : AddCall)
    : index.writeRecord env call.inode call.dirtyBlocks call.blockMtime
      = .ok ((placeAfter caps done).keyOf, (placeAfter caps done).inodeOf,
          afterRecord env caps index done call) := by
  simp only [BPLUSIndex.writeRecord, regions.pathArr, regions.hashArr, regions.inodeArr,
    regions.blockArr, regions.bdArr, regions.paths, regions.hashes, regions.inodes,
    regions.bytes, regions.blocks, bind, Except.bind]
  rfl

/-- Writing a record advances the positions. -/
theorem Regions.recordWritten (regions : Regions caps index done) (env : Env) (call : AddCall)
    : Regions caps (afterRecord env caps index done call) (done ++ [call]) where
  inodeArr := regions.inodeArr
  blockArr := regions.blockArr
  bdArr := regions.bdArr
  hashArr := regions.hashArr
  pathArr := regions.pathArr
  older := regions.older
  inodes := by simp [afterRecord]
  hashes := by
    simp only [afterRecord, List.length_append, List.length_singleton, Nat.succ_mul]
  bytes := by simp [afterRecord, totalBytes]
  blocks := by simp [afterRecord, totalBlocks]
  paths := by simp [afterRecord, totalPaths]

/-- Linking a key changes neither regions nor positions. -/
theorem Regions.progress {new : BPLUSIndex} {base : Nat} (regions : Regions caps index done)
    (progress : Progress base index new)
    : Regions caps new done := by
  have kept := progress.regions.kept
  have older := regions.older
  have grows := progress.regions.grows
  simp only [List.mem_cons, List.not_mem_nil, or_false, forall_eq_or_imp, forall_eq] at older
  obtain ⟨first, second, third, fourth, fifth⟩ := older
  rw [progress.cursors]
  exact {
    inodeArr := (kept _ first).trans regions.inodeArr
    blockArr := (kept _ second).trans regions.blockArr
    bdArr := (kept _ third).trans regions.bdArr
    hashArr := (kept _ fourth).trans regions.hashArr
    pathArr := (kept _ fifth).trans regions.pathArr
    older := fun number member => (regions.older number member).trans_le grows
    inodes := regions.inodes
    hashes := regions.hashes
    bytes := regions.bytes
    blocks := regions.blocks
    paths := regions.paths
  }

end Record

-----------------------------------------------------------------------------------------
-- The invariant between calls
-----------------------------------------------------------------------------------------

/-- The slots that hold a key after `count` calls. -/
def WrittenSlot (caps : Capacities) (count : Nat) (key : Int) : Prop :=
  ∃ number < count, key = (caps.hashArr + number * HASH_SIZE : Nat)

/-- An index that was built by the calls. -/
structure Built (env : Env) (caps : Capacities) (index : BPLUSIndex) (calls : List AddCall)
    (spans : Nat → Option (Span Bytes)) (root top : Nat)
    : Prop where
  ok : IndexOk caps.base (WrittenSlot caps calls.length) (keyAt index.mem.mem) index spans root top
  tree : Tree (heapOf (keyAt index.mem.mem) index.mem.mem) spans root top
  stored
    : ∀ entry, Stored (heapOf (keyAt index.mem.mem) index.mem.mem) spans entry
      ↔ ∃ before call after, calls = before ++ call :: after
        ∧ entry = (call.inode.inodeId, ((placeAfter caps before).inodeOf : Int))
  regions : Regions caps index calls
  records
    : ∀ before call after, calls = before ++ call :: after
      → RecordAt env index.mem.mem (placeAfter caps before) call
  header : headerLayout.load index.mem.mem 0 = ⟨caps.numEnts, 608, root⟩

section Step

variable {env : Env} {caps : Capacities} {index : BPLUSIndex} {done : List AddCall}
  {call : AddCall} {spans : Nat → Option (Span Bytes)} {root top base : Nat}
  {AtSlot : Int → Prop} {strings other : Int → Bytes}

/-- Views agree when the strings of the live keys do. -/
theorem viewNode_congr {node : IndexNode}
    (same : ∀ key ∈ node.liveKeys, other key = strings key)
    : viewNode other node = viewNode strings node := by
  unfold viewNode
  rw [List.map_congr_left same]

/-- Strings may be read off the current memory at any time. -/
theorem IndexOk.restring (ok : IndexOk base AtSlot strings index spans root top)
    : IndexOk base AtSlot (keyAt index.mem.mem) index spans root top
      ∧ ∀ node span, spans node = some span
        → heapOf (keyAt index.mem.mem) index.mem.mem node = heapOf strings index.mem.mem node := by
  constructor
  · exact { ok with known := fun _ _ => rfl }
  · intro node span live
    apply viewNode_congr
    intro key member
    exact ok.known key (ok.slots node span live key member)

/-- Live nodes with equal views store the same entries. -/
theorem stored_of_same {heap next : Nat → Node Nat Bytes Int}
    (same : ∀ node span, spans node = some span → next node = heap node) (entry : Bytes × Int)
    : Stored next spans entry ↔ Stored heap spans entry := by
  apply stored_congr
  intro node entries
  refine and_congr_right ?_
  rintro ⟨span, live⟩
  rw [same node span live]

/-- A place never covers the header or a node. -/
theorem Place.Ordered.covers {place : Place} (ordered : place.Ordered call base) {address : Nat}
    (covers : place.Covers call address)
    : 608 ≤ address ∧ address < base := by
  obtain ⟨inode, data, entries, key, path, stop⟩ := ordered
  simp only [inodeLayout_size, blockDataLayout_size, HASH_SIZE] at *
  unfold Place.Covers at covers
  simp only [inodeLayout_size, blockDataLayout_size, HASH_SIZE] at covers
  omega

/-- A later place covers nothing that an earlier one does. -/
theorem placeAfter_disjoint {before after : List AddCall} {earlier : AddCall} {address : Nat}
    (fits : caps.Respected (before ++ earlier :: after ++ [call]))
    (first : (placeAfter caps before).Covers earlier address)
    : ¬ (placeAfter caps (before ++ earlier :: after)).Covers call address := by
  have ordered := placeAfter_ordered fits
  have split : before ++ earlier :: after ++ [call]
      = (before ++ [earlier]) ++ (after ++ [call]) := by simp
  have firstOrdered : (placeAfter caps before).Ordered earlier caps.base :=
    placeAfter_ordered (Capacities.Respected.left (split ▸ fits))
  obtain ⟨_, _, _, _, _, _⟩ := ordered
  obtain ⟨_, _, _, _, _, _⟩ := firstOrdered
  obtain ⟨entries, bytes, blocks, paths⟩ := fits
  unfold Place.Covers at *
  simp only [placeAfter, Capacities.pathArr, Capacities.hashArr, Capacities.bdArr,
    Capacities.blockArr, totalPaths, totalBytes, totalBlocks, List.map_append, List.map_cons,
    List.sum_append, List.sum_cons, List.length_append, List.length_cons, List.map_nil,
    List.sum_nil, List.length_nil, inodeLayout_size, blockDataLayout_size, HASH_SIZE] at *
  omega

/-- A record never covers the header. -/
theorem Place.Ordered.header {place : Place} {mem next : Mem} (ordered : place.Ordered call base)
    (outside : ∀ address, ¬ place.Covers call address → next.cell address = mem.cell address)
    : headerLayout.load next 0 = headerLayout.load mem 0 := by
  apply Layout.load_congr
  intro address _ high
  apply outside
  intro covers
  have bounds := ordered.covers covers
  simp only [headerLayout_size] at high
  omega

/-- A record never covers a node. -/
theorem Place.Ordered.node {place : Place} {mem next : Mem} (ordered : place.Ordered call base)
    (outside : ∀ address, ¬ place.Covers call address → next.cell address = mem.cell address)
    {offset : Nat} (there : NodePlace base offset)
    : nodeLayout.load next offset = nodeLayout.load mem offset := by
  apply Layout.load_congr
  intro address low high
  apply outside
  intro covers
  have bounds := ordered.covers covers
  simp only [nodeLayout_size] at high
  rcases there with rfl | ⟨number, rfl⟩ <;> omega

/-- The record of a new call leaves the records of earlier calls alone. -/
theorem records_written {mem next : Mem}
    (records
      : ∀ before earlier after, done = before ++ earlier :: after
        → RecordAt env mem (placeAfter caps before) earlier)
    (fits : caps.Respected (done ++ [call]))
    (record : RecordAt env next (placeAfter caps done) call)
    (outside
      : ∀ address, ¬ (placeAfter caps done).Covers call address
        → next.cell address = mem.cell address)
    : ∀ before earlier after, done ++ [call] = before ++ earlier :: after
      → RecordAt env next (placeAfter caps before) earlier := by
  intro before earlier after split
  rcases List.eq_nil_or_concat after with rfl | ⟨rest, last, rfl⟩
  · obtain ⟨rfl, same⟩ := List.append_inj' split rfl
    obtain rfl : call = earlier := by simpa using same
    exact record
  · have whole : done ++ [call] = (before ++ earlier :: rest) ++ [last] := by
      rw [split]
      simp
    obtain ⟨rfl, same⟩ := List.append_inj' whole rfl
    obtain rfl : call = last := by simpa using same
    apply (records before earlier rest rfl).congr
    intro address covers
    exact outside address (placeAfter_disjoint fits covers)

/-- Linking a key leaves the records of all calls alone. -/
theorem records_progress {new : BPLUSIndex} {calls : List AddCall}
    (records
      : ∀ before earlier after, calls = before ++ earlier :: after
        → RecordAt env index.mem.mem (placeAfter caps before) earlier)
    (fits : caps.Respected calls) (progress : Progress caps.base index new)
    : ∀ before earlier after, calls = before ++ earlier :: after
      → RecordAt env new.mem.mem (placeAfter caps before) earlier := by
  intro before earlier after split
  apply (records before earlier after split).congr
  intro address covers
  have ordered : (placeAfter caps before).Ordered earlier caps.base := by
    have whole : calls = (before ++ [earlier]) ++ after := by
      rw [split]
      simp
    rw [whole] at fits
    exact placeAfter_ordered fits.left
  obtain ⟨low, high⟩ := ordered.covers covers
  exact progress.records address low high

/-- Writing a record keeps the invariant of the tree and all earlier records. -/
theorem Built.recordWritten (built : Built env caps index done spans root top)
    (fits : caps.Respected (done ++ [call])) (valid : ValidIds (done ++ [call]))
    : IndexOk caps.base (WrittenSlot caps (done.length + 1))
          (keyAt (afterRecord env caps index done call).mem.mem)
          (afterRecord env caps index done call) spans root top
      ∧ (∀ node span, spans node = some span
        → heapOf (keyAt (afterRecord env caps index done call).mem.mem)
            (afterRecord env caps index done call).mem.mem node
          = heapOf (keyAt index.mem.mem) index.mem.mem node)
      ∧ (∀ before earlier after, done ++ [call] = before ++ earlier :: after
        → RecordAt env (afterRecord env caps index done call).mem.mem (placeAfter caps before)
            earlier)
      ∧ headerLayout.load (afterRecord env caps index done call).mem.mem 0
        = headerLayout.load index.mem.mem 0 := by
  have ok := built.ok
  have ordered := placeAfter_ordered fits
  have short : call.inode.inodeId.length ≤ HASH_SIZE :=
    le_of_lt (valid.short call (by simp))
  obtain ⟨record, outside⟩ := recordBytes_spec env index.mem.mem ordered short
  have memIs : (afterRecord env caps index done call).mem.mem
      = recordBytes env index.mem.mem (placeAfter caps done) call := rfl
  rw [memIs]
  generalize memDef : recordBytes env index.mem.mem (placeAfter caps done) call = mem at *
  have headerKept := ordered.header outside
  have nodeKept : ∀ node span, spans node = some span
      → nodeLayout.load mem node = nodeLayout.load index.mem.mem node := fun node span live =>
    ordered.node outside (ok.live node span live).1
  have keysKept : ∀ key, WrittenSlot caps done.length key
      → keyAt mem key = keyAt index.mem.mem key := by
    rintro key ⟨number, inside, rfl⟩
    apply Mem.cString_congr
    apply Mem.read_congr
    intro address low high
    apply outside
    obtain ⟨entries, bytes, blocks, paths⟩ := fits
    unfold Place.Covers
    simp only [placeAfter, Capacities.pathArr, Capacities.hashArr, Capacities.bdArr,
      Capacities.blockArr, totalPaths, totalBytes, totalBlocks, List.map_append, List.map_cons,
      List.sum_append, List.sum_cons, List.length_append, List.length_cons, List.map_nil,
      List.sum_nil, List.length_nil, inodeLayout_size, blockDataLayout_size, HASH_SIZE,
      Int.toNat_natCast] at *
    omega
  have older : ∀ key, WrittenSlot caps done.length key
      → WrittenSlot caps (done.length + 1) key := by
    rintro key ⟨number, inside, rfl⟩
    exact ⟨number, Nat.lt_succ_of_lt inside, rfl⟩
  refine ⟨?_, ?_, ?_, headerKept⟩
  · exact {
      room := ok.room
      frontier := ok.frontier
      live := ok.live
      within := by
        rintro key ⟨number, inside, rfl⟩
        have count := fits.entries
        simp only [KeySlot, Capacities.base, Capacities.pathArr, Capacities.hashArr,
          Capacities.bdArr, Capacities.blockArr, HASH_SIZE, inodeLayout_size,
          List.length_append, List.length_singleton] at *
        omega
      known := fun key _ => by rw [memIs]
      slots := by
        intro node span live key member
        rw [memIs, nodeKept node span live] at member
        exact older key (ok.slots node span live key member)
      full := by
        intro node span live
        rw [memIs, nodeKept node span live]
        exact ok.full node span live
      filled := by
        intro node span live
        rw [memIs, nodeKept node span live]
        exact ok.filled node span live
      nonempty := by
        intro node span live
        rw [memIs, nodeKept node span live]
        exact ok.nonempty node span live
      hasRoot := ok.hasRoot
      header := ok.header
      rooted := ok.rooted
      headerOld := ok.headerOld
      rootOld := ok.rootOld
      pointer := by rw [memIs, headerKept, ok.pointer]
      tall := ok.tall
      sized := ok.sized
    }
  · intro node span live
    rw [heapOf, nodeKept node span live]
    apply viewNode_congr
    intro key member
    exact keysKept key (ok.slots node span live key member)
  · exact records_written built.records fits record outside

end Step

-----------------------------------------------------------------------------------------
-- The first call
-----------------------------------------------------------------------------------------

/-- A file under construction: the offsets of its regions, its size and its header. -/
structure Stage (tires : TireFire) (offsets : List Nat) (size : Nat) (header : Header)
    : Prop where
  count : tires.latestIndex = offsets.length
  size : tires.curSize = size
  offset : ∀ index offset, offsets[index]? = some offset → tires.getOffset index = .ok offset
  header : headerLayout.load tires.mem 0 = header

namespace Stage

variable {tires : TireFire} {offsets : List Nat} {size : Nat} {header : Header}

/-- One region more. -/
theorem getTire (stage : Stage tires offsets size header) (room : 24 ≤ size) (amount : Nat)
    : Stage (tires.getTire amount).2 (offsets ++ [size]) (size + amount) header where
  count := by simp [stage.count]
  size := by simp [stage.size]
  offset := by
    intro index offset known
    rcases Nat.lt_trichotomy index offsets.length with before | here | behind
    · rw [List.getElem?_append_left before] at known
      rw [TireFire.getTire_getOffset_old _ _ _ (by rw [stage.count]; omega)]
      exact stage.offset index offset known
    · subst here
      have last := TireFire.getTire_getOffset_new tires amount
      rw [stage.count, stage.size] at last
      simp only [List.getElem?_concat_length, Option.some.injEq] at known
      rw [last, known]
    · rw [List.getElem?_eq_none (by simp; omega)] at known
      simp at known
  header := by
    rw [← stage.header]
    apply Layout.load_congr
    intro address _ high
    apply Mem.clear_outside
    simp only [headerLayout_size, stage.size] at *
    omega

/-- Another header. -/
theorem storeHeader (stage : Stage tires offsets size header) (new : Header)
    : Stage (tires.store headerLayout 0 new) offsets size new where
  count := stage.count
  size := stage.size
  offset := stage.offset
  header := by simp

/-- Another first node. -/
theorem storeNode (stage : Stage tires offsets size header) (node : IndexNode)
    : Stage (tires.store nodeLayout 24 node) offsets size header where
  count := stage.count
  size := stage.size
  offset := stage.offset
  header := by
    rw [← stage.header]
    apply Layout.load_congr
    intro address _ high
    apply Layout.store_outside
    simp only [headerLayout_size] at high
    omega

/-- Regions behind the first node leave it alone. -/
theorem getTire_node (stage : Stage tires offsets size header) (room : 608 ≤ size)
    (amount : Nat)
    : nodeLayout.load (tires.getTire amount).2.mem 24 = nodeLayout.load tires.mem 24 := by
  apply Layout.load_congr
  intro address _ high
  apply Mem.clear_outside
  simp only [nodeLayout_size, stage.size] at *
  omega

end Stage

/-- The first node before its first key is set. -/
def firstNode : IndexNode := { nodeLayout.zero with isLeaf := true, numKeys := 1, parent := -1 }

/-- The regions of a fresh index, its header and its first node. -/
theorem allocateRegions_spec (caps : Capacities)
    : ∃ new, caps.index.allocateRegions = .ok new
        ∧ Regions caps new []
        ∧ new.hasRoot = true
        ∧ new.headerIdx = 0
        ∧ new.rootIdx = 1
        ∧ Stage new.mem [0, 24, 608, caps.blockArr, caps.bdArr, caps.hashArr, caps.pathArr]
            caps.base ⟨caps.numEnts, 608, 24⟩
        ∧ nodeLayout.load new.mem.mem 24 = firstNode := by
  have start : Stage (caps.index.mem.getTire headerLayout.size).2 [0] 24 ⟨0, 0, 0⟩ := by
    refine ⟨rfl, rfl, ?_, ?_⟩
    · intro index offset known
      match index, known with
      | 0, known =>
          obtain rfl : 0 = offset := by simpa using known
          exact TireFire.getTire_getOffset_new caps.index.mem _
      | index + 1, known => simp at known
    · exact Layout.load_clear_same headerLayout _ 0
  unfold BPLUSIndex.allocateRegions
  dsimp only [TireFire.getTire_index]
  generalize (caps.index.mem.getTire headerLayout.size).2 = tires1 at *
  have one := start.offset 0 0 rfl
  rw [show caps.index.mem.latestIndex = 0 from rfl, one]
  simp only [bind, Except.bind]
  have first := (start.storeHeader
    { tires1.load headerLayout 0 with numInodes := caps.index.numEnts })
  have headerIs : tires1.load headerLayout 0 = ⟨0, 0, 0⟩ := start.header
  rw [headerIs] at first ⊢
  generalize tires1.store headerLayout 0 _ = tires2 at *
  -- The first node.
  have second := first.getTire (le_refl _) nodeLayout.size
  have zero : nodeLayout.load (tires2.getTire nodeLayout.size).2.mem 24 = nodeLayout.zero := by
    have cleared := Layout.load_clear_same nodeLayout tires2.mem tires2.curSize
    rw [first.size] at cleared
    rw [TireFire.getTire_mem, first.size, cleared]
  rw [first.count]
  generalize (tires2.getTire nodeLayout.size).2 = tires3 at *
  rw [second.offset _ 24 rfl]
  dsimp only
  have headerIs : tires3.load headerLayout 0 = ⟨caps.numEnts, 0, 0⟩ := second.header
  have third := second.storeHeader { tires3.load headerLayout 0 with root := 24 }
  have stillZero : nodeLayout.load
      (tires3.store headerLayout 0 { tires3.load headerLayout 0 with root := 24 }).mem 24
      = nodeLayout.zero := by
    rw [TireFire.store_mem, load_storeHeader (Or.inl rfl) (le_refl 608), zero]
  rw [headerIs] at third stillZero ⊢
  generalize tires3.store headerLayout 0 _ = tires4 at *
  have nodeIs : tires4.load nodeLayout 24 = nodeLayout.zero := stillZero
  have fourth := third.storeNode
    { tires4.load nodeLayout 24 with isLeaf := true, numKeys := 1, parent := -1 }
  have nodeStored : nodeLayout.load (tires4.store nodeLayout 24
      { tires4.load nodeLayout 24 with isLeaf := true, numKeys := 1, parent := -1 }).mem 24
      = firstNode := by
    rw [TireFire.store_mem, Layout.load_store_same, nodeIs]
    rfl
  rw [nodeIs] at fourth nodeStored ⊢
  generalize tires4.store nodeLayout 24 _ = tires5 at *
  -- The inode array, whose offset goes into the header.
  have fifth := fourth.getTire (by decide) (inodeLayout.size * caps.index.numEnts)
  have node6 := fourth.getTire_node (by decide) (inodeLayout.size * caps.index.numEnts)
  rw [fourth.count]
  generalize (tires5.getTire (inodeLayout.size * caps.index.numEnts)).2 = tires6 at *
  rw [fifth.offset _ 608 rfl]
  dsimp only
  have headerIs : tires6.load headerLayout 0 = ⟨caps.numEnts, 0, 24⟩ := fifth.header
  have sixth := fifth.storeHeader { tires6.load headerLayout 0 with inodeList := 608 }
  have node7 : nodeLayout.load
      (tires6.store headerLayout 0 { tires6.load headerLayout 0 with inodeList := 608 }).mem 24
      = firstNode := by
    rw [TireFire.store_mem, load_storeHeader (Or.inl rfl) (le_refl 608), node6, nodeStored]
  rw [headerIs] at sixth node7 ⊢
  generalize tires6.store headerLayout 0 _ = tires7 at *
  -- The other regions.
  have width : nodeLayout.size = 584 := rfl
  have seventh := sixth.getTire (by omega) caps.index.blockSize
  have node8 := sixth.getTire_node (by omega) caps.index.blockSize
  have eighth := seventh.getTire (by omega) (caps.index.numBlocks * blockDataLayout.size)
  have node9 := seventh.getTire_node (by omega) (caps.index.numBlocks * blockDataLayout.size)
  have ninth := eighth.getTire (by omega) (caps.index.numEnts * HASH_SIZE)
  have node10 := eighth.getTire_node (by omega) (caps.index.numEnts * HASH_SIZE)
  have tenth := ninth.getTire (by omega) caps.index.pathSize
  have node11 := ninth.getTire_node (by omega) caps.index.pathSize
  rw [sixth.count, seventh.count, eighth.count, ninth.count]
  refine ⟨_, rfl, ?_, rfl, rfl, rfl, tenth, ?_⟩
  · exact {
      inodeArr := tenth.offset _ _ rfl
      blockArr := tenth.offset _ _ rfl
      bdArr := tenth.offset _ _ rfl
      hashArr := tenth.offset _ _ rfl
      pathArr := tenth.offset _ _ rfl
      older := by
        rw [tenth.count]
        simp
      inodes := rfl
      hashes := rfl
      bytes := rfl
      blocks := rfl
      paths := rfl
    }
  · rw [node11, node10, node9, node8, node7]

section Calls

variable {env : Env} {caps : Capacities} {index : BPLUSIndex} {done : List AddCall}
  {call : AddCall} {spans : Nat → Option (Span Bytes)} {root top : Nat}

/-- The strings that are read back from a written slot. -/
theorem RecordAt.keyAt {mem : Mem} {place : Place} (record : RecordAt env mem place call)
    (clean : (0 : UInt8) ∉ call.inode.inodeId)
    : keyAt mem place.keyOf = call.inode.inodeId := by
  unfold ZippyFS.keyAt Mem.cString
  rw [Int.toNat_natCast, record.key]
  exact takeWhile_padded clean (fun byte member => List.eq_of_mem_replicate member)

/-- The first node with its first pair. -/
def rootWith (keyOf inodeOf : Int) : IndexNode := (firstNode.setKey 0 keyOf).setValue 0 inodeOf

theorem rootWith_liveKeys (keyOf inodeOf : Int)
    : (rootWith keyOf inodeOf).liveKeys = [keyOf] := by
  have first : (rootWith keyOf inodeOf).key 0 = keyOf := by
    simp only [rootWith, IndexNode.setValue_key]
    rw [IndexNode.key_setKey _ _ _ _ (by decide), if_pos rfl]
  have count : (rootWith keyOf inodeOf).numKeys = 1 := rfl
  simp [IndexNode.liveKeys, count, first]

theorem viewNode_rootWith (strings : Int → Bytes) (keyOf inodeOf : Int)
    : viewNode strings (rootWith keyOf inodeOf) = ⟨none, .leaf [(strings keyOf, inodeOf)]⟩ := by
  have first : (rootWith keyOf inodeOf).value 0 = inodeOf := by
    simp only [rootWith]
    rw [IndexNode.value_setValue _ _ _ _ (by decide), if_pos rfl]
  have count : (rootWith keyOf inodeOf).numKeys = 1 := rfl
  have values : (rootWith keyOf inodeOf).liveValues = [inodeOf] := by
    simp [IndexNode.liveValues, count, first]
  have kind : (rootWith keyOf inodeOf).isLeaf = true := rfl
  have orphan : (rootWith keyOf inodeOf).parent = -1 := rfl
  simp [viewNode, kind, orphan, rootWith_liveKeys, values]

/-- One leaf is a search tree. -/
theorem singleLeaf {heap : Nat → Node Nat Bytes Int} {leaf : Nat} {entry : Bytes × Int}
    (shape : heap leaf = ⟨none, .leaf [entry]⟩)
    : Tree heap (Function.update (fun _ => none) leaf (some ⟨0, ⊥, ⊤⟩)) leaf 0
      ∧ ∀ other, Stored heap (Function.update (fun _ => none) leaf (some ⟨0, ⊥, ⊤⟩)) other
        ↔ other = entry := by
  have only : ∀ node span, Function.update (fun _ => none) leaf
      (some (⟨0, ⊥, ⊤⟩ : Span Bytes)) node = some span → node = leaf ∧ span = ⟨0, ⊥, ⊤⟩ := by
    intro node span live
    by_cases here : node = leaf
    · subst here
      rw [Function.update_self] at live
      exact ⟨rfl, (Option.some.inj live).symm⟩
    · rw [Function.update_of_ne here] at live
      simp at live
  constructor
  · refine {
      rootSpan := Function.update_self _ _ _
      rootParent := by rw [shape]
      nodes := ?_
      listed := ?_
      below := ?_
    }
    · intro node span live
      obtain ⟨rfl, rfl⟩ := only node span live
      refine .leaf (by rw [shape]) ⟨by simp, by simp, ?_⟩
      intro key same
      simp at same
    · intro node span live notRoot
      exact absurd (only node span live).1 notRoot
    · intro node span live notRoot
      exact absurd (only node span live).1 notRoot
  · intro other
    constructor
    · rintro ⟨node, span, entries, live, body, member⟩
      obtain ⟨rfl, rfl⟩ := only node span live
      rw [shape] at body
      obtain rfl := Body.leaf.inj body
      simpa using member
    · rintro rfl
      exact ⟨leaf, _, [other], Function.update_self _ _ _, by rw [shape], by simp⟩

/-- What the first call leaves behind. -/
theorem addInode_first (env : Env) (fits : caps.Respected [call])
    (short : call.inode.inodeId.length ≤ HASH_SIZE)
    : ∃ fresh final,
        caps.index.addInode env call.inode call.dirtyBlocks call.blockMtime
          = .ok (withBytes (afterRecord env caps fresh [] call) final)
        ∧ Regions caps fresh []
        ∧ fresh.hasRoot = true
        ∧ fresh.headerIdx = 0
        ∧ fresh.rootIdx = 1
        ∧ Stage fresh.mem [0, 24, 608, caps.blockArr, caps.bdArr, caps.hashArr, caps.pathArr]
            caps.base ⟨caps.numEnts, 608, 24⟩
        ∧ nodeLayout.load final 24
          = rootWith (placeAfter caps []).keyOf (placeAfter caps []).inodeOf
        ∧ RecordAt env final (placeAfter caps []) call
        ∧ headerLayout.load final 0 = ⟨caps.numEnts, 608, 24⟩ := by
  obtain ⟨fresh, allocated, regions, hasRoot, headerIdx, rootIdx, stage, node⟩ :=
    allocateRegions_spec caps
  have ordered : (placeAfter caps []).Ordered call caps.base := placeAfter_ordered fits
  obtain ⟨record, outside⟩ := recordBytes_spec env fresh.mem.mem ordered short
  have written := regions.writeRecord env call
  have rooted : (afterRecord env caps fresh [] call).mem.getOffset
      (afterRecord env caps fresh [] call).rootIdx = .ok 24 := by
    change fresh.mem.getOffset fresh.rootIdx = .ok 24
    rw [rootIdx]
    exact stage.offset 1 24 rfl
  have nodeKept : nodeLayout.load (afterRecord env caps fresh [] call).mem.mem 24
      = firstNode := by
    rw [← node]
    exact ordered.node outside (Or.inl rfl)
  have outcome : caps.index.addInode env call.inode call.dirtyBlocks call.blockMtime
      = .ok (withBytes (afterRecord env caps fresh [] call)
          (nodeLayout.store (afterRecord env caps fresh [] call).mem.mem 24
            (rootWith (placeAfter caps []).keyOf (placeAfter caps []).inodeOf))) := by
    have noRoot : caps.index.hasRoot = false := rfl
    simp only [BPLUSIndex.addInode, noRoot, Bool.not_false, if_true, allocated, bind,
      Except.bind, written, rooted]
    have loaded : (afterRecord env caps fresh [] call).mem.load nodeLayout 24 = firstNode :=
      nodeKept
    rw [loaded]
    rfl
  have memIs : (afterRecord env caps fresh [] call).mem.mem
      = recordBytes env fresh.mem.mem (placeAfter caps []) call := rfl
  have kept : ∀ address, 608 ≤ address ∨ address < 24
      → (nodeLayout.store (afterRecord env caps fresh [] call).mem.mem 24
          (rootWith (placeAfter caps []).keyOf (placeAfter caps []).inodeOf)).cell address
        = (recordBytes env fresh.mem.mem (placeAfter caps []) call).cell address := by
    intro address away
    rw [← memIs]
    apply Layout.store_outside
    simp only [nodeLayout_size]
    omega
  have rootLoad : nodeLayout.load (nodeLayout.store (afterRecord env caps fresh [] call).mem.mem
      24 (rootWith (placeAfter caps []).keyOf (placeAfter caps []).inodeOf)) 24
      = rootWith (placeAfter caps []).keyOf (placeAfter caps []).inodeOf :=
    Layout.load_store_same _ _ _ _
  refine ⟨fresh, _, outcome, regions, hasRoot, headerIdx, rootIdx, stage, rootLoad, ?_, ?_⟩
  · exact record.congr (fun address covers => kept address (Or.inl (ordered.covers covers).1))
  · rw [← stage.header, ← ordered.header outside]
    apply Layout.load_congr
    intro address _ high
    simp only [headerLayout_size] at high
    exact kept address (Or.inr (by omega))

/-- The first call builds a tree of one leaf. -/
theorem Built.first (env : Env) (fits : caps.Respected [call]) (valid : ValidIds [call])
    : ∃ new spans root top,
        caps.index.addInode env call.inode call.dirtyBlocks call.blockMtime = .ok new
        ∧ Built env caps new [call] spans root top := by
  obtain ⟨fresh, final, outcome, regions, hasRoot, headerIdx, rootIdx, stage, rootLoad, record,
    header⟩ := addInode_first env fits (le_of_lt (valid.short call (by simp)))
  have rooted : (afterRecord env caps fresh [] call).mem.getOffset
      (afterRecord env caps fresh [] call).rootIdx = .ok 24 := by
    change fresh.mem.getOffset fresh.rootIdx = .ok 24
    rw [rootIdx]
    exact stage.offset 1 24 rfl
  refine ⟨_, Function.update (fun _ => none) 24 (some ⟨0, ⊥, ⊤⟩), 24, 0, outcome, ?_⟩
  clear outcome
  have id := record.keyAt (valid.clean call (by simp))
  have shape : heapOf (keyAt final) final 24
      = ⟨none, .leaf [(call.inode.inodeId, ((placeAfter caps []).inodeOf : Int))]⟩ := by
    rw [heapOf, rootLoad, viewNode_rootWith, id]
  obtain ⟨tree, stored⟩ := singleLeaf shape
  have only : ∀ node span, Function.update (fun _ => none) 24
      (some (⟨0, ⊥, ⊤⟩ : Span Bytes)) node = some span → node = 24 := by
    intro node span live
    by_contra other
    rw [Function.update_of_ne other] at live
    simp at live
  have base : 608 ≤ caps.base := by
    simp only [Capacities.base, Capacities.pathArr, Capacities.hashArr, Capacities.bdArr,
      Capacities.blockArr]
    omega
  have count := fits.entries
  refine {
    ok := ?_
    tree := tree
    stored := ?_
    regions := ?_
    records := ?_
    header := header
  }
  · exact {
      room := base
      frontier := ⟨0, stage.size⟩
      live := by
        intro node span live
        obtain rfl := only node span live
        have size : fresh.mem.curSize = caps.base := stage.size
        refine ⟨Or.inl rfl, ?_⟩
        change 24 + 584 ≤ fresh.mem.curSize
        omega
      within := by
        rintro key ⟨number, inside, rfl⟩
        simp only [KeySlot, Capacities.base, Capacities.pathArr, Capacities.hashArr,
          Capacities.bdArr, Capacities.blockArr, HASH_SIZE, inodeLayout_size,
          List.length_singleton] at *
        omega
      known := fun _ _ => rfl
      slots := by
        intro node span live key member
        obtain rfl := only node span live
        rw [withBytes_mem, rootLoad, rootWith_liveKeys] at member
        obtain rfl := List.mem_singleton.mp member
        exact ⟨0, by simp, by simp [placeAfter]⟩
      full := by
        intro node span live
        obtain rfl := only node span live
        rw [withBytes_mem, rootLoad]
        change 1 ≤ ORDER - 1
        decide
      filled := by
        intro node span live notRoot
        exact absurd (only node span live) notRoot
      nonempty := by
        intro node span live
        obtain rfl := only node span live
        rw [withBytes_mem, rootLoad]
        exact Nat.one_pos
      hasRoot := hasRoot
      header := by
        change fresh.mem.getOffset fresh.headerIdx = .ok 0
        rw [headerIdx]
        exact stage.offset 0 0 rfl
      rooted := rooted
      headerOld := by
        change fresh.headerIdx < fresh.mem.latestIndex
        rw [headerIdx, stage.count]
        simp only [List.length_cons, List.length_nil]
        omega
      rootOld := by
        change fresh.rootIdx < fresh.mem.latestIndex
        rw [rootIdx, stage.count]
        simp only [List.length_cons, List.length_nil]
        omega
      pointer := by rw [withBytes_mem, header]
      tall := by
        change 0 + 7 ≤ fresh.mem.latestIndex
        rw [stage.count]
        exact le_refl _
      sized := by
        change fresh.mem.latestIndex ≤ fresh.mem.curSize
        rw [stage.count, stage.size]
        simp only [List.length_cons, List.length_nil]
        omega
    }
  · intro entry
    rw [withBytes_mem, stored entry]
    constructor
    · rintro rfl
      exact ⟨[], call, [], rfl, rfl⟩
    · rintro ⟨before, other, after, split, rfl⟩
      obtain ⟨rfl, rfl, rfl⟩ : before = [] ∧ other = call ∧ after = [] := by
        cases before with
        | nil => simpa [eq_comm] using split
        | cons head tail => simp at split
      rfl
  · obtain ⟨_, _, _, _, _, _, _, _, _, _, _⟩ := regions.recordWritten env call
    constructor <;> assumption
  · intro before other after split
    obtain ⟨rfl, rfl⟩ : before = [] ∧ other = call := by
      cases before with
      | nil =>
          have heads := List.cons.inj split
          exact ⟨rfl, heads.1.symm⟩
      | cons head tail => simp at split
    exact record

/-- Every later call keeps the invariant and adds its own entry. -/
theorem Built.next (built : Built env caps index done spans root top)
    (fits : caps.Respected (done ++ [call])) (valid : ValidIds (done ++ [call]))
    : ∃ new spans' root' top',
        index.addInode env call.inode call.dirtyBlocks call.blockMtime = .ok new
        ∧ Built env caps new (done ++ [call]) spans' root' top' := by
  obtain ⟨ok, same, records, header⟩ := built.recordWritten fits valid
  have tree := built.tree.congr same
  have stored := fun entry => (stored_of_same same entry).trans (built.stored entry)
  have ordered := placeAfter_ordered fits
  have written := built.regions.writeRecord env call
  have regions := built.regions.recordWritten env call
  have kept : (afterRecord env caps index done call).hasRoot = index.hasRoot := rfl
  generalize afterRecord env caps index done call = middle at *
  have id := (records done call [] rfl).keyAt (valid.clean call (by simp))
  have slot : WrittenSlot caps (done.length + 1) (placeAfter caps done).keyOf :=
    ⟨done.length, Nat.lt_succ_self _, rfl⟩
  have fresh : ∀ value, ¬ Stored (heapOf (keyAt middle.mem.mem) middle.mem.mem) spans
      (keyAt middle.mem.mem (placeAfter caps done).keyOf, value) := by
    intro value found
    rw [id] at found
    obtain ⟨before, other, after, split, same⟩ := (stored _).mp found
    have twice := valid.distinct
    have sameId : call.inode.inodeId = other.inode.inodeId := (Prod.mk.inj same).1
    rw [List.map_append, List.nodup_append, split] at twice
    exact twice.2.2 other.inode.inodeId (by simp) call.inode.inodeId (by simp) sameId.symm
  obtain ⟨new, outcome, finished⟩ :=
    ok.insertKey tree (placeAfter caps done).inodeOf slot fresh
  obtain ⟨spans', root', top', ok', tree', stored'⟩ := finished.tree
  obtain ⟨okNew, sameNew⟩ := ok'.restring
  have length : (done ++ [call]).length = done.length + 1 := by simp
  refine ⟨new, spans', root', top', ?_, ?_⟩
  · rw [id] at outcome
    simp only [BPLUSIndex.addInode, built.ok.hasRoot, Bool.not_true, Bool.false_eq_true, if_false,
      pure, Except.pure, bind, Except.bind, written, outcome]
  · refine {
      ok := by rw [length]; exact okNew
      tree := tree'.congr sameNew
      stored := ?_
      regions := regions.progress finished.progress
      records := ?_
      header := ?_
    }
    · intro entry
      rw [stored_of_same sameNew, stored', id, stored]
      constructor
      · rintro (rfl | ⟨before, other, after, rfl, rfl⟩)
        · exact ⟨done, call, [], rfl, rfl⟩
        · exact ⟨before, other, after ++ [call], by simp, rfl⟩
      · rintro ⟨before, other, after, split, rfl⟩
        rcases List.eq_nil_or_concat after with rfl | ⟨rest, last, rfl⟩
        · obtain ⟨rfl, same⟩ := List.append_inj' split rfl
          obtain rfl : call = other := by simpa using same
          exact Or.inl rfl
        · have whole : done ++ [call] = (before ++ other :: rest) ++ [last] := by
            rw [split]
            simp
          obtain ⟨rfl, _⟩ := List.append_inj' whole rfl
          exact Or.inr ⟨before, other, rest, rfl, rfl⟩
    · exact records_progress records fits finished.progress
    · rw [finished.progress.header, ok'.pointer, header, built.header]

/-- The last call comes after all others. -/
theorem addAll_append (env : Env) (caps : Capacities) (done : List AddCall) (call : AddCall)
    : addAll env caps (done ++ [call])
      = (addAll env caps done).bind (fun index =>
        index.addInode env call.inode call.dirtyBlocks call.blockMtime) := by
  unfold addAll
  rw [List.foldlM_append]
  apply bind_congr
  intro index
  simp only [List.foldlM_cons, List.foldlM_nil, bind_pure]

theorem addAll_concat {new : BPLUSIndex}
    : addAll env caps (done ++ [call]) = .ok new
      ↔ ∃ index, addAll env caps done = .ok index
        ∧ index.addInode env call.inode call.dirtyBlocks call.blockMtime = .ok new := by
  rw [addAll_append]
  exact bind_eq_ok

/-- Every sequence of calls within the limits is carried out, by induction on the calls. -/
theorem addAll_built (env : Env) {calls : List AddCall} (made : calls ≠ [])
    (fits : caps.Respected calls) (valid : ValidIds calls)
    : ∃ index spans root top,
        addAll env caps calls = .ok index ∧ Built env caps index calls spans root top := by
  induction calls using List.reverseRecOn with
  | nil => exact absurd rfl made
  | append_singleton done call ih =>
      rw [addAll_append]
      rcases eq_or_ne done [] with rfl | earlier
      · have none : addAll env caps [] = .ok caps.index := rfl
        rw [List.nil_append] at fits valid ⊢
        obtain ⟨new, spans, root, top, outcome, built⟩ :=
          Built.first env fits valid
        refine ⟨new, spans, root, top, ?_, built⟩
        simp only [none, Except.bind, outcome]
      · obtain ⟨index, spans, root, top, outcome, built⟩ :=
          ih earlier fits.left valid.left
        obtain ⟨new, spans', root', top', next, built'⟩ := built.next fits valid
        refine ⟨new, spans', root', top', ?_, built'⟩
        simp only [outcome, Except.bind, next]

end Calls

end ZippyFS
