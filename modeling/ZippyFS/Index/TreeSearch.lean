import ZippyFS.Index.AddInode

/-! The tree that a sequence of calls leaves behind, and the loader's search in it. The
loader compares differently from the writer, but takes the same routes.
-/

namespace ZippyFS

open CellMemory StructLayout ByteOrder SearchTree

namespace BPLUSIndexLoader

-----------------------------------------------------------------------------------------
-- The descent
-----------------------------------------------------------------------------------------

/-- The loader goes on with the child on the key's route, also for a key of the node. -/
theorem nextChild_route {mem : Mem} {key : Bytes} {cur : IndexNode} {keys : List Bytes}
    (shown : cur.liveKeys.map (fun key => keyAt mem key) = keys)
    (sorted : keys.Pairwise (· < ·)) (nonempty : 0 < cur.numKeys)
    : nextChild mem key cur = some (cur.child (route keys key)) := by
  subst shown
  have count : (cur.liveKeys.map (fun key => keyAt mem key)).length = cur.numKeys := by simp
  have reached : ∀ index, index < cur.numKeys →
      (keyAt mem (cur.key index) ≤ key
        ↔ index < route (cur.liveKeys.map (fun key => keyAt mem key)) key) := by
    intro index inside
    have live : index < (cur.liveKeys.map (fun key => keyAt mem key)).length := by omega
    have bounds : _ ≤ key ↔ _ := route_le_iff sorted live
    simpa [IndexNode.liveKeys] using bounds
  have passed : ∀ index, index < cur.numKeys →
      (key < keyAt mem (cur.key index)
        ↔ ¬ index < route (cur.liveKeys.map (fun key => keyAt mem key)) key) := by
    intro index inside
    rw [← reached index inside, not_le]
  have routeLe : route (cur.liveKeys.map (fun key => keyAt mem key)) key ≤ cur.numKeys := by
    rw [← count]
    exact List.takeWhile_sublist _ |>.length_le
  generalize route (cur.liveKeys.map (fun key => keyAt mem key)) key = target at *
  simp only [nextChild, strcmp_lt_iff, ne_eq, strcmp_gt_iff, not_lt]
  by_cases before : key < keyAt mem (cur.key 0)
  · have zero := (passed 0 nonempty).mp before
    rw [if_pos before, show target = 0 by omega]
  · have later := mt (passed 0 nonempty).mpr before
    rw [if_neg before]
    by_cases behind : keyAt mem (cur.key (cur.numKeys - 1)) ≤ key
    · have last := (reached (cur.numKeys - 1) (by omega)).mp behind
      rw [if_pos behind, show cur.numKeys = target by omega]
    · have notLast := mt (reached (cur.numKeys - 1) (by omega)).mpr behind
      have within : target - 1 ∈ List.range (cur.numKeys - 1) := List.mem_range.mpr (by omega)
      rw [if_neg behind, foldl_last_unique _ none (fun ii => some (cur.child (ii + 1)))
        (target - 1), if_pos within, show target - 1 + 1 = target by omega]
      intro place member
      rw [List.mem_range] at member
      rw [reached place (by omega), passed (place + 1) (by omega)]
      omega

section Search

variable {base size root top : Nat} {AtSlot : Int → Prop} {strings : Int → Bytes} {mem : Mem}
  {spans : Nat → Option (Span Bytes)}

/-- What the scan of a leaf finds is what the leaf holds. -/
theorem findInLeaf_iff (ok : NodesOk base AtSlot strings mem size spans root) {leaf : Nat}
    {span : Span Bytes} (live : spans leaf = some span) {entries : List (Bytes × Int)}
    (body : (heapOf strings mem leaf).body = .leaf entries)
    (sorted : (entries.map Prod.fst).Pairwise (· < ·)) (key : Bytes) (value : Int)
    : findInLeaf mem key leaf = some value ↔ (key, value) ∈ entries := by
  obtain ⟨_, shape⟩ := viewNode_leaf strings body
  clear body
  have seen : ∀ ii < (nodeLayout.load mem leaf).numKeys,
      keyAt mem ((nodeLayout.load mem leaf).key ii)
        = strings ((nodeLayout.load mem leaf).key ii) := by
    intro ii inside
    exact ok.known _ (ok.slots leaf span live _ (IndexNode.key_mem_liveKeys inside))
  unfold findInLeaf
  generalize nodeLayout.load mem leaf = cur at *
  have pairs : (cur.liveKeys.map strings).zip cur.liveValues
      = (List.range cur.numKeys).map (fun ii => (strings (cur.key ii), cur.value ii)) := by
    simp only [IndexNode.liveKeys, IndexNode.liveValues, List.map_map, List.zip_map']
    rfl
  rw [shape, pairs] at sorted ⊢
  rw [List.map_map, List.pairwise_map] at sorted
  have once : ∀ ii < cur.numKeys, ∀ jj < cur.numKeys,
      strings (cur.key ii) = strings (cur.key jj) → ii = jj := by
    intro ii left jj right same
    rcases Nat.lt_trichotomy ii jj with before | here | behind
    · have less := List.pairwise_iff_getElem.mp sorted ii jj (by simpa using left)
        (by simpa using right) before
      simp [same] at less
    · exact here
    · have less := List.pairwise_iff_getElem.mp sorted jj ii (by simpa using right)
        (by simpa using left) behind
      simp [same] at less
  simp only [strcmp_eq_iff, Option.map_eq_some_iff, List.mem_map, List.mem_range, Prod.mk.injEq]
  constructor
  · rintro ⟨ii, found, rfl⟩
    have inside := List.mem_range.mp (List.mem_of_find?_eq_some found)
    have same := List.find?_some found
    rw [decide_eq_true_eq, seen ii inside] at same
    exact ⟨ii, inside, same, rfl⟩
  · rintro ⟨ii, inside, same, rfl⟩
    have exists_ : ((List.range cur.numKeys).find?
        (fun ii => decide (keyAt mem (cur.key ii) = key))).isSome := by
      rw [List.find?_isSome]
      exact ⟨ii, List.mem_range.mpr inside, by rw [seen ii inside, same, decide_eq_true rfl]⟩
    obtain ⟨jj, found⟩ := Option.isSome_iff_exists.mp exists_
    have within := List.mem_range.mp (List.mem_of_find?_eq_some found)
    have also := List.find?_some found
    rw [decide_eq_true_eq, seen jj within] at also
    obtain rfl := once jj within ii inside (also.trans same.symm)
    exact ⟨jj, found, rfl⟩

/-- The search ends, and what it finds is what the tree stores. -/
theorem findInTree_iff {index : BPLUSIndex}
    (ok : IndexOk base AtSlot strings index spans root top)
    (tree : Tree (heapOf strings index.mem.mem) spans root top) (key : Bytes)
    : ∃ result, findInTree index.image key = .ok result
        ∧ ∀ value, result = some value
          ↔ Stored (heapOf strings index.mem.mem) spans (key, value) := by
  have tall := ok.tall
  have sized := ok.sized
  have enough : top < index.mem.curSize := by omega
  have atLeaf : ∀ fuel node span, spans node = some span → span.height = 0
      → descend index.mem.mem key (fuel + 1) node = .ok node := by
    rintro fuel node ⟨height, low, high⟩ live rfl
    obtain ⟨entries, body, _⟩ := (tree.nodes node _ live).leaf_body
    obtain ⟨leaf, _⟩ := viewNode_leaf strings body
    rw [descend]
    simp only [leaf, if_true]
  have atInner : ∀ fuel node span keys children child, spans node = some span
      → (heapOf strings index.mem.mem node).body = .inner keys children
      → children[route keys key]? = some child
      → descend index.mem.mem key (fuel + 1) node = descend index.mem.mem key fuel child := by
    rintro fuel node span keys children child live body found
    obtain ⟨sorted, _⟩ := inner_keys tree live body
    obtain ⟨inner, seen, taken⟩ := ok.inner_node live body
    rw [descend]
    simp only [inner, Bool.false_eq_true, if_false,
      nextChild_route seen sorted (ok.nonempty node _ live), taken found]
  obtain ⟨leaf, low, high, arrived, live, _, _, same⟩ :=
    tree.follow_routes atLeaf atInner tree.rootSpan bot_le (WithTop.coe_lt_top key) enough
  obtain ⟨entries, body, fits⟩ := (tree.nodes leaf _ live).leaf_body
  refine ⟨findInLeaf index.mem.mem key leaf, ?_, ?_⟩
  · have start : index.image.header.root = root := ok.pointer
    have ended : descend index.image.mem key index.image.size index.image.header.root
        = .ok leaf := by
      rw [start]
      exact arrived
    simp only [findInTree, ended, bind, Except.bind]
    rfl
  · intro value
    rw [findInLeaf_iff ok.toNodesOk live body fits.sorted, ← tree.mem_traverse_iff, same,
      traverse_leaf body]

end Search

end BPLUSIndexLoader

-----------------------------------------------------------------------------------------
-- Whole sequences of calls
-----------------------------------------------------------------------------------------

/-- The offset of the inode record that a call of `add_inode` writes. -/
def recordOffset (env : Env) (index : BPLUSIndex) (call : AddCall) : Except Fault Int := do
  let index ← if index.hasRoot then pure index else index.allocateRegions
  let (_, inodeOf, _) ← index.writeRecord env call.inode call.dirtyBlocks call.blockMtime
  .ok inodeOf

section Calls

variable {env : Env} {caps : Capacities}

/-- The record of a call goes to the place behind the calls before it. -/
theorem recordOffset_eq (env : Env) {before : List AddCall} {call : AddCall}
    (fits : caps.Respected (before ++ [call])) (valid : ValidIds (before ++ [call]))
    : ∃ older, addAll env caps before = .ok older
        ∧ recordOffset env older call = .ok ((placeAfter caps before).inodeOf : Int) := by
  rcases eq_or_ne before [] with rfl | earlier
  · obtain ⟨fresh, allocated, regions, _⟩ := allocateRegions_spec caps
    have written := regions.writeRecord env call
    have noRoot : caps.index.hasRoot = false := rfl
    refine ⟨caps.index, rfl, ?_⟩
    simp only [recordOffset, noRoot, Bool.false_eq_true, if_false, allocated, bind, Except.bind,
      written]
  · obtain ⟨index, spans, root, top, outcome, built⟩ :=
      addAll_built env earlier fits.left valid.left
    have written := built.regions.writeRecord env call
    refine ⟨index, outcome, ?_⟩
    simp only [recordOffset, built.ok.hasRoot, if_true, pure, Except.pure, bind, Except.bind,
      written]

/-- A call for a regular file whose data is one block. -/
def oneBlockCall (id path data : Bytes) (mtime : Nat) : AddCall where
  inode := {
    path := path
    mode := 0o100644
    nlink := 1
    ulMtime := mtime
    ulCtime := mtime
    tsMtime := Util.getTimeTs mtime
    tsCtime := Util.getTimeTs mtime
    tsAtime := Util.getTimeTs mtime
    size := data.length
    deleted := false
    dirty := false
    inodeId := id
    links := {path}
    blocks := ∅
  }
  dirtyBlocks := (∅ : Std.ExtTreeMap Nat Block).insert 0 (Block.new data data.length)
  blockMtime := (∅ : Std.ExtTreeMap Nat Nat).insert 0 mtime

/-- The tree of a sequence of calls stores the inserted ids. -/
theorem Built.stored_iff {index : BPLUSIndex} {calls : List AddCall}
    {spans : Nat → Option (Span Bytes)} {root top : Nat}
    (built : Built env caps index calls spans root top) (key : Bytes)
    : (∃ value, Stored (heapOf (keyAt index.mem.mem) index.mem.mem) spans (key, value))
      ↔ ∃ call ∈ calls, call.inode.inodeId = key := by
  constructor
  · rintro ⟨value, there⟩
    obtain ⟨before, call, after, rfl, same⟩ := (built.stored _).mp there
    exact ⟨call, by simp, (Prod.mk.inj same).1.symm⟩
  · rintro ⟨call, member, rfl⟩
    obtain ⟨before, after, split⟩ := List.append_of_mem member
    exact ⟨_, (built.stored _).mpr ⟨before, call, after, split, rfl⟩⟩

/-- Its traversal lists the inserted ids, each once. -/
theorem Built.keysBelow_perm {index : BPLUSIndex} {calls : List AddCall}
    {spans : Nat → Option (Span Bytes)} {root top : Nat}
    (built : Built env caps index calls spans root top)
    (distinct : (calls.map (·.inode.inodeId)).Nodup)
    : (keysBelow (heapOf (keyAt index.mem.mem) index.mem.mem) top root).Perm
        (calls.map (·.inode.inodeId)) := by
  have fits := built.tree.fits_traverse built.tree.rootSpan
  rw [List.perm_ext_iff_of_nodup (fits.sorted.imp ne_of_lt) distinct]
  intro key
  rw [keysBelow, List.mem_map, List.mem_map, ← built.stored_iff]
  constructor
  · rintro ⟨⟨_, value⟩, member, rfl⟩
    exact ⟨value, (built.tree.mem_traverse_iff _).mp member⟩
  · rintro ⟨value, there⟩
    exact ⟨_, (built.tree.mem_traverse_iff _).mpr there, rfl⟩

/-- After every call the image is a B+Tree of order 24 over the ids inserted so far. -/
theorem addAll_isBPlusTree {done rest : List AddCall} (made : done ≠ [])
    (fits : caps.Respected (done ++ rest)) (valid : ValidIds (done ++ rest))
    : ∃ index depth,
        addAll env caps done = .ok index
        ∧ IsBPlusTree (heapOf (keyAt index.mem.mem) index.mem.mem) index.image.header.root depth
            11 23
        ∧ (keysBelow (heapOf (keyAt index.mem.mem) index.mem.mem) depth
            index.image.header.root).Perm (done.map (·.inode.inodeId)) := by
  obtain ⟨index, spans, root, top, outcome, built⟩ :=
    addAll_built env made fits.left valid.left
  have start : index.image.header.root = root := built.ok.pointer
  refine ⟨index, top, outcome, ?_⟩
  rw [start]
  refine ⟨built.tree.isBPlusTree ?_ ?_, ?_⟩
  · intro node span live notRoot
    rw [heapOf, viewNode_keys_length]
    exact built.ok.filled node span live notRoot
  · intro node span live
    rw [heapOf, viewNode_keys_length]
    exact built.ok.full node span live
  · exact built.keysBelow_perm valid.left.distinct

/-- Two files, after the second call of three. -/
theorem addAll_isBPlusTree_two
    : ∃ index depth,
        addAll ⟨fun _ => Vector.replicate 32 0, fun _ => 0⟩ ⟨3, 6, 3, 6⟩
            [oneBlockCall [66] [47, 98] [1, 2] 7, oneBlockCall [65] [47, 97] [3, 4] 7]
          = .ok index
        ∧ IsBPlusTree (heapOf (keyAt index.mem.mem) index.mem.mem) index.image.header.root depth
            11 23
        ∧ (keysBelow (heapOf (keyAt index.mem.mem) index.mem.mem) depth
            index.image.header.root).Perm [[66], [65]] :=
  addAll_isBPlusTree (by decide)
    (show Capacities.Respected _ (_ ++ [oneBlockCall [67] [47, 99] [5] 7]) from
      ⟨by decide, by decide, by decide, by decide⟩)
    ⟨by decide, by decide, by decide⟩

/-- The loader's search in a written file ends for every key. It finds exactly the inserted
ids, each with the offset of the record that its own call wrote.
-/
theorem findInTree_addAll {calls : List AddCall} (made : calls ≠ []) (fits : caps.Respected calls)
    (valid : ValidIds calls)
    : ∃ index, addAll env caps calls = .ok index
        ∧ ∀ key, ∃ result,
          BPLUSIndexLoader.findInTree index.image key = .ok result
          ∧ (result.isSome ↔ ∃ call ∈ calls, call.inode.inodeId = key)
          ∧ ∀ before call after, calls = before ++ call :: after
            → call.inode.inodeId = key
            → ∃ older offset,
                addAll env caps before = .ok older
                ∧ recordOffset env older call = .ok offset
                ∧ result = some offset := by
  obtain ⟨index, spans, root, top, outcome, built⟩ :=
    addAll_built env made fits valid
  refine ⟨index, outcome, ?_⟩
  intro key
  obtain ⟨result, ended, found⟩ :=
    BPLUSIndexLoader.findInTree_iff built.ok built.tree key
  have holds : ∀ value, result = some value ↔ ∃ before call after,
      calls = before ++ call :: after ∧ call.inode.inodeId = key
        ∧ value = ((placeAfter caps before).inodeOf : Int) := by
    intro value
    rw [found, built.stored]
    simp only [Prod.mk.injEq, eq_comm (a := key)]
  refine ⟨result, ended, ?_, ?_⟩
  · rw [Option.isSome_iff_exists]
    constructor
    · rintro ⟨value, there⟩
      obtain ⟨before, call, after, rfl, same, _⟩ := (holds value).mp there
      exact ⟨call, by simp, same⟩
    · rintro ⟨call, member, same⟩
      obtain ⟨before, after, split⟩ := List.append_of_mem member
      exact ⟨_, (holds _).mpr ⟨before, call, after, split, same, rfl⟩⟩
  · intro before call after split same
    have whole : calls = (before ++ [call]) ++ after := by simp [split]
    obtain ⟨older, earlier, offset⟩ := recordOffset_eq env
      (whole ▸ fits).left (whole ▸ valid).left
    exact ⟨older, _, earlier, offset, (holds _).mpr ⟨before, call, after, split, same, rfl⟩⟩

/-- Two files, and every key. -/
theorem findInTree_addAll_two
    : ∃ index,
        addAll ⟨fun _ => Vector.replicate 32 0, fun _ => 0⟩ ⟨2, 4, 2, 4⟩
            [oneBlockCall [66] [47, 98] [1, 2] 7, oneBlockCall [65] [47, 97] [3, 4] 7]
          = .ok index
        ∧ ∀ key, ∃ result,
          BPLUSIndexLoader.findInTree index.image key = .ok result
          ∧ (result.isSome ↔ ∃ call ∈ [oneBlockCall [66] [47, 98] [1, 2] 7,
              oneBlockCall [65] [47, 97] [3, 4] 7], call.inode.inodeId = key)
          ∧ ∀ before call after, [oneBlockCall [66] [47, 98] [1, 2] 7,
              oneBlockCall [65] [47, 97] [3, 4] 7] = before ++ call :: after
            → call.inode.inodeId = key
            → ∃ older offset,
                addAll ⟨fun _ => Vector.replicate 32 0, fun _ => 0⟩ ⟨2, 4, 2, 4⟩ before
                  = .ok older
                ∧ recordOffset ⟨fun _ => Vector.replicate 32 0, fun _ => 0⟩ older call
                  = .ok offset
                ∧ result = some offset :=
  findInTree_addAll (by decide) ⟨by decide, by decide, by decide, by decide⟩
    ⟨by decide, by decide, by decide⟩

end Calls

end ZippyFS
