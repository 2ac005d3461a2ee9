import ZippyFS.Index.LatestInode
import ZippyFS.Lib.TreeSize

/-! What a search in written files costs, and what it does not depend on. A descent reads one
node on each level of the tree, and there are logarithmically many levels. The order in which
the inodes were added and the room reserved for them are forgotten.
-/

namespace ZippyFS

open CellMemory StructLayout ByteOrder SearchTree

-----------------------------------------------------------------------------------------
-- The length of a descent
-----------------------------------------------------------------------------------------

namespace BPLUSIndexLoader

variable {base root top : Nat} {AtSlot : Int → Prop} {strings : Int → Bytes}
  {spans : Nat → Option (Span Bytes)} {index : BPLUSIndex}

/-- A descent is over when it reads its first leaf. -/
theorem descend_leaf {fuel node : Nat} {mem : Mem} {key : Bytes}
    (leaf : (nodeLayout.load mem node).isLeaf = true)
    : descend mem key (fuel + 1) node = .ok node := by
  rw [descend]
  simp only [leaf, if_true]

/-- At an inner node a descent goes on with the child on the route of its key. -/
theorem descend_inner (ok : IndexOk base AtSlot strings index spans root top)
    (tree : Tree (heapOf strings index.mem.mem) spans root top) {fuel node : Nat}
    {key : Bytes} {span : Span Bytes} {keys : List Bytes} {children : List Nat} {child : Nat}
    (live : spans node = some span)
    (body : (heapOf strings index.mem.mem node).body = .inner keys children)
    (found : children[route keys key]? = some child)
    : descend index.mem.mem key (fuel + 1) node = descend index.mem.mem key fuel child := by
  obtain ⟨sorted, _⟩ := inner_keys tree live body
  obtain ⟨inner, seen, taken⟩ := ok.inner_node live body
  rw [descend]
  simp only [inner, Bool.false_eq_true, if_false,
    nextChild_route seen sorted (ok.nonempty node _ live), taken found]

/-- A descent reads one node more than the tree has links from the root to a leaf. -/
theorem descend_eq (ok : IndexOk base AtSlot strings index spans root top)
    (tree : Tree (heapOf strings index.mem.mem) spans root top) (key : Bytes)
    : ∃ leaf, ∀ fuel, descend index.mem.mem key fuel root
        = if top < fuel then .ok leaf else .error .diverges := by
  have atLeaf : ∀ fuel node span, spans node = some span → span.height = 0
      → descend index.mem.mem key (fuel + 1) node = .ok node := by
    rintro fuel node ⟨height, low, high⟩ live rfl
    obtain ⟨entries, body, _⟩ := (tree.nodes node _ live).leaf_body
    exact descend_leaf (viewNode_leaf strings body).1
  exact tree.follow_exact (fun _ => rfl) atLeaf
    (fun _ _ _ _ _ _ live body found => descend_inner ok tree live body found)
    tree.rootSpan bot_le (WithTop.coe_lt_top key)

end BPLUSIndexLoader

variable {env : Env} {caps caps' : Capacities} {calls calls' : List AddCall}

/-- What the calls built is a B+Tree of order 24. -/
theorem Built.isBPlusTree {index : BPLUSIndex} {spans : Nat → Option (Span Bytes)}
    {root top : Nat} (built : Built env caps index calls spans root top)
    : IsBPlusTree (heapOf (keyAt index.mem.mem) index.mem.mem) root top 11 23 := by
  refine built.tree.isBPlusTree ?_ ?_
  · intro node span live notRoot
    rw [heapOf, viewNode_keys_length]
    exact built.ok.filled node span live notRoot
  · intro node span live
    rw [heapOf, viewNode_keys_length]
    exact built.ok.full node span live

/-- The search for any key in a written file reads exactly one node on each level of the tree,
and the levels are logarithmic in the number of calls.
-/
theorem findInTree_reads (made : calls ≠ []) (fits : caps.Respected calls)
    (valid : ValidIds calls)
    : ∃ index depth,
        addAll env caps calls = .ok index
        ∧ depth ≤ Nat.log 12 (calls.length / 22) + 1
        ∧ ∀ key, ∃ leaf,
          BPLUSIndexLoader.findInTree index.image key
            = .ok (BPLUSIndexLoader.findInLeaf index.image.mem key leaf)
          ∧ ∀ fuel, BPLUSIndexLoader.descend index.image.mem key fuel index.image.header.root
            = if depth < fuel then .ok leaf else .error .diverges := by
  obtain ⟨index, spans, root, top, outcome, built⟩ := addAll_built env made fits valid
  have start : index.image.header.root = root := built.ok.pointer
  have rootKeys : 0 < (heapOf (keyAt index.mem.mem) index.mem.mem root).body.keys.length := by
    rw [heapOf, viewNode_keys_length]
    exact built.ok.nonempty root _ built.tree.rootSpan
  have listed := (built.keysBelow_perm valid.distinct).length_eq
  have shallow := built.isBPlusTree.depth_le_log rootKeys (by decide)
  rw [listed, List.length_map] at shallow
  refine ⟨index, top, outcome, shallow, fun key => ?_⟩
  obtain ⟨leaf, reads⟩ := BPLUSIndexLoader.descend_eq built.ok built.tree key
  have tall := built.ok.tall
  have sized := built.ok.sized
  have enough : top < index.image.size := by
    have size : index.image.size = index.mem.curSize := rfl
    omega
  refine ⟨leaf, ?_, ?_⟩
  · have ended : BPLUSIndexLoader.descend index.image.mem key index.image.size
        index.image.header.root = .ok leaf := by
      rw [start]
      exact (reads _).trans (if_pos enough)
    simp only [BPLUSIndexLoader.findInTree, ended, bind, Except.bind]
  · rw [start]
    exact reads

/-- Two files, and every key. -/
theorem findInTree_reads_two
    : ∃ index depth,
        addAll ⟨fun _ => Vector.replicate 32 0, fun _ => 0⟩ ⟨2, 4, 2, 4⟩
            [oneBlockCall [66] [47, 98] [1, 2] 7, oneBlockCall [65] [47, 97] [3, 4] 7]
          = .ok index
        ∧ depth ≤ Nat.log 12 (2 / 22) + 1
        ∧ ∀ key, ∃ leaf,
          BPLUSIndexLoader.findInTree index.image key
            = .ok (BPLUSIndexLoader.findInLeaf index.image.mem key leaf)
          ∧ ∀ fuel, BPLUSIndexLoader.descend index.image.mem key fuel index.image.header.root
            = if depth < fuel then .ok leaf else .error .diverges :=
  findInTree_reads (by decide) ⟨by decide, by decide, by decide, by decide⟩
    ⟨by decide, by decide, by decide⟩

-----------------------------------------------------------------------------------------
-- The order of the calls
-----------------------------------------------------------------------------------------

/-- Files of the same calls have the same call under an id. -/
theorem TreeFile.find_congr {file other : TreeFile env} (same : file.calls.Perm other.calls)
    (phash : Bytes)
    : file.find phash = other.find phash := by
  refine Option.ext fun call => ?_
  rw [file.find_eq_some_iff, other.find_eq_some_iff, same.mem_iff]

/-- What is found depends only on the calls that the files hold. -/
theorem findLatestInode_congr {files others : List (TreeFile env)}
    (same : files.map (fun file phash => file.find phash)
      = others.map (fun file phash => file.find phash))
    (path : Bytes) (getData : Bool)
    : BPLUSIndexLoader.findLatestInode env (files.map (·.image)) path getData
      = BPLUSIndexLoader.findLatestInode env (others.map (·.image)) path getData := by
  rcases eq_or_ne path [] with rfl | named
  · simp only [BPLUSIndexLoader.findLatestInode, if_true]
  · have visits := congrArg
      (fun finds => finds.map (fun find => find (Util.cryptoHash env path))) same
    simp only [List.map_map, Function.comp_def] at visits
    rw [findLatestInode_eq named, findLatestInode_eq named, visitedBy, visitedBy, visits]

/-- Neither the order in which the inodes are added nor the room that is reserved for them shows:
in a directory with either file, every search for a path comes out the same.
-/
theorem findLatestInode_perm (made : calls ≠ []) (valid : ValidIds calls)
    (same : calls.Perm calls') (fits : caps.Respected calls) (fits' : caps'.Respected calls')
    : ∃ index index',
        addAll env caps calls = .ok index
        ∧ addAll env caps' calls' = .ok index'
        ∧ ∀ (before after : List (TreeFile env)) path getData,
          BPLUSIndexLoader.findLatestInode env
              (before.map (·.image) ++ index.image :: after.map (·.image)) path getData
            = BPLUSIndexLoader.findLatestInode env
              (before.map (·.image) ++ index'.image :: after.map (·.image)) path getData := by
  have valid' : ValidIds calls' := {
    short := fun call member => valid.short call (same.mem_iff.mpr member)
    clean := fun call member => valid.clean call (same.mem_iff.mpr member)
    distinct := (same.map _).nodup_iff.mp valid.distinct
  }
  have made' : calls' ≠ [] := fun none => made (List.perm_nil.mp (none ▸ same))
  obtain ⟨index, -, -, -, outcome, -⟩ := addAll_built env made fits valid
  obtain ⟨index', -, -, -, outcome', -⟩ := addAll_built env made' fits' valid'
  refine ⟨index, index', outcome, outcome', fun before after path getData => ?_⟩
  have image : (⟨caps, calls, made, fits, valid⟩ : TreeFile env).image = index.image := by
    simp only [TreeFile.image, outcome]
  have image' : (⟨caps', calls', made', fits', valid'⟩ : TreeFile env).image = index'.image := by
    simp only [TreeFile.image, outcome']
  have held : (before ++ (⟨caps, calls, made, fits, valid⟩ : TreeFile env) :: after).map
        (fun file phash => file.find phash)
      = (before ++ (⟨caps', calls', made', fits', valid'⟩ : TreeFile env) :: after).map
        (fun file phash => file.find phash) := by
    rw [List.map_append, List.map_append, List.map_cons, List.map_cons]
    congr 2
    exact funext (TreeFile.find_congr same)
  have found := findLatestInode_congr held path getData
  rw [List.map_append, List.map_append, List.map_cons, List.map_cons, image, image'] at found
  exact found

/-- Two files in both orders, with more room the second time. -/
theorem findLatestInode_perm_two
    : ∃ index index',
        addAll Util.twoDigests ⟨2, 4, 2, 4⟩
            [oneBlockCall [66] [47, 98] [1, 2] 7, oneBlockCall [65] [47, 97] [3, 4] 7]
          = .ok index
        ∧ addAll Util.twoDigests ⟨3, 6, 3, 6⟩
            [oneBlockCall [65] [47, 97] [3, 4] 7, oneBlockCall [66] [47, 98] [1, 2] 7]
          = .ok index'
        ∧ ∀ (before after : List (TreeFile Util.twoDigests)) path getData,
          BPLUSIndexLoader.findLatestInode Util.twoDigests
              (before.map (·.image) ++ index.image :: after.map (·.image)) path getData
            = BPLUSIndexLoader.findLatestInode Util.twoDigests
              (before.map (·.image) ++ index'.image :: after.map (·.image)) path getData :=
  findLatestInode_perm (by decide) ⟨by decide, by decide, by decide⟩ (.swap _ _ [])
    ⟨by decide, by decide, by decide, by decide⟩ ⟨by decide, by decide, by decide, by decide⟩

end ZippyFS
