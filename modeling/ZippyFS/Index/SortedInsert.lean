import ZippyFS.Index.NodeTable

/-! Insertion into one node as insertion into sorted lists: the three parallel arrays stay
aligned at every position and every fill level.
-/

namespace ZippyFS

open CellMemory StructLayout ByteOrder

namespace IndexNode

/-- The live pairs of a leaf, in order. -/
def livePairs (node : IndexNode) : List (Int × Int) := node.liveKeys.zip node.liveValues

end IndexNode

/-- Keys in the order in which `strcmp` sorts their strings. -/
def SortedKeys (mem : Mem) (keys : List Int) : Prop :=
  keys.Pairwise (fun left right => strcmp (keyAt mem left) (keyAt mem right) = .lt)

instance (mem : Mem) (keys : List Int) : Decidable (SortedKeys mem keys) :=
  inferInstanceAs (Decidable (keys.Pairwise _))

/-- `after` is `node` with a new key at a position behind exactly the smaller keys, with its
value beside it in a leaf and its child right behind it in an inner node.
-/
structure InsertedAt (mem : Mem) (node after : IndexNode) (k v child : Int) (isleft : Bool)
    (position : Nat)
    : Prop where
  inside : position ≤ node.numKeys
  smaller : ∀ key ∈ node.liveKeys.take position, strcmp (keyAt mem key) (keyAt mem k) = .lt
  larger : ∀ key ∈ node.liveKeys.drop position, strcmp (keyAt mem k) (keyAt mem key) = .lt
  numKeys : after.numKeys = node.numKeys + 1
  keys : after.liveKeys = node.liveKeys.take position ++ k :: node.liveKeys.drop position
  pairs
    : node.isLeaf = true
      → after.livePairs
        = node.livePairs.take position ++ (k, v) :: node.livePairs.drop position
  children
    : node.isLeaf = false → isleft = false
      → ∀ offset : Nat, child = offset
        → after.liveChildren
          = node.liveChildren.take (position + 1)
            ++ offset :: node.liveChildren.drop (position + 1)
  isLeaf : after.isLeaf = node.isLeaf
  parent : after.parent = node.parent

/-- Insertion at the right position keeps the keys sorted. -/
theorem InsertedAt.sorted {mem : Mem} {node after : IndexNode} {k v child : Int}
    {isleft : Bool} {position : Nat}
    (inserted : InsertedAt mem node after k v child isleft position)
    (sorted : SortedKeys mem node.liveKeys)
    : SortedKeys mem after.liveKeys := by
  unfold SortedKeys at sorted ⊢
  rw [← List.take_append_drop position node.liveKeys, List.pairwise_append] at sorted
  obtain ⟨low, high, across⟩ := sorted
  rw [inserted.keys, List.pairwise_append, List.pairwise_cons]
  refine ⟨low, ⟨inserted.larger, high⟩, ?_⟩
  intro left early right late
  rcases List.mem_cons.mp late with rfl | later
  · exact inserted.smaller left early
  · exact across left early right later

/-- A new key goes behind exactly the smaller keys, in the words of `strcmp`. -/
theorem positionOf_between {mem : Mem} {node : IndexNode} {k : Int}
    (sorted : SortedKeys mem node.liveKeys)
    (fresh : ∀ key ∈ node.liveKeys, strcmp (keyAt mem k) (keyAt mem key) ≠ .eq)
    : (∀ key ∈ node.liveKeys.take (IndexNode.positionOf mem node k),
        strcmp (keyAt mem key) (keyAt mem k) = .lt)
      ∧ ∀ key ∈ node.liveKeys.drop (IndexNode.positionOf mem node k),
        strcmp (keyAt mem k) (keyAt mem key) = .lt := by
  have ordered : (node.liveKeys.map (keyAt mem)).Pairwise (· < ·) := by
    rw [List.pairwise_map]
    exact sorted.imp fun less => (strcmp_lt_iff _ _).mp less
  have absent : keyAt mem k ∉ node.liveKeys.map (keyAt mem) := by
    intro member
    obtain ⟨key, live, same⟩ := List.mem_map.mp member
    exact fresh key live ((strcmp_eq_iff _ _).mpr same.symm)
  obtain ⟨under, above⟩ := positionOf_splits (fun _ _ => rfl) rfl ordered absent
  constructor
  · intro key member
    refine (strcmp_lt_iff _ _).mpr (under _ ?_)
    rw [← List.map_take]
    exact List.mem_map_of_mem member
  · intro key member
    refine (strcmp_lt_iff _ _).mpr (above _ ?_)
    rw [← List.map_drop]
    exact List.mem_map_of_mem member

/-- `insert_into_node` on a sorted node with room, even an empty one, is a sorted insertion. -/
theorem insertIntoNode_sorted {mem : Mem} {nodeoffset : Nat} {k : Int} (v child : Int)
    (isleft : Bool)
    (room : (nodeLayout.load mem nodeoffset).numKeys < ORDER - 1)
    (sorted : SortedKeys mem (nodeLayout.load mem nodeoffset).liveKeys)
    (fresh
      : ∀ key ∈ (nodeLayout.load mem nodeoffset).liveKeys,
          strcmp (keyAt mem k) (keyAt mem key) ≠ .eq)
    : let after := nodeLayout.load (insertIntoNode mem nodeoffset k v isleft child).2 nodeoffset
      SortedKeys mem after.liveKeys
        ∧ ∃ position,
            InsertedAt mem (nodeLayout.load mem nodeoffset) after k v child isleft position := by
  intro after
  generalize shown : nodeLayout.load mem nodeoffset = node at room sorted fresh ⊢
  have stored : after = (insertIntoCopy mem node k v isleft child).2 := by
    simp only [after]
    rw [insertIntoNode, shown, Layout.load_store_same]
  suffices inserted : InsertedAt mem node after k v child isleft (IndexNode.positionOf mem node k)
    from ⟨inserted.sorted sorted, _, inserted⟩
  rw [stored]
  obtain ⟨smaller, larger⟩ := positionOf_between sorted fresh
  obtain ⟨count, kind, parent⟩ :=
    IndexNode.insertIntoCopy_members mem node k v child isleft room
  have keys := IndexNode.insertIntoCopy_liveKeys mem node k v child isleft room
  refine ⟨IndexNode.positionOf_le mem node k, smaller, larger, count, keys, ?_, ?_, kind,
    parent⟩
  · intro leaf
    have values := IndexNode.insertIntoCopy_liveValues mem node k v child isleft room leaf
    unfold IndexNode.livePairs
    rw [keys, values, List.zip_append (by simp), List.zip_cons_cons]
    simp only [List.zip_eq_zipWith, List.take_zipWith, List.drop_zipWith]
  · rintro inner rfl offset rfl
    exact IndexNode.insertIntoCopy_liveChildren mem node k v offset room inner

/-- A leaf with one key, the string `b`. -/
def oneKeyLeaf : Mem :=
  nodeLayout.store (Mem.zero.writeBytes 2000 [98]) 0
    { (nodeLayout.zero.setKey 0 2000).setNumKeys 1 with isLeaf := true }

/-- The key `a`, put before the key of `oneKeyLeaf`. -/
theorem insertIntoNode_sorted_one
    : let mem := oneKeyLeaf.writeBytes 3000 [97]
      let after := nodeLayout.load (insertIntoNode mem 0 3000 7 false (-1)).2 0
      SortedKeys mem after.liveKeys
        ∧ ∃ position,
            InsertedAt mem (nodeLayout.load mem 0) after 3000 7 (-1) false position :=
  insertIntoNode_sorted 7 (-1) false (by decide +kernel) (by decide +kernel)
    (by decide +kernel)

end ZippyFS
