import ZippyFS.Index.ImageInsert

/-! Linking a stored key into the tree: the descent ends in the leaf that answers for the
key, and the insertion there adds exactly one entry.
-/

namespace ZippyFS

open CellMemory StructLayout ByteOrder SearchTree

-----------------------------------------------------------------------------------------
-- The descent
-----------------------------------------------------------------------------------------

/-- A scan that keeps the value of the last place with a property ends with the value of the
only such place.
-/
theorem foldl_last_unique {R : Type} (places : List Nat) (start : R) (value : Nat → R)
    (target : Nat) (property : Nat → Prop) [DecidablePred property]
    (unique : ∀ place ∈ places, property place ↔ place = target)
    : places.foldl (fun found place => if property place then value place else found) start
      = if target ∈ places then value target else start := by
  induction places generalizing start with
  | nil => rfl
  | cons place rest ih =>
      rw [List.foldl_cons, ih _ (fun other member => unique other (by simp [member]))]
      have here := unique place (by simp)
      by_cases same : place = target
      · subst same
        rw [if_pos (here.mpr rfl)]
        simp
      · rw [if_neg (fun holds => same (here.mp holds))]
        simp [Ne.symm same]

/-- Where a key falls among increasing keys that do not contain it. -/
theorem route_bounds {keys : List Bytes} {key : Bytes} (sorted : keys.Pairwise (· < ·))
    (fresh : key ∉ keys) {index : Nat} (inside : index < keys.length)
    : keys[index] < key ↔ index < route keys key := by
  have notSame : keys[index] ≠ key := fun same => fresh (same ▸ List.getElem_mem inside)
  rw [← route_le_iff sorted inside, le_iff_lt_or_eq, or_iff_left notSame]

section Descent

variable {base size root top : Nat} {AtSlot : Int → Prop} {strings : Int → Bytes} {mem : Mem}
  {spans : Nat → Option (Span Bytes)}

/-- The separators of an inner node increase, and all are stored keys: each is the least key
to its right.
-/
theorem inner_keys {heap : Nat → Node Nat Bytes Int} (tree : Tree heap spans root top)
    {offset : Nat} {span : Span Bytes} (live : spans offset = some span) {keys : List Bytes}
    {children : List Nat} (body : (heap offset).body = .inner keys children)
    : keys.Pairwise (· < ·) ∧ ∀ key ∈ keys, ∃ value, Stored heap spans (key, value) := by
  obtain ⟨height, low, high⟩ := span
  cases height with
  | zero =>
      obtain ⟨entries, leaf, _⟩ := (tree.nodes offset _ live).leaf_body
      simp [leaf] at body
  | succ height =>
      obtain ⟨keys', children', shape, sorted, _, chain, _⟩ :=
        (tree.nodes offset _ live).inner_body
      obtain ⟨rfl, rfl⟩ := Body.inner.inj (body.symm.trans shape)
      refine ⟨sorted, ?_⟩
      intro key member
      obtain ⟨index, inside, rfl⟩ := List.getElem_of_mem member
      have arity := chain.length
      have middle : keys[index]? = some keys[index] := List.getElem?_eq_getElem inside
      have first : children[index]? = some children[index] :=
        List.getElem?_eq_getElem (by omega)
      have second : children[index + 1]? = some children[index + 1] :=
        List.getElem?_eq_getElem (by omega)
      obtain ⟨_, stop, rightLive⟩ := chain.neighbours middle first second
      have fits := tree.fits_traverse rightLive
      have least := List.mem_of_head? (fits.least keys[index] rfl)
      obtain ⟨entry, inTraverse, same⟩ := List.mem_map.mp least
      exact ⟨entry.2, tree.stored_of_mem rightLive (by rw [← same]; exact inTraverse)⟩

/-- What an inner node shows of its record. -/
theorem NodesOk.inner_node (ok : NodesOk base AtSlot strings mem size spans root) {offset : Nat}
    {span : Span Bytes} (live : spans offset = some span) {keys : List Bytes}
    {children : List Nat} (body : (heapOf strings mem offset).body = .inner keys children)
    : (nodeLayout.load mem offset).isLeaf = false
      ∧ (nodeLayout.load mem offset).liveKeys.map (fun key => ZippyFS.keyAt mem key) = keys
      ∧ ∀ {index child}, children[index]? = some child
        → (nodeLayout.load mem offset).child index = child := by
  obtain ⟨inner, keysAre, childrenAre⟩ := viewNode_inner strings body
  refine ⟨inner, ?_, ?_⟩
  · rw [keysAre]
    apply List.map_congr_left
    intro key member
    exact ok.known key (ok.slots offset span live key member)
  · intro index child found
    rw [childrenAre] at found
    obtain ⟨inside, same⟩ := List.getElem?_eq_some_iff.mp found
    simpa [IndexNode.liveChildren] using same

/-- One step of the descent takes the child on the key's route. -/
theorem findNodeFrom_step {key : Bytes} {fuel offset : Nat} {keys : List Bytes}
    (inner : (nodeLayout.load mem offset).isLeaf = false)
    (shown : (nodeLayout.load mem offset).liveKeys.map (fun key => keyAt mem key) = keys)
    (sorted : keys.Pairwise (· < ·)) (nonempty : 0 < (nodeLayout.load mem offset).numKeys)
    (fresh : key ∉ keys)
    : findNodeFrom mem key (fuel + 1) offset
      = findNodeFrom mem key fuel ((nodeLayout.load mem offset).child (route keys key)) := by
  subst shown
  rw [findNodeFrom]
  generalize nodeLayout.load mem offset = cur at *
  have count : (cur.liveKeys.map (fun key => keyAt mem key)).length = cur.numKeys := by simp
  have at_ : ∀ index, ∀ inside : index < cur.numKeys,
      keyAt mem (cur.key index) < key
        ↔ index < route (cur.liveKeys.map (fun key => keyAt mem key)) key := by
    intro index inside
    have live : index < (cur.liveKeys.map (fun key => keyAt mem key)).length := by omega
    have bounds := route_bounds sorted fresh live
    simpa [IndexNode.liveKeys] using bounds
  have above : ∀ index, index < cur.numKeys →
      (key < keyAt mem (cur.key index)
        ↔ ¬ index < route (cur.liveKeys.map (fun key => keyAt mem key)) key) := by
    intro index inside
    rw [← at_ index inside]
    have notSame : key ≠ keyAt mem (cur.key index) := by
      intro same
      apply fresh
      rw [same]
      exact List.mem_map.mpr ⟨cur.key index,
        List.mem_map.mpr ⟨index, List.mem_range.mpr inside, rfl⟩, rfl⟩
    rw [not_lt, le_iff_lt_or_eq, or_iff_left notSame]
  have routeLe : route (cur.liveKeys.map (fun key => keyAt mem key)) key ≤ cur.numKeys := by
    rw [← count]
    exact List.takeWhile_sublist _ |>.length_le
  generalize route (cur.liveKeys.map (fun key => keyAt mem key)) key = target at *
  simp only [inner, Bool.false_eq_true, if_false, strcmp_lt_iff, strcmp_gt_iff]
  by_cases before : key < keyAt mem (cur.key 0)
  · have zero := (above 0 nonempty).mp before
    rw [if_pos before, show target = 0 by omega]
  · have some := mt (above 0 nonempty).mpr before
    rw [if_neg before]
    by_cases behind : keyAt mem (cur.key (cur.numKeys - 1)) < key
    · have last := (at_ (cur.numKeys - 1) (by omega)).mp behind
      rw [if_pos behind, show cur.numKeys - 1 + 1 = target by omega]
    · have notLast := mt (at_ (cur.numKeys - 1) (by omega)).mpr behind
      rw [if_neg behind, foldl_last_unique _ 0 (fun place => place) (target - 1)]
      · have same : (if target - 1 ∈ List.range' 1 (cur.numKeys - 1) then target - 1 else 0)
            = target - 1 := by
          split
          · rfl
          · next outside =>
              rw [List.mem_range'_1] at outside
              omega
        rw [same, show target - 1 + 1 = target by omega]
      · intro place member
        rw [List.mem_range'_1] at member
        by_cases inside : place + 1 < cur.numKeys
        · rw [at_ place (by omega), above (place + 1) inside]
          omega
        · refine iff_of_false ?_ (by omega)
          rintro ⟨smaller, _⟩
          rw [show place = cur.numKeys - 1 by omega] at smaller
          exact behind smaller

/-- The descent reaches the leaf that answers for a new key. -/
theorem findNodeFrom_spec (ok : NodesOk base AtSlot strings mem size spans root)
    (tree : Tree (heapOf strings mem) spans root top) {key : Bytes}
    (fresh : ∀ value, ¬ Stored (heapOf strings mem) spans (key, value)) {fuel : Nat}
    (enough : top < fuel)
    : ∃ leaf low high,
        findNodeFrom mem key fuel root = .ok leaf
        ∧ spans leaf = some ⟨0, low, high⟩
        ∧ low ≤ key
        ∧ (key : WithTop Bytes) < high := by
  have atLeaf : ∀ fuel node span, spans node = some span → span.height = 0
      → findNodeFrom mem key (fuel + 1) node = .ok node := by
    rintro fuel node ⟨height, low, high⟩ live rfl
    obtain ⟨entries, body, _⟩ := (tree.nodes node _ live).leaf_body
    obtain ⟨leaf, _⟩ := viewNode_leaf strings body
    rw [findNodeFrom]
    simp only [leaf, if_true]
  have atInner : ∀ fuel node span keys children child, spans node = some span
      → (heapOf strings mem node).body = .inner keys children
      → children[route keys key]? = some child
      → findNodeFrom mem key (fuel + 1) node = findNodeFrom mem key fuel child := by
    rintro fuel node span keys children child live body found
    obtain ⟨sorted, stored⟩ := inner_keys tree live body
    obtain ⟨inner, seen, taken⟩ := ok.inner_node live body
    have notKey : key ∉ keys := by
      intro member
      obtain ⟨value, there⟩ := stored key member
      exact fresh value there
    rw [findNodeFrom_step inner seen sorted (ok.nonempty node _ live) notKey, taken found]
  obtain ⟨leaf, low, high, arrived, live, above, below, _⟩ :=
    tree.follow_routes atLeaf atInner tree.rootSpan bot_le (WithTop.coe_lt_top key) enough
  exact ⟨leaf, low, high, arrived, live, above, below⟩

end Descent

-----------------------------------------------------------------------------------------
-- Inserting
-----------------------------------------------------------------------------------------

section Insert

variable {base root top : Nat} {AtSlot : Int → Prop} {strings : Int → Bytes} {index : BPLUSIndex}
  {spans : Nat → Option (Span Bytes)}

/-- Inserting into a leaf with room. -/
theorem IndexOk.insertLeaf (ok : IndexOk base AtSlot strings index spans root top)
    (tree : Tree (heapOf strings index.mem.mem) spans root top) {leaf : Nat}
    {low : WithBot Bytes} {high : WithTop Bytes} {k v : Int}
    (live : spans leaf = some ⟨0, low, high⟩)
    (room : (nodeLayout.load index.mem.mem leaf).numKeys ≠ ORDER - 1)
    (slot : AtSlot k) (above : low ≤ strings k)
    (below : (strings k : WithTop Bytes) < high) {entries : List (Bytes × Int)}
    (body : (heapOf strings index.mem.mem leaf).body = .leaf entries)
    (fresh : strings k ∉ entries.map Prod.fst)
    : Finished base AtSlot strings index
        (withBytes index (insertIntoNode index.mem.mem leaf k v false (-1)).2)
        (fun entry => entry = (strings k, v)
          ∨ Stored (heapOf strings index.mem.mem) spans entry) := by
  have place := (ok.live leaf _ live).1
  have space : (nodeLayout.load index.mem.mem leaf).numKeys < ORDER - 1 :=
    lt_of_le_of_ne (ok.full leaf _ live) room
  obtain ⟨entries', shape, fits⟩ := (tree.nodes leaf _ live).leaf_body
  obtain rfl := Body.leaf.inj (body.symm.trans shape)
  obtain ⟨before, after, rfl, smaller, larger, view⟩ :=
    viewNode_insert_leaf v (-1) false
      (ok.keyAt live (SameRecords.refl base index.mem.mem)) (ok.known k slot) body fits.sorted
      fresh space
  have members := IndexNode.insertIntoCopy_members index.mem.mem
    (nodeLayout.load index.mem.mem leaf) k v (-1) false space
  have insertedKeys : ∀ key ∈ (insertIntoCopy index.mem.mem
      (nodeLayout.load index.mem.mem leaf) k v false (-1)).2.liveKeys,
      key = k ∨ key ∈ (nodeLayout.load index.mem.mem leaf).liveKeys :=
    fun key => mem_liveKeys_insertIntoCopy space
  simp only [insertIntoNode]
  generalize (insertIntoCopy index.mem.mem (nodeLayout.load index.mem.mem leaf) k v false
    (-1)).2 = inserted at *
  have records := SameRecords.store ok.room place index.mem.mem inserted
  have leafLoad : nodeLayout.load (nodeLayout.store index.mem.mem leaf inserted) leaf
      = inserted := Layout.load_store_same _ _ _ _
  have otherLoad : ∀ other span, spans other = some span → other ≠ leaf
      → nodeLayout.load (nodeLayout.store index.mem.mem leaf inserted) other
        = nodeLayout.load index.mem.mem other := fun other span alive away =>
    load_store_other ok.room place (ok.live other span alive).1 away _ _
  generalize nodeLayout.store index.mem.mem leaf inserted = final at *
  have written : heapOf strings final leaf
      = ⟨(heapOf strings index.mem.mem leaf).parent,
          .leaf (before ++ (strings k, v) :: after)⟩ := by
    rw [heapOf, leafLoad, view]
    rfl
  have kept : ∀ other span, spans other = some span → other ≠ leaf
      → heapOf strings final other = heapOf strings index.mem.mem other := by
    intro other span alive away
    rw [heapOf, otherLoad other span alive away]
    rfl
  refine ⟨Progress.ofRecords ⟨le_refl _, fun _ _ => rfl⟩ records, spans, root, top,
    ok.rewrite records ?_ ?_, tree.insertLeaf live body above below smaller larger written kept,
    ?_⟩
  · intro other span alive key member
    by_cases here : other = leaf
    · subst here
      rw [leafLoad] at member
      rcases insertedKeys key member with same | old
      · exact same ▸ slot
      · exact ok.slots other span alive key old
    · rw [otherLoad other span alive here] at member
      exact ok.slots other span alive key member
  · intro other span alive
    by_cases here : other = leaf
    · subst here
      rw [leafLoad, members.1]
      exact ⟨Nat.le_succ _, space⟩
    · rw [otherLoad other span alive here]
      exact ⟨le_refl _, ok.full other span alive⟩
  · intro entry
    refine stored_insert live body (by rw [withBytes_mem, written]) ?_ entry
    intro other span alive away
    rw [withBytes_mem, kept other span alive away]

/-- Linking a new key into the tree adds its entry and no other. -/
theorem IndexOk.insertKey (ok : IndexOk base AtSlot strings index spans root top)
    (tree : Tree (heapOf strings index.mem.mem) spans root top) {keyOf : Int} (inodeOf : Int)
    (slot : AtSlot keyOf)
    (fresh
      : ∀ value, ¬ Stored (heapOf strings index.mem.mem) spans (strings keyOf, value))
    : ∃ new, index.insertKey (strings keyOf) keyOf inodeOf = .ok new
        ∧ Finished base AtSlot strings index new
            (fun entry => entry = (strings keyOf, inodeOf)
              ∨ Stored (heapOf strings index.mem.mem) spans entry) := by
  have tall := ok.tall
  obtain ⟨leaf, low, high, found, live, above, below⟩ :=
    findNodeFrom_spec ok.toNodesOk tree fresh (show top < index.mem.latestIndex by omega)
  obtain ⟨entries, body, fits⟩ := (tree.nodes leaf _ live).leaf_body
  have notIn : strings keyOf ∉ entries.map Prod.fst := by
    intro member
    obtain ⟨entry, inside, same⟩ := List.mem_map.mp member
    exact fresh entry.2 ⟨leaf, _, entries, live, body, by rw [← same]; exact inside⟩
  have reached : index.findNodeToStore (strings keyOf) = .ok leaf := by
    simp only [BPLUSIndex.findNodeToStore, ok.hasRoot, Bool.not_true, Bool.false_eq_true,
      if_false, ok.rooted, bind, Except.bind]
    exact found
  have shape : index.insertKey (strings keyOf) keyOf inodeOf
      = if (nodeLayout.load index.mem.mem leaf).numKeys = ORDER - 1 then
          (BPLUSIndex.splitInsertNode index.mem.latestIndex index leaf keyOf inodeOf false
            (-1)).bind (fun result => .ok result.2)
        else .ok (withBytes index
          (insertIntoNode index.mem.mem leaf keyOf inodeOf false (-1)).2) := by
    simp only [BPLUSIndex.insertKey, reached, bind, Except.bind]
    rfl
  rw [shape]
  by_cases full : (nodeLayout.load index.mem.mem leaf).numKeys = ORDER - 1
  · rw [if_pos full]
    obtain ⟨fuel, fuelIs⟩ : ∃ fuel, index.mem.latestIndex = fuel + 1 :=
      ⟨index.mem.latestIndex - 1, by omega⟩
    obtain ⟨rightidx, right, medKeyOf, new, outcome, halves, firstKey, firstSlot, stored⟩ :=
      ok.splitLeaf (v := inodeOf) tree (-1) live full slot above below body notIn
    have recursion : ∀ upper, (heapOf strings new.mem.mem leaf).parent = some upper
        → (nodeLayout.load new.mem.mem upper).numKeys = ORDER - 1
        → ∃ result,
          BPLUSIndex.splitInsertNode fuel new upper medKeyOf (-1) true rightidx = .ok result
          ∧ Finished base AtSlot strings new result.2 (Stored (heapOf strings new.mem.mem)
            (narrowed spans leaf right (strings medKeyOf))) := by
      intro upper pointer upperFull
      have notRoot : leaf ≠ root := by
        rintro rfl
        simp [halves.split.rootParent] at pointer
      obtain ⟨upper', _, _, _, _, _, _, _, pointer', upperLive, _⟩ :=
        halves.split.parent notRoot
      obtain rfl := Option.some.inj (pointer'.symm.trans pointer)
      exact halves.ok.splitParents fuel halves.split halves.slot pointer upperFull halves.offset
        halves.older upperLive (by omega)
    have listed : ∃ result, new.listRight
          (fun index paroff key targ =>
            BPLUSIndex.splitInsertNode fuel index paroff key (-1) true targ)
          leaf rightidx right medKeyOf inodeOf false = .ok result
        ∧ Finished base AtSlot strings new result.2 _ :=
      halves.ok.listRight halves.split halves.leftFill halves.slot
        (fun _ => ⟨firstKey, firstSlot⟩) recursion
    obtain ⟨result, done, finished⟩ := listed
    have notSmall : ¬ (index.mem.load nodeLayout leaf).numKeys ≠ ORDER - 1 := not_not.mpr full
    refine ⟨result.2, ?_, ?_⟩
    · rw [fuelIs, BPLUSIndex.splitInsertNode, if_neg notSmall]
      simp only [outcome, bind, Except.bind, done]
    · refine ⟨halves.progress.trans finished.progress, ?_⟩
      obtain ⟨spans', root', top', ok', tree', stored'⟩ := finished.tree
      exact ⟨spans', root', top', ok', tree', fun entry => (stored' entry).trans (stored entry)⟩
  · rw [if_neg full]
    exact ⟨_, rfl, ok.insertLeaf tree live full slot above below body notIn⟩

end Insert

end ZippyFS
