import ZippyFS.Index.TreeSearch
import ZippyFS.Lib.Outcomes
import ZippyFS.Lib.TreeDetour

/-! The writer's own search. It reuses the descent of an insertion, whose tests exclude both ends
of every gap, so it loses the keys that a node holds as later separators.
-/

namespace ZippyFS

open CellMemory StructLayout ByteOrder SearchTree Outcomes

-----------------------------------------------------------------------------------------
-- The descent of an insertion, for any key
-----------------------------------------------------------------------------------------

/-- A scan for places with a property keeps its start when no place has it. -/
theorem foldl_no_match {R : Type} (places : List Nat) (start : R) (value : Nat → R)
    (property : Nat → Prop) [DecidablePred property] (none : ∀ place ∈ places, ¬ property place)
    : places.foldl (fun found place => if property place then value place else found) start
      = start := by
  induction places with
  | nil => rfl
  | cons place rest ih =>
      rw [List.foldl_cons, if_neg (none place (by simp))]
      exact ih (fun other member => none other (by simp [member]))

/-- The descent steps into the second child at a node's own key. -/
theorem findNodeFrom_separator {mem : Mem} {key : Bytes} {fuel offset : Nat} {keys : List Bytes}
    (inner : (nodeLayout.load mem offset).isLeaf = false)
    (shown : (nodeLayout.load mem offset).liveKeys.map (fun key => keyAt mem key) = keys)
    (sorted : keys.Pairwise (· < ·)) (separates : key ∈ keys)
    : findNodeFrom mem key (fuel + 1) offset
      = findNodeFrom mem key fuel ((nodeLayout.load mem offset).child 1) := by
  subst shown
  rw [findNodeFrom]
  generalize nodeLayout.load mem offset = cur at *
  obtain ⟨index, inside, same⟩ := List.getElem_of_mem separates
  have count : (cur.liveKeys.map (fun key => keyAt mem key)).length = cur.numKeys := by simp
  have at_ : ∀ place, ∀ live : place < (cur.liveKeys.map (fun key => keyAt mem key)).length,
      (cur.liveKeys.map (fun key => keyAt mem key))[place] = keyAt mem (cur.key place) := by
    intro place live
    simp [IndexNode.liveKeys]
  have upTo : ∀ place, place ≤ index → keyAt mem (cur.key place) ≤ key := by
    intro place low
    rw [← at_ place (by omega), ← same]
    rcases Nat.lt_or_eq_of_le low with before | rfl
    · exact (List.pairwise_iff_getElem.mp sorted place index (by omega) inside before).le
    · exact le_refl _
  have onward : ∀ place, index ≤ place → place < cur.numKeys →
      key ≤ keyAt mem (cur.key place) := by
    intro place high live
    rw [← at_ place (by omega), ← same]
    rcases Nat.lt_or_eq_of_le high with behind | rfl
    · exact (List.pairwise_iff_getElem.mp sorted index place inside (by omega) behind).le
    · exact le_refl _
  simp only [inner, Bool.false_eq_true, if_false, strcmp_lt_iff, strcmp_gt_iff]
  rw [if_neg (not_lt.mpr (upTo 0 (by omega))),
    if_neg (not_lt.mpr (onward (cur.numKeys - 1) (by omega) (by omega))), foldl_no_match]
  intro place member gap
  rw [List.mem_range'_1] at member
  -- A gap around the key would lie both before and behind the key's own place.
  rcases Nat.lt_or_ge place index with before | behind
  · exact absurd gap.2 (not_lt.mpr (upTo (place + 1) before))
  · exact absurd gap.1 (not_lt.mpr (onward place behind (by omega)))

/-- One step of the descent, whether or not the key is one of the node's own. -/
theorem findNodeFrom_gapRoute {mem : Mem} {key : Bytes} {fuel offset : Nat} {keys : List Bytes}
    (inner : (nodeLayout.load mem offset).isLeaf = false)
    (shown : (nodeLayout.load mem offset).liveKeys.map (fun key => keyAt mem key) = keys)
    (sorted : keys.Pairwise (· < ·)) (nonempty : 0 < (nodeLayout.load mem offset).numKeys)
    : findNodeFrom mem key (fuel + 1) offset
      = findNodeFrom mem key fuel ((nodeLayout.load mem offset).child (gapRoute keys key)) := by
  by_cases separates : key ∈ keys
  · rw [findNodeFrom_separator inner shown sorted separates]
    have second : gapRoute keys key = 1 := by
      cases keys with
      | nil => cases separates
      | cons first rest =>
          rcases List.mem_cons.mp separates with rfl | later
          · obtain ⟨least, _⟩ := List.pairwise_cons.mp sorted
            have notLater : key ∉ rest := fun again => absurd (least key again) (lt_irrefl key)
            rw [gapRoute, List.tail_cons, if_neg notLater]
            cases rest with
            | nil => simp [route]
            | cons next _ => simp [route, not_le.mpr (least next (by simp))]
          · rw [gapRoute, List.tail_cons, if_pos later]
    rw [second]
  · rw [findNodeFrom_step inner shown sorted nonempty separates, gapRoute,
      if_neg (fun later => separates (List.mem_of_mem_tail later))]

-----------------------------------------------------------------------------------------
-- The search in a written tree
-----------------------------------------------------------------------------------------

/-- The tree on a written image, as its nodes spell their keys. -/
abbrev BPLUSIndex.nodes (index : BPLUSIndex) : Nat → Node Nat Bytes Int :=
  heapOf (keyAt index.mem.mem) index.mem.mem

section Search

variable {base root top : Nat} {AtSlot : Int → Prop} {index : BPLUSIndex}
  {spans : Nat → Option (Span Bytes)}

/-- The search of a leaf finds a key exactly if the loader's search of the leaf does. -/
theorem scan_eq_isSome (mem : Mem) (key : Bytes) (leaf : Nat)
    : (List.range (nodeLayout.load mem leaf).numKeys).any
          (fun ii => decide (strcmp (keyAt mem ((nodeLayout.load mem leaf).key ii)) key = .eq))
      = (BPLUSIndexLoader.findInLeaf mem key leaf).isSome := by
  unfold BPLUSIndexLoader.findInLeaf
  rw [Option.isSome_map, Bool.eq_iff_iff, List.any_eq_true, List.find?_isSome]

/-- The search ends. It finds the stored keys that are not misled, and no other key. -/
theorem BPLUSIndex.find_iff
    (ok : IndexOk base AtSlot (keyAt index.mem.mem) index spans root top)
    (tree : Tree index.nodes spans root top) (key : Bytes)
    : ∃ found, index.find key = .ok found
        ∧ (found = true ↔ (∃ value, Stored index.nodes spans (key, value))
          ∧ ¬ Misled index.nodes key index.mem.latestIndex root) := by
  have tall := ok.tall
  have enough : top < index.mem.latestIndex := by omega
  have atLeaf : ∀ fuel node span, spans node = some span → span.height = 0
      → findNodeFrom index.mem.mem key (fuel + 1) node = .ok node := by
    rintro fuel node ⟨height, low, high⟩ live rfl
    obtain ⟨entries, body, _⟩ := (tree.nodes node _ live).leaf_body
    obtain ⟨leaf, _⟩ := viewNode_leaf _ body
    rw [findNodeFrom]
    simp only [leaf, if_true]
  have atInner : ∀ fuel node span keys children child, spans node = some span
      → (index.nodes node).body = .inner keys children
      → children[gapRoute keys key]? = some child
      → findNodeFrom index.mem.mem key (fuel + 1) node
        = findNodeFrom index.mem.mem key fuel child := by
    rintro fuel node span keys children child live body found
    obtain ⟨sorted, _⟩ := inner_keys tree live body
    obtain ⟨inner, seen, taken⟩ := ok.inner_node live body
    rw [findNodeFrom_gapRoute inner seen sorted (ok.nonempty node _ live), taken found]
  obtain ⟨leaf, low, high, arrived, live, behind, same⟩ :=
    tree.follow_gaps atLeaf atInner tree.rootSpan bot_le (WithTop.coe_lt_top key) enough
  obtain ⟨entries, body, fits⟩ := (tree.nodes leaf _ live).leaf_body
  have placed : leaf ≠ 0 := by
    have place := (ok.live leaf _ live).1
    have room := ok.room
    unfold NodePlace at place
    omega
  have target : index.findNodeToStore key = .ok leaf := by
    simp only [findNodeToStore, ok.hasRoot, ok.rooted, Bool.not_true, Bool.false_eq_true, if_false,
      ok_bind]
    exact arrived
  refine ⟨(BPLUSIndexLoader.findInLeaf index.mem.mem key leaf).isSome, ?_, ?_⟩
  · rw [find, target, ok_bind, if_neg placed, ← scan_eq_isSome]
    rfl
  · rw [Option.isSome_iff_exists]
    simp only [BPLUSIndexLoader.findInLeaf_iff ok.toNodesOk live body fits.sorted]
    by_cases misled : Misled index.nodes key index.mem.latestIndex root
    · refine iff_of_false ?_ (fun both => both.2 misled)
      rintro ⟨value, member⟩
      have inside := (fits.inside key (List.mem_map.mpr ⟨_, member, rfl⟩)).2
      exact absurd (inside.trans_le (behind misled)) (lt_irrefl _)
    · rw [and_iff_left misled]
      refine exists_congr (fun value => ?_)
      rw [← tree.mem_traverse_iff, same misled, traverse_leaf body]

/-- Only stored keys are misled. -/
theorem BPLUSIndex.stored_of_misled
    (tree : Tree index.nodes spans root top) {key : Bytes} {fuel : Nat}
    (misled : Misled index.nodes key fuel root)
    : ∃ value, Stored index.nodes spans (key, value) := by
  obtain ⟨node, span, keys, children, live, body, separates⟩ :=
    tree.separator_of_misled tree.rootSpan misled
  exact (inner_keys tree live body).2 key separates

/-- Every node but the root has several keys. -/
theorem BPLUSIndex.several_keys
    (ok : IndexOk base AtSlot (keyAt index.mem.mem) index spans root top) (node : Nat)
    (span : Span Bytes) (live : spans node = some span) (notRoot : node ≠ root)
    : 2 ≤ (index.nodes node).body.keys.length := by
  rw [BPLUSIndex.nodes, heapOf, viewNode_keys_length]
  exact (show 2 ≤ medIdx by decide).trans (ok.filled node span live notRoot)

/-- No node has more keys than its array holds. -/
theorem BPLUSIndex.few_keys
    (ok : IndexOk base AtSlot (keyAt index.mem.mem) index spans root top) (node : Nat)
    (span : Span Bytes) (live : spans node = some span)
    : (index.nodes node).body.keys.length ≤ ORDER - 1 := by
  rw [BPLUSIndex.nodes, heapOf, viewNode_keys_length]
  exact ok.full node span live

/-- A tree of more than two full leaves misleads one of the keys it stores. -/
theorem BPLUSIndex.exists_lost
    (ok : IndexOk base AtSlot (keyAt index.mem.mem) index spans root top)
    (tree : Tree index.nodes spans root top)
    (many : 2 * (ORDER - 1) < (traverse index.nodes top root).length)
    : ∃ key, (∃ value, Stored index.nodes spans (key, value))
        ∧ Misled index.nodes key index.mem.latestIndex root := by
  have tall := ok.tall
  have enough : top < index.mem.latestIndex := by omega
  obtain ⟨node, span, keys, children, key, live, body, separates, misled⟩ :=
    tree.exists_misled (several_keys ok) (few_keys ok) many enough
  exact ⟨key, (inner_keys tree live body).2 key separates, misled⟩

end Search

-----------------------------------------------------------------------------------------
-- Whole sequences of calls
-----------------------------------------------------------------------------------------

/-- After the calls, the writer's search answers whether the key was inserted, and answers it as
the loader's search of the same image does.
-/
def FindDecides (env : Env) (caps : Capacities) (calls : List AddCall) (key : Bytes) : Prop :=
  ∃ index found result,
    addAll env caps calls = .ok index
    ∧ index.find key = .ok found
    ∧ BPLUSIndexLoader.findInTree index.image key = .ok result
    ∧ (found = true ↔ ∃ call ∈ calls, call.inode.inodeId = key)
    ∧ found = result.isSome

/-- On the loader's way down, the key is a separator of some node behind the node's first. -/
def LaterSeparator (env : Env) (caps : Capacities) (calls : List AddCall) (key : Bytes) : Prop :=
  ∃ index,
    addAll env caps calls = .ok index
    ∧ Misled index.nodes key index.mem.latestIndex index.image.header.root

section Calls

variable {env : Env} {caps : Capacities} {calls : List AddCall}

/-- A misled key is an inserted one, and the writer's search misses it. -/
theorem Built.find_misled {index : BPLUSIndex} {spans : Nat → Option (Span Bytes)}
    {root top : Nat} (built : Built env caps index calls spans root top) {key : Bytes}
    (misled : Misled index.nodes key index.mem.latestIndex root)
    : (∃ call ∈ calls, call.inode.inodeId = key) ∧ index.find key = .ok false := by
  obtain ⟨found, searched, found_iff⟩ := BPLUSIndex.find_iff built.ok built.tree key
  have missed : found = false := by
    rw [← Bool.not_eq_true, found_iff]
    exact fun both => both.2 misled
  exact ⟨(built.stored_iff key).mp (BPLUSIndex.stored_of_misled built.tree misled),
    missed ▸ searched⟩

/-- The writer's search decides membership exactly of the keys that no node of the tree holds as
a later separator. An empty index has no tree to search. Keys are compared as C strings, so a key
with a terminator in it stands for its part before that.
-/
theorem findDecides_iff (fits : caps.Respected calls) (valid : ValidIds calls) (key : Bytes)
    : FindDecides env caps calls key ↔ calls ≠ [] ∧ ¬ LaterSeparator env caps calls key := by
  rcases eq_or_ne calls [] with rfl | made
  · refine iff_of_false ?_ (fun both => both.1 rfl)
    rintro ⟨index, found, result, outcome, searched, _⟩
    obtain rfl : caps.index = index := Except.ok.inj outcome
    have empty : caps.index.find key = .error .emptyTree := rfl
    rw [empty] at searched
    exact nomatch searched
  · obtain ⟨index, spans, root, top, outcome, built⟩ := addAll_built env made fits valid
    have start : index.image.header.root = root := built.ok.pointer
    have later : LaterSeparator env caps calls key
        ↔ Misled index.nodes key index.mem.latestIndex root := by
      constructor
      · rintro ⟨other, same, misled⟩
        obtain rfl := Except.ok.inj (outcome.symm.trans same)
        rwa [start] at misled
      · intro misled
        exact ⟨index, outcome, start ▸ misled⟩
    obtain ⟨found, searched, found_iff⟩ := BPLUSIndex.find_iff built.ok built.tree key
    obtain ⟨result, ended, result_iff⟩ :=
      BPLUSIndexLoader.findInTree_iff built.ok built.tree key
    have loaded : result.isSome ↔ ∃ call ∈ calls, call.inode.inodeId = key := by
      rw [Option.isSome_iff_exists, ← built.stored_iff]
      exact exists_congr result_iff
    rw [built.stored_iff] at found_iff
    rw [later, and_iff_right made]
    constructor
    · rintro ⟨other, answer, _, same, also, _, decides, _⟩ misled
      obtain rfl := Except.ok.inj (outcome.symm.trans same)
      obtain ⟨inserted, missed⟩ := built.find_misled misled
      obtain rfl := Except.ok.inj (missed.symm.trans also)
      exact absurd (decides.mpr inserted) (by simp)
    · intro straight
      rw [and_iff_left straight] at found_iff
      exact ⟨index, found, result, outcome, searched, ended, found_iff,
        Bool.eq_iff_iff.mpr (found_iff.trans loaded.symm)⟩

/-- Two inserted ids, the second looked up. -/
theorem findDecides_iff_two
    : FindDecides ⟨fun _ => Vector.replicate 32 0, fun _ => 0⟩ ⟨2, 4, 2, 4⟩
          [oneBlockCall [66] [47, 98] [1, 2] 7, oneBlockCall [65] [47, 97] [3, 4] 7] [65]
        ↔ [oneBlockCall [66] [47, 98] [1, 2] 7, oneBlockCall [65] [47, 97] [3, 4] 7] ≠ []
          ∧ ¬ LaterSeparator ⟨fun _ => Vector.replicate 32 0, fun _ => 0⟩ ⟨2, 4, 2, 4⟩
            [oneBlockCall [66] [47, 98] [1, 2] 7, oneBlockCall [65] [47, 97] [3, 4] 7] [65] :=
  findDecides_iff ⟨by decide, by decide, by decide, by decide⟩
    ⟨by decide, by decide, by decide⟩ [65]

/-- The tree of a sequence of calls has one entry for each call. -/
theorem Built.traverse_length {index : BPLUSIndex} {spans : Nat → Option (Span Bytes)}
    {root top : Nat} (built : Built env caps index calls spans root top)
    (distinct : (calls.map (·.inode.inodeId)).Nodup)
    : (traverse index.nodes top root).length = calls.length := by
  have same := (built.keysBelow_perm distinct).length_eq
  rwa [keysBelow, List.length_map, List.length_map] at same

/-- Every sequence of more calls than two leaves hold loses one of the inserted ids. -/
theorem exists_lost_of_many (fits : caps.Respected calls) (valid : ValidIds calls)
    (many : 2 * (ORDER - 1) < calls.length)
    : ∃ call ∈ calls, ¬ FindDecides env caps calls call.inode.inodeId := by
  have made : calls ≠ [] := List.ne_nil_of_length_pos (by omega)
  obtain ⟨index, spans, root, top, outcome, built⟩ := addAll_built env made fits valid
  obtain ⟨key, _, misled⟩ :=
    BPLUSIndex.exists_lost built.ok built.tree (built.traverse_length valid.distinct ▸ many)
  obtain ⟨⟨call, member, rfl⟩, missed⟩ := built.find_misled misled
  refine ⟨call, member, ?_⟩
  rintro ⟨other, answer, _, same, also, _, decides, _⟩
  obtain rfl := Except.ok.inj (outcome.symm.trans same)
  obtain rfl := Except.ok.inj (missed.symm.trans also)
  exact absurd (decides.mpr ⟨call, member, rfl⟩) (by simp)

/-- The ids 1 to 47, inserted in this order. -/
theorem find_loses
    : ∃ call ∈ (List.range 47).map (fun n => oneBlockCall [UInt8.ofNat (n + 1)] [47] [] 7),
        ¬ FindDecides ⟨fun _ => Vector.replicate 32 0, fun _ => 0⟩ ⟨47, 0, 47, 47⟩
          ((List.range 47).map (fun n => oneBlockCall [UInt8.ofNat (n + 1)] [47] [] 7))
          call.inode.inodeId :=
  exists_lost_of_many ⟨by decide, by decide, by decide, by decide⟩
    ⟨by decide, by decide, by decide⟩ (by decide)

end Calls

end ZippyFS
