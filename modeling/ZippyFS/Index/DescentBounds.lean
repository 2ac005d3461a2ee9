import ZippyFS.Index.AccessBounds
import ZippyFS.Index.RecordList
import ZippyFS.Index.WriterFind

/-! The accesses of descents, and of whole sequences of calls. The loader looks at live elements
only. The writer looks behind the last key of every node with several keys that has the wanted
key neither before its first nor behind its last key.
-/

namespace ZippyFS

open CellMemory StructLayout ByteOrder SearchTree Outcomes Recorded

namespace Watched

-----------------------------------------------------------------------------------------
-- One step down
-----------------------------------------------------------------------------------------

section Step

variable {mem : Mem} {cur : IndexNode} {key : Bytes}

/-- A descent stays in the array if it stays among the live elements. -/
theorem ok_seen_iff (full : cur.numKeys ≤ ORDER - 1) (array : NodeArray) (index : Int)
    : Access.Ok ⟨array, index, some cur.numKeys⟩ ↔ 0 ≤ index ∧ index < array.live cur.numKeys := by
  have wide : ORDER = ORDER - 1 + 1 := rfl
  cases array <;>
    simp only [Access.Ok, NodeArray.length, NodeArray.live, Option.some.injEq, forall_eq'] <;>
    omega

/-- The writer's loop over the gaps goes on to the place behind the last key. -/
theorem findInner_ok_iff (full : cur.numKeys ≤ ORDER - 1)
    : (findInner mem key cur).All Access.Ok ↔ cur.numKeys < 2 := by
  have rounds : (findInner mem key cur).All Access.Ok
      ↔ ∀ ii ∈ List.range' 1 (cur.numKeys - 1), ii + 1 < cur.numKeys := by
    refine all_foldlM (fun inneridx ii => ⟨_, rfl⟩) (fun inneridx ii => ?_) _ _
    simp only [seeKey, all_event_bind, all_pure, and_true, ok_seen_iff full, NodeArray.live]
    omega
  rw [rounds]
  constructor
  · intro inside
    by_contra several
    have last := inside (cur.numKeys - 1) (List.mem_range'_1.mpr (by omega))
    omega
  · intro one ii member
    rw [List.mem_range'_1] at member
    omega

/-- The writer's step down stays among the live elements unless several keys enclose the wanted
one.
-/
theorem nextNode_ok_iff (full : cur.numKeys ≤ ORDER - 1) (some : 0 < cur.numKeys)
    : (nextNode mem key cur).All Access.Ok
      ↔ ¬ (2 ≤ cur.numKeys ∧ keyAt mem (cur.key 0) ≤ key
        ∧ key ≤ keyAt mem (cur.key (cur.numKeys - 1))) := by
  have last : ((cur.numKeys : Int) - 1).toNat = cur.numKeys - 1 := by omega
  simp only [nextNode, seeKey, seeChild, all_event_bind, ok_seen_iff full, NodeArray.live,
    Int.toNat_zero, strcmp_lt_iff]
  by_cases before : key < keyAt mem (cur.key 0)
  · rw [if_pos before, all_event, ok_seen_iff full, NodeArray.live]
    refine iff_of_true (by omega) (fun enclosed => absurd before (not_lt.mpr enclosed.2.1))
  · rw [if_neg before, all_event_bind, ok_seen_iff full, NodeArray.live, last]
    simp only [strcmp_gt_iff]
    by_cases behind : keyAt mem (cur.key (cur.numKeys - 1)) < key
    · rw [if_pos behind, all_event, ok_seen_iff full, NodeArray.live]
      refine iff_of_true (by omega) (fun enclosed => absurd behind (not_lt.mpr enclosed.2.2))
    · rw [if_neg behind, all_bind_ok (findInner_outcome _ _ _), findInner_ok_iff full, all_event,
        ok_seen_iff full, NodeArray.live]
      by_cases several : 2 ≤ cur.numKeys
      · exact iff_of_false (by omega)
          (fun outside => outside ⟨several, not_lt.mp before, not_lt.mp behind⟩)
      · -- a single key leaves the loop no gap
        have single : cur.numKeys = 1 := by omega
        refine iff_of_true ?_ (fun enclosed => several enclosed.1)
        simp [single]

/-- Where several keys of a node enclose a key. -/
theorem enclosed_node_iff {keys : List Bytes}
    (shown : cur.liveKeys.map (fun key => keyAt mem key) = keys)
    (sorted : keys.Pairwise (· < ·)) (some : 0 < cur.numKeys)
    : Enclosed keys key
      ↔ 2 ≤ cur.numKeys ∧ keyAt mem (cur.key 0) ≤ key
        ∧ key ≤ keyAt mem (cur.key (cur.numKeys - 1)) := by
  have count : keys.length = cur.numKeys := by simp [← shown]
  have at_ (index : Nat) (inside : index < cur.numKeys)
      : keys[index]? = Option.some (keyAt mem (cur.key index)) := by
    simp [← shown, IndexNode.liveKeys, inside]
  have head : keys.head? = Option.some (keyAt mem (cur.key 0)) := by
    rw [List.head?_eq_getElem?, at_ 0 some]
  have end_ : keys.getLast? = Option.some (keyAt mem (cur.key (cur.numKeys - 1))) := by
    rw [List.getLast?_eq_getElem?, count, at_ _ (by omega)]
  rw [enclosed_iff sorted head end_, count]

/-- The writer's step down leads along the key's route if the keys do not enclose it. -/
theorem nextNode_route {keys : List Bytes}
    (shown : cur.liveKeys.map (fun key => keyAt mem key) = keys)
    (sorted : keys.Pairwise (· < ·)) (some : 0 < cur.numKeys) (outside : ¬ Enclosed keys key)
    : (nextNode mem key cur).outcome = .ok (cur.child (route keys key)) := by
  have count : keys.length = cur.numKeys := by simp [← shown]
  have reached (index : Nat) (inside : index < cur.numKeys)
      : keyAt mem (cur.key index) ≤ key ↔ index < route keys key := by
    have bounds : _ ≤ key ↔ _ := route_le_iff sorted (show index < keys.length by omega)
    simpa [← shown, IndexNode.liveKeys] using bounds
  have within : route keys key ≤ cur.numKeys := by
    rw [← count]
    exact (List.takeWhile_sublist _).length_le
  have last : ((cur.numKeys : Int) - 1).toNat = cur.numKeys - 1 := by omega
  rw [enclosed_node_iff shown sorted some] at outside
  simp only [nextNode, seeKey, seeChild, outcome_bind, outcome_event, ok_bind, Int.toNat_zero,
    strcmp_lt_iff]
  by_cases before : key < keyAt mem (cur.key 0)
  · have none := mt (reached 0 some).mpr (not_le.mpr before)
    rw [if_pos before, outcome_event, show route keys key = 0 by omega]
  · have first := (reached 0 some).mp (not_lt.mp before)
    rw [if_neg before]
    simp only [outcome_bind, outcome_event, ok_bind, last, strcmp_gt_iff]
    by_cases behind : keyAt mem (cur.key (cur.numKeys - 1)) < key
    · have final := (reached (cur.numKeys - 1) (by omega)).mp behind.le
      rw [if_pos behind, outcome_event, Int.toNat_natCast,
        show route keys key = cur.numKeys - 1 + 1 by omega]
    · -- the only key of the node is the wanted one
      have single : cur.numKeys = 1 := by
        by_contra several
        exact outside ⟨by omega, not_lt.mp before, not_lt.mp behind⟩
      rw [if_neg behind, outcome_bind, findInner_outcome, ok_bind, outcome_event,
        show route keys key = 1 by omega, single]
      rfl

/-- The loader's step down stays among the live elements. -/
theorem nextChild_ok (full : cur.numKeys ≤ ORDER - 1) (some : 0 < cur.numKeys)
    : (nextChild mem key cur).All Access.Ok := by
  simp only [nextChild, seeKey, seeChild, all_event_bind, ok_seen_iff full, NodeArray.live]
  refine ⟨by omega, ?_⟩
  split
  · simp only [all_event_bind, all_pure, and_true, ok_seen_iff full, NodeArray.live]
    omega
  · rw [all_event_bind, ok_seen_iff full, NodeArray.live]
    refine ⟨by omega, ?_⟩
    split
    · simp only [all_event_bind, all_pure, and_true, ok_seen_iff full, NodeArray.live]
      omega
    · have rounds : (nextInner mem key cur).All Access.Ok
          ↔ ∀ ii ∈ List.range (cur.numKeys - 1), ii + 1 < cur.numKeys := by
        refine all_foldlM (fun found ii => ?_) (fun found ii => ?_) _ _
        · simp only [seeKey, seeChild, outcome_bind, outcome_event, ok_bind]
          split
          · exact ⟨_, rfl⟩
          · exact ⟨_, rfl⟩
        · simp only [seeKey, seeChild, all_event_bind, ok_seen_iff full, NodeArray.live]
          split
          · simp only [all_event_bind, all_pure, and_true, ok_seen_iff full, NodeArray.live]
            omega
          · simp only [all_pure, and_true]
            omega
      rw [rounds]
      intro ii member
      rw [List.mem_range] at member
      omega

/-- The scan of a leaf stays among the live elements, by induction on its places. -/
theorem findInLeaf_ok (full : cur.numKeys ≤ ORDER - 1) {places : List Nat}
    (inside : ∀ ii ∈ places, ii < cur.numKeys)
    : (findInLeaf mem key cur places).All Access.Ok := by
  induction places with
  | nil => exact all_pure none
  | cons ii rest ih =>
      have here := inside ii (by simp)
      rw [findInLeaf, seeKey, all_event_bind, ok_seen_iff full, NodeArray.live]
      refine ⟨by omega, ?_⟩
      split
      · rw [seeValue, all_event_bind, ok_seen_iff full, NodeArray.live]
        exact ⟨by omega, all_pure _⟩
      · exact ih fun other member => inside other (by simp [member])

end Step

-----------------------------------------------------------------------------------------
-- Whole descents
-----------------------------------------------------------------------------------------

section Descent

variable {base size root top node : Nat} {AtSlot : Int → Prop} {mem : Mem}
  {spans : Nat → Option (Span Bytes)} {low : WithBot Bytes} {high : WithTop Bytes}

/-- The writer's descent stays among the live elements of its nodes unless one of them squeezes
the key, by induction on the height.
-/
theorem findNodeFrom_ok_iff (ok : NodesOk base AtSlot (keyAt mem) mem size spans root)
    (tree : Tree (heapOf (keyAt mem) mem) spans root top) (key : Bytes) {height fuel : Nat}
    (live : spans node = some ⟨height, low, high⟩)
    : (findNodeFrom mem key fuel node).All Access.Ok
      ↔ ¬ Squeezed (heapOf (keyAt mem) mem) key fuel node := by
  induction height generalizing fuel node low high with
  | zero =>
      obtain ⟨entries, body, _⟩ := (tree.nodes node _ live).leaf_body
      obtain ⟨leaf, _⟩ := viewNode_leaf _ body
      refine iff_of_true ?_ (squeezed_leaf body fuel)
      cases fuel with
      | zero => exact all_plain _
      | succ fuel =>
          rw [findNodeFrom, if_pos leaf]
          exact all_pure _
  | succ height ih =>
      cases fuel with
      | zero => exact iff_of_true (all_plain _) id
      | succ fuel =>
          obtain ⟨keys, children, child, low', high', body, sorted, taken, childLive⟩ :=
            tree.routed live key
          obtain ⟨inner, seen, childIs⟩ := ok.inner_node live body
          have full := ok.full node _ live
          have some := ok.nonempty node _ live
          have next := childIs taken
          rw [squeezed_inner body taken, findNodeFrom, if_neg (by rw [inner]; decide)]
          generalize nodeLayout.load mem node = cur at *
          rw [all_bind_iff, nextNode_ok_iff full some, ← enclosed_node_iff seen sorted some, not_or]
          refine and_congr_right fun outside => ?_
          rw [nextNode_route seen sorted some outside, next, ← ih childLive]
          simp

/-- The loader's descent stays among the live elements and ends at a live node, by induction on
the height.
-/
theorem descend_ok (ok : NodesOk base AtSlot (keyAt mem) mem size spans root)
    (tree : Tree (heapOf (keyAt mem) mem) spans root top) (key : Bytes) {height : Nat} (fuel : Nat)
    (live : spans node = some ⟨height, low, high⟩)
    : (descend mem key fuel node).All Access.Ok
      ∧ ∀ leaf, BPLUSIndexLoader.descend mem key fuel node = .ok leaf
        → ∃ span, spans leaf = some span := by
  induction height generalizing fuel node low high with
  | zero =>
      obtain ⟨entries, body, _⟩ := (tree.nodes node _ live).leaf_body
      obtain ⟨leaf, _⟩ := viewNode_leaf _ body
      cases fuel with
      | zero => exact ⟨all_plain _, nofun⟩
      | succ fuel =>
          rw [descend, if_pos leaf, BPLUSIndexLoader.descend]
          simp only [leaf, if_true]
          refine ⟨all_pure _, fun place same => ?_⟩
          obtain rfl := Except.ok.inj same
          exact ⟨_, live⟩
  | succ height ih =>
      cases fuel with
      | zero => exact ⟨all_plain _, nofun⟩
      | succ fuel =>
          obtain ⟨keys, children, child, low', high', body, sorted, taken, childLive⟩ :=
            tree.routed live key
          obtain ⟨inner, seen, childIs⟩ := ok.inner_node live body
          have full := ok.full node _ live
          have some := ok.nonempty node _ live
          have next := childIs taken
          rw [descend, if_neg (by rw [inner]; decide), BPLUSIndexLoader.descend]
          generalize nodeLayout.load mem node = cur at *
          have onward : BPLUSIndexLoader.nextChild mem key cur = Option.some child := by
            rw [BPLUSIndexLoader.nextChild_route seen sorted some, next]
          simp only [inner, Bool.false_eq_true, if_false, onward]
          rw [all_bind_ok (nextChild_outcome _ _ _), onward]
          exact ⟨⟨nextChild_ok full some, (ih fuel childLive).1⟩, (ih fuel childLive).2⟩

/-- The loader's search of a file stays among the live elements. -/
theorem findInTree_ok {index : BPLUSIndex}
    (ok : IndexOk base AtSlot (keyAt index.mem.mem) index spans root top)
    (tree : Tree (heapOf (keyAt index.mem.mem) index.mem.mem) spans root top) (key : Bytes)
    : (findInTree index.image key).All Access.Ok := by
  have start : index.image.header.root = root := ok.pointer
  obtain ⟨within, ends⟩ := descend_ok ok.toNodesOk tree key index.image.size tree.rootSpan
  unfold findInTree
  rw [start, all_bind_iff, descend_outcome]
  refine ⟨within, fun leaf arrived => ?_⟩
  obtain ⟨span, live⟩ := ends leaf arrived
  exact findInLeaf_ok (ok.full leaf span live) fun ii member => List.mem_range.mp member

end Descent

-----------------------------------------------------------------------------------------
-- Insertions
-----------------------------------------------------------------------------------------

section Insert

variable {base root top : Nat} {AtSlot : Int → Prop} {index : BPLUSIndex}
  {spans : Nat → Option (Span Bytes)}

/-- The writer's search for a leaf stays among the live elements unless the key is squeezed. -/
theorem findNodeToStore_ok_iff
    (ok : IndexOk base AtSlot (keyAt index.mem.mem) index spans root top)
    (tree : Tree index.nodes spans root top) (key : Bytes)
    : (findNodeToStore index key).All Access.Ok
      ↔ ¬ Squeezed index.nodes key index.mem.latestIndex root := by
  rw [findNodeToStore, ok.hasRoot, if_neg (by decide), ok.rooted, all_plain_bind]
  exact findNodeFrom_ok_iff ok.toNodesOk tree key tree.rootSpan

/-- Linking a key stays in the arrays if the search for its leaf does. -/
theorem insertKey_ok_iff (shaped : Shaped base index none)
    (ok : IndexOk base AtSlot (keyAt index.mem.mem) index spans root top)
    (tree : Tree index.nodes spans root top) (key : Bytes) (keyOf inodeOf : Int)
    : (insertKey index key keyOf inodeOf).All Access.Ok
      ↔ ¬ Squeezed index.nodes key index.mem.latestIndex root := by
  rw [insertKey, all_bind_iff, findNodeToStore_ok_iff ok tree, and_iff_left]
  intro target found
  obtain ⟨start, rooted, live⟩ := shaped.rooted
  rw [findNodeToStore_outcome, BPLUSIndex.findNodeToStore, shaped.hasRoot, if_neg (by decide),
    rooted, ok_bind] at found
  obtain ⟨there, leaf⟩ := shaped.toArena.findNodeFrom live found
  by_cases full : (index.mem.load nodeLayout target).numKeys = ORDER - 1
  · rw [if_pos full, all_bind_iff]
    exact ⟨splitInsertNode_ok shaped (.leaf (-1) leaf) there full, fun _ _ => all_pure _⟩
  · rw [if_neg full, all_bind_iff]
    have fits := (shaped.bounded target there).full
    exact ⟨insertIntoNode_ok _ _ _ _ (lt_of_le_of_ne fits full), fun _ _ => all_pure _⟩

end Insert

-----------------------------------------------------------------------------------------
-- Whole sequences of calls
-----------------------------------------------------------------------------------------

section Calls

variable {env : Env} {caps : Capacities} {index : BPLUSIndex} {calls done : List AddCall}
  {call : AddCall} {spans : Nat → Option (Span Bytes)} {root top : Nat}

/-- A call on a built tree stays in the arrays unless its id is squeezed. -/
theorem addInode_ok_iff (built : Built env caps index done spans root top)
    (laid : Laid env caps index done) (fits : caps.Respected (done ++ [call]))
    (valid : ValidIds (done ++ [call]))
    : (addInode env index call.inode call.dirtyBlocks call.blockMtime).All Access.Ok
      ↔ ¬ Squeezed index.nodes call.inode.inodeId index.mem.latestIndex root := by
  obtain ⟨ok, same, _, _⟩ := built.recordWritten fits valid
  have tree := built.tree.congr same
  have shaped := laid.recordWritten fits (valid.short call (by simp)).le
  have written := built.regions.writeRecord env call
  have count : (afterRecord env caps index done call).mem.latestIndex = index.mem.latestIndex := rfl
  generalize afterRecord env caps index done call = middle at *
  have linked := insertKey_ok_iff shaped ok tree call.inode.inodeId
    (placeAfter caps done).keyOf (placeAfter caps done).inodeOf
  rw [count] at linked
  simp only [addInode, built.ok.hasRoot, Bool.not_true, Bool.false_eq_true, if_false,
    all_pure_bind, written, all_plain_bind]
  rw [linked, built.tree.squeezed_congr same built.tree.rootSpan]

/-- The first call on an index stays in the arrays. -/
theorem addInode_first_ok (noRoot : index.hasRoot = false)
    : (addInode env index call.inode call.dirtyBlocks call.blockMtime).All Access.Ok := by
  simp only [addInode, noRoot, Bool.not_false, if_true]
  refine all_bind_iff.mpr ⟨all_plain _, fun allocated _ => ?_⟩
  refine all_bind_iff.mpr ⟨all_plain _, fun recorded _ => ?_⟩
  refine all_bind_iff.mpr ⟨all_plain _, fun rootOffset _ => ?_⟩
  simp only [writeKey, writeValue, all_event_bind]
  exact ⟨(ok_plain_iff .keys 0).mpr (by decide), (ok_plain_iff .values 0).mpr (by decide),
    all_pure _⟩

end Calls

end Watched

-----------------------------------------------------------------------------------------
-- Whole sequences of calls
-----------------------------------------------------------------------------------------

/-- After the calls, some node on the way to the leaf that answers for the key has several keys,
and the key lies neither before the first nor behind the last of them.
-/
def SqueezedIn (env : Env) (caps : Capacities) (calls : List AddCall) (key : Bytes) : Prop :=
  ∃ index,
    addAll env caps calls = .ok index
    ∧ Squeezed index.nodes key index.mem.latestIndex index.image.header.root

/-- All calls stay in the arrays and look at live elements only, and so do the searches for a key
afterwards, the writer's and the loader's.
-/
def AccessesOk (env : Env) (caps : Capacities) (calls : List AddCall) (key : Bytes) : Prop :=
  (Watched.addAll env caps calls).All Access.Ok
    ∧ ∀ index, addAll env caps calls = .ok index
      → (Watched.findNodeToStore index key).All Access.Ok
        ∧ (Watched.findInTree index.image key).All Access.Ok

/-- What holds of every element and the elements before it. -/
theorem forall_split_concat {X : Type} {done : List X} {last : X} {P : List X → X → Prop}
    : (∀ before element after, done ++ [last] = before ++ element :: after → P before element)
      ↔ (∀ before element after, done = before ++ element :: after → P before element)
        ∧ P done last := by
  constructor
  · intro all
    refine ⟨fun before element after split => ?_, all done last [] rfl⟩
    exact all before element (after ++ [last]) (by simp [split])
  · rintro ⟨earlier, latest⟩ before element after split
    rcases List.eq_nil_or_concat after with rfl | ⟨rest, other, rfl⟩
    · obtain ⟨rfl, same⟩ := List.append_inj' split rfl
      obtain rfl : last = element := by simpa using same
      exact latest
    · have whole : done ++ [last] = (before ++ element :: rest) ++ [other] := by simp [split]
      exact earlier before element rest (List.append_inj' whole rfl).1

section Calls

variable {env : Env} {caps : Capacities} {index : BPLUSIndex} {calls : List AddCall}
  {spans : Nat → Option (Span Bytes)} {root top : Nat}

/-- What is squeezed in a built tree. -/
theorem Built.squeezedIn_iff (built : Built env caps index calls spans root top)
    (outcome : addAll env caps calls = .ok index) (key : Bytes)
    : SqueezedIn env caps calls key ↔ Squeezed index.nodes key index.mem.latestIndex root := by
  have start : index.image.header.root = root := built.ok.pointer
  constructor
  · rintro ⟨other, same, squeezed⟩
    obtain rfl := Except.ok.inj (outcome.symm.trans same)
    rwa [start] at squeezed
  · intro squeezed
    exact ⟨index, outcome, start ▸ squeezed⟩

/-- An empty index squeezes no key. -/
theorem not_squeezedIn_nil (env : Env) (caps : Capacities) (key : Bytes)
    : ¬ SqueezedIn env caps [] key := by
  rintro ⟨index, outcome, squeezed⟩
  obtain rfl : caps.index = index := Except.ok.inj outcome
  exact squeezed

/-- The calls stay in the arrays unless one of them is for an id that is squeezed at that time, by
induction on the calls.
-/
theorem addAll_ok_iff (fits : caps.Respected calls) (valid : ValidIds calls)
    : (Watched.addAll env caps calls).All Access.Ok
      ↔ ∀ before call after, calls = before ++ call :: after
        → ¬ SqueezedIn env caps before call.inode.inodeId := by
  induction calls using List.reverseRecOn with
  | nil => exact iff_of_true (all_pure _) (by simp)
  | append_singleton done call ih =>
      have outcome := Watched.addAll_outcome env caps done
      rw [forall_split_concat, ← ih fits.left valid.left]
      unfold Watched.addAll at outcome ⊢
      rw [all_foldlM_concat, outcome]
      refine and_congr_right fun _ => ?_
      rcases eq_or_ne done [] with rfl | earlier
      · refine iff_of_true ?_ (not_squeezedIn_nil env caps _)
        intro index fresh
        obtain rfl : caps.index = index := Except.ok.inj fresh
        exact Watched.addInode_first_ok rfl
      · obtain ⟨index, spans, root, top, carried, built⟩ :=
          addAll_built env earlier fits.left valid.left
        have laid := addAll_laid earlier fits.left
          (fun call member => (valid.left.short call member).le) carried
        rw [built.squeezedIn_iff carried, ← Watched.addInode_ok_iff built laid fits valid, carried]
        simp

/-- Searches stay among the live elements unless the writer looks for a squeezed key. -/
theorem searches_ok_iff (fits : caps.Respected calls) (valid : ValidIds calls) (key : Bytes)
    : (∀ index, addAll env caps calls = .ok index
        → (Watched.findNodeToStore index key).All Access.Ok
          ∧ (Watched.findInTree index.image key).All Access.Ok)
      ↔ ¬ SqueezedIn env caps calls key := by
  rcases eq_or_ne calls [] with rfl | made
  · refine iff_of_true ?_ (not_squeezedIn_nil env caps key)
    intro index outcome
    obtain rfl : caps.index = index := Except.ok.inj outcome
    exact ⟨all_plain _, all_plain _⟩
  · obtain ⟨index, spans, root, top, outcome, built⟩ := addAll_built env made fits valid
    rw [built.squeezedIn_iff outcome, ← Watched.findNodeToStore_ok_iff built.ok built.tree key,
      outcome]
    simp [Watched.findInTree_ok built.ok built.tree key]

/-- All accesses are fine unless an insertion or the writer's search is for an id that is squeezed
in the tree of that time. A searched key with a terminator in it stands for its part before that,
which is all that the comparison of C strings looks at.
-/
theorem accessesOk_iff (fits : caps.Respected calls) (valid : ValidIds calls) (key : Bytes)
    : AccessesOk env caps calls key
      ↔ (∀ before call after, calls = before ++ call :: after
          → ¬ SqueezedIn env caps before call.inode.inodeId)
        ∧ ¬ SqueezedIn env caps calls key := by
  rw [AccessesOk, addAll_ok_iff fits valid, searches_ok_iff fits valid]

/-- Two inserted ids, the second looked up. -/
theorem accessesOk_iff_two
    : AccessesOk ⟨fun _ => Vector.replicate 32 0, fun _ => 0⟩ ⟨2, 4, 2, 4⟩
          [oneBlockCall [66] [47, 98] [1, 2] 7, oneBlockCall [65] [47, 97] [3, 4] 7] [65]
        ↔ (∀ before call after,
            [oneBlockCall [66] [47, 98] [1, 2] 7, oneBlockCall [65] [47, 97] [3, 4] 7]
              = before ++ call :: after
            → ¬ SqueezedIn ⟨fun _ => Vector.replicate 32 0, fun _ => 0⟩ ⟨2, 4, 2, 4⟩ before
              call.inode.inodeId)
          ∧ ¬ SqueezedIn ⟨fun _ => Vector.replicate 32 0, fun _ => 0⟩ ⟨2, 4, 2, 4⟩
            [oneBlockCall [66] [47, 98] [1, 2] 7, oneBlockCall [65] [47, 97] [3, 4] 7] [65] :=
  accessesOk_iff ⟨by decide, by decide, by decide, by decide⟩
    ⟨by decide, by decide, by decide⟩ [65]

/-- More calls than two leaves hold leave two of their ids with all keys between them squeezed. -/
theorem exists_squeezed_of_many (env : Env) (fits : caps.Respected calls) (valid : ValidIds calls)
    (many : 2 * (ORDER - 1) < calls.length)
    : ∃ first ∈ calls, ∃ second ∈ calls,
        first.inode.inodeId < second.inode.inodeId
        ∧ ∀ key, first.inode.inodeId ≤ key → key ≤ second.inode.inodeId
          → SqueezedIn env caps calls key := by
  have made : calls ≠ [] := List.ne_nil_of_length_pos (by omega)
  obtain ⟨index, spans, root, top, outcome, built⟩ := addAll_built env made fits valid
  have tall := built.ok.tall
  obtain ⟨node, span, keys, children, low, high, live, body, isLow, isHigh, less, squeezed⟩ :=
    built.tree.exists_squeezed (BPLUSIndex.several_keys built.ok) (BPLUSIndex.few_keys built.ok)
      (built.traverse_length valid.distinct ▸ many) (show top < index.mem.latestIndex by omega)
  obtain ⟨_, stored⟩ := inner_keys built.tree live body
  obtain ⟨first, inFirst, rfl⟩ := (built.stored_iff low).mp (stored low isLow)
  obtain ⟨second, inSecond, rfl⟩ := (built.stored_iff high).mp (stored high isHigh)
  exact ⟨first, inFirst, second, inSecond, less,
    fun key above below => (built.squeezedIn_iff outcome key).mpr (squeezed key above below)⟩

end Calls

/-- Calls for the ids with the given bytes. -/
def oneByteCalls (ids : List Nat) : List AddCall :=
  ids.map (fun n => oneBlockCall [UInt8.ofNat n] [47] [] 7)

/-- Each of them needs an entry, a block and one byte of path. -/
theorem oneByteCalls_respected (ids : List Nat)
    : Capacities.Respected ⟨ids.length, 0, ids.length, ids.length⟩ (oneByteCalls ids) := by
  have bytes (n : Nat) : (oneBlockCall [UInt8.ofNat n] [47] [] 7).blockBytes = 0 := rfl
  have blocks (n : Nat) : (oneBlockCall [UInt8.ofNat n] [47] [] 7).dirtyBlocks.size = 1 := rfl
  have paths (n : Nat) : (oneBlockCall [UInt8.ofNat n] [47] [] 7).inode.path.length = 1 := rfl
  constructor <;>
    simp [oneByteCalls, AddCall.totalBytes, AddCall.totalBlocks, AddCall.totalPaths,
      Function.comp_def, bytes, blocks, paths]

/-- Different bytes other than the terminator are valid ids. -/
theorem oneByteCalls_valid {ids : List Nat} (bytes : ∀ n ∈ ids, 0 < n ∧ n < 256)
    (distinct : ids.Nodup)
    : ValidIds (oneByteCalls ids) := by
  have byte : ∀ n ∈ ids, (UInt8.ofNat n).toNat = n := by
    intro n member
    rw [UInt8.toNat_ofNat', Nat.mod_eq_of_lt (bytes n member).2]
  constructor
  · intro call member
    obtain ⟨n, _, rfl⟩ := List.mem_map.mp member
    exact (by decide : 1 < HASH_SIZE)
  · intro call member zero
    obtain ⟨n, inside, rfl⟩ := List.mem_map.mp member
    have same := congrArg UInt8.toNat (List.mem_singleton.mp zero)
    rw [byte n inside] at same
    exact absurd same (bytes n inside).1.ne
  · have ids_ : (oneByteCalls ids).map (·.inode.inodeId) = ids.map (fun n => [UInt8.ofNat n]) := by
      rw [oneByteCalls, List.map_map]
      rfl
    rw [ids_]
    refine List.Nodup.map_on (fun n left m right same => ?_) distinct
    have toNat := congrArg UInt8.toNat (List.cons.inj same).1
    rwa [byte n left, byte m right] at toNat

/-- The even ids from 2 to 94, inserted in this order, and then an odd one. -/
theorem accesses_overrun
    : ∃ n ∈ List.range 47,
        ¬ AccessesOk ⟨fun _ => Vector.replicate 32 0, fun _ => 0⟩ ⟨48, 0, 48, 48⟩
          (oneByteCalls ((List.range 47).map (2 * · + 2) ++ [2 * n + 3])) [] := by
  have fits (n : Nat) : Capacities.Respected ⟨48, 0, 48, 48⟩
      (oneByteCalls ((List.range 47).map (2 * · + 2) ++ [2 * n + 3])) := by
    have all := oneByteCalls_respected ((List.range 47).map (2 * · + 2) ++ [2 * n + 3])
    rwa [List.length_append, List.length_map, List.length_range, List.length_singleton] at all
  have valid : ∀ n ∈ List.range 47,
      ValidIds (oneByteCalls ((List.range 47).map (2 * · + 2) ++ [2 * n + 3])) := by
    intro n inside
    rw [List.mem_range] at inside
    refine oneByteCalls_valid ?_ ?_
    · intro byte member
      rcases List.mem_append.mp member with even | odd
      · obtain ⟨m, small, rfl⟩ := List.mem_map.mp even
        rw [List.mem_range] at small
        omega
      · obtain rfl := List.mem_singleton.mp odd
        omega
    · rw [List.nodup_append]
      refine ⟨by decide, by simp, ?_⟩
      intro byte even other odd
      obtain ⟨m, _, rfl⟩ := List.mem_map.mp even
      obtain rfl := List.mem_singleton.mp odd
      omega
  have between : ∀ low ∈ List.range 47, ∀ high ∈ List.range 47,
      ([UInt8.ofNat (2 * low + 2)] : Bytes) < [UInt8.ofNat (2 * high + 2)]
      → ([UInt8.ofNat (2 * low + 2)] : Bytes) ≤ [UInt8.ofNat (2 * low + 3)]
        ∧ ([UInt8.ofNat (2 * low + 3)] : Bytes) ≤ [UInt8.ofNat (2 * high + 2)] := by
    decide
  simp only [oneByteCalls, List.map_append] at fits valid ⊢
  obtain ⟨first, inFirst, second, inSecond, less, squeezed⟩ :=
    exists_squeezed_of_many ⟨fun _ => Vector.replicate 32 0, fun _ => 0⟩ (fits 0).left
      (valid 0 (by decide)).left (by decide)
  obtain ⟨_, isLow, rfl⟩ := List.mem_map.mp inFirst
  obtain ⟨low, inLow, rfl⟩ := List.mem_map.mp isLow
  obtain ⟨_, isHigh, rfl⟩ := List.mem_map.mp inSecond
  obtain ⟨high, inHigh, rfl⟩ := List.mem_map.mp isHigh
  obtain ⟨above, below⟩ := between low inLow high inHigh less
  refine ⟨low, inLow, fun within => ?_⟩
  have outside := (addAll_ok_iff (fits low) (valid low inLow)).mp within.1
  exact outside _ _ [] rfl (squeezed _ above below)

end ZippyFS
