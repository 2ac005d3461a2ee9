import ZippyFS.Index.ImageTree

/-! Splitting full nodes in an image: the written halves are what cutting the overfull
search-tree node gives.
-/

namespace ZippyFS

open CellMemory StructLayout ByteOrder SearchTree

section Split

variable {base root top : Nat} {AtSlot : Int → Prop} {strings : Int → Bytes} {index : BPLUSIndex}
  {spans : Nat → Option (Span Bytes)}

/-- The median key of a full node, and the strings on either side of it. -/
theorem IndexOk.median (ok : IndexOk base AtSlot strings index spans root top) {offset : Nat}
    {span : Span Bytes} (live : spans offset = some span)
    (full : (nodeLayout.load index.mem.mem offset).numKeys = ORDER - 1)
    : (nodeLayout.load index.mem.mem offset).key medIdx
        ∈ (nodeLayout.load index.mem.mem offset).liveKeys
      ∧ AtSlot ((nodeLayout.load index.mem.mem offset).key medIdx)
      ∧ ((nodeLayout.load index.mem.mem offset).liveKeys.map strings)[medIdx]?
        = some (strings ((nodeLayout.load index.mem.mem offset).key medIdx)) := by
  have inside : medIdx < (nodeLayout.load index.mem.mem offset).numKeys := by
    rw [full]
    decide
  have member : (nodeLayout.load index.mem.mem offset).key medIdx
      ∈ (nodeLayout.load index.mem.mem offset).liveKeys :=
    List.mem_map.mpr ⟨medIdx, List.mem_range.mpr inside, rfl⟩
  refine ⟨member, ok.slots offset span live _ member, ?_⟩
  simp [IndexNode.liveKeys, inside]

/-- The comparison with the median is the order of the strings. -/
theorem IndexOk.leftofmed (ok : IndexOk base AtSlot strings index spans root top) {k medKeyOf : Int}
    (slot : AtSlot k) (medSlot : AtSlot medKeyOf)
    : decide (strcmp (keyAt (index.mem.mem.clear index.mem.curSize nodeLayout.size) k)
          (keyAt (index.mem.mem.clear index.mem.curSize nodeLayout.size) medKeyOf) = .lt)
      = decide (strings k < strings medKeyOf) := by
  have same := ok.records_allocated
  rw [same.keyAt (ok.within k slot), same.keyAt (ok.within medKeyOf medSlot), ok.known k slot,
    ok.known medKeyOf medSlot]
  simp only [strcmp_lt_iff]

/-- The first live key of a node that shows at least one. -/
theorem strings_key_zero {node : IndexNode} {separator : Bytes} {rest : List Bytes}
    (shown : node.liveKeys.map strings = separator :: rest)
    : strings (node.key 0) = separator ∧ node.key 0 ∈ node.liveKeys := by
  have size := congrArg List.length shown
  simp only [List.length_map, IndexNode.length_liveKeys, List.length_cons] at size
  have first : node.liveKeys[0]? = some (node.key 0) := by
    simp [IndexNode.liveKeys, size]
  have string := congrArg (fun keys => keys[0]?) shown
  simp only [List.getElem?_map, first, Option.map_some, List.getElem?_cons_zero] at string
  exact ⟨Option.some.inj string, List.mem_of_getElem? first⟩

/-- The two halves of a full leaf once the new entry is in one of them: together they hold
the old entries and the new one, in order.
-/
theorem leaf_parts {k v medKeyOf : Int} {middle : Mem} {halves : IndexNode × IndexNode}
    {parent : Option Nat} {entries : List (Bytes × Int)}
    (sorted : (entries.map Prod.fst).Pairwise (· < ·))
    (fresh : strings k ∉ entries.map Prod.fst) (count : entries.length = ORDER - 1)
    (median : (entries.map Prod.fst)[medIdx]? = some (strings medKeyOf))
    (lowerView : viewNode strings halves.1 = ⟨parent, .leaf (entries.take medIdx)⟩)
    (upperView : (viewNode strings halves.2).body = .leaf (entries.drop medIdx))
    (lowerCount : halves.1.numKeys = medIdx)
    (upperCount : halves.2.numKeys = ORDER - 1 - medIdx)
    (lowerSeen : ∀ key ∈ halves.1.liveKeys, keyAt middle key = strings key)
    (upperSeen : ∀ key ∈ halves.2.liveKeys, keyAt middle key = strings key)
    (newSeen : keyAt middle k = strings k) {leftNode rightNode : IndexNode}
    (leftIs
      : leftNode = if decide (strings k < strings medKeyOf) then
          (insertIntoCopy middle halves.1 k v false (-1)).2 else halves.1)
    (rightIs
      : rightNode = if decide (strings k < strings medKeyOf) then halves.2
        else (insertIntoCopy middle halves.2 k v false (-1)).2)
    : ∃ before after lower upper last,
        entries = before ++ after
        ∧ (∀ entry ∈ before, entry.1 < strings k)
        ∧ (∀ entry ∈ after, strings k < entry.1)
        ∧ before ++ (strings k, v) :: after = lower ++ (strings medKeyOf, last) :: upper
        ∧ lower ≠ []
        ∧ viewNode strings leftNode = ⟨parent, .leaf lower⟩
        ∧ (viewNode strings rightNode).body = .leaf ((strings medKeyOf, last) :: upper)
        ∧ (medIdx ≤ leftNode.numKeys ∧ leftNode.numKeys ≤ ORDER - 1)
        ∧ (medIdx ≤ rightNode.numKeys ∧ rightNode.numKeys ≤ ORDER - 1)
        ∧ (∀ key ∈ leftNode.liveKeys, key = k ∨ key ∈ halves.1.liveKeys)
        ∧ ∀ key ∈ rightNode.liveKeys, key = k ∨ key ∈ halves.2.liveKeys := by
  have inside : medIdx < entries.length := by
    rw [count]
    decide
  obtain ⟨last, upper, cut⟩ : ∃ last upper,
      entries.drop medIdx = (strings medKeyOf, last) :: upper := by
    rw [List.getElem?_map, List.getElem?_eq_getElem inside] at median
    refine ⟨entries[medIdx].2, entries.drop (medIdx + 1), ?_⟩
    rw [List.drop_eq_getElem_cons inside, ← Option.some.inj median]
  have sortedLower : ((entries.take medIdx).map Prod.fst).Pairwise (· < ·) := by
    rw [List.map_take]
    exact sorted.sublist (List.take_sublist _ _)
  have sortedUpper : ((entries.drop medIdx).map Prod.fst).Pairwise (· < ·) := by
    rw [List.map_drop]
    exact sorted.sublist (List.drop_sublist _ _)
  have lowerBefore : ∀ entry ∈ entries.take medIdx, entry.1 < strings medKeyOf := by
    intro entry member
    have ordered := sorted
    rw [← List.take_append_drop medIdx entries, cut, List.map_append, List.map_cons,
      List.pairwise_append] at ordered
    exact ordered.2.2 entry.1 (List.mem_map_of_mem member) (strings medKeyOf) (by simp)
  have roomLower : halves.1.numKeys < ORDER - 1 := by
    rw [lowerCount]
    decide
  have roomUpper : halves.2.numKeys < ORDER - 1 := by
    rw [upperCount]
    decide
  by_cases lower : strings k < strings medKeyOf
  · simp only [lower, decide_true, if_true] at leftIs rightIs
    subst leftIs rightIs
    obtain ⟨before, after, parts, smaller, larger, view⟩ :=
      viewNode_insert_leaf v (-1) false lowerSeen newSeen (by rw [lowerView]) sortedLower
        (fun member => fresh (by
          rw [List.map_take] at member
          exact List.mem_of_mem_take member)) roomLower
    have members := IndexNode.insertIntoCopy_members middle halves.1 k v (-1) false roomLower
    refine ⟨before, after ++ (strings medKeyOf, last) :: upper,
      before ++ (strings k, v) :: after, upper, last, ?_, smaller, ?_, by simp, by simp,
      view.trans (by rw [lowerView]), by rw [upperView, cut], ?_, ?_,
      fun key => mem_liveKeys_insertIntoCopy roomLower, fun key => Or.inr⟩
    · rw [← List.append_assoc, ← parts, ← cut, List.take_append_drop]
    · intro entry member
      rcases List.mem_append.mp member with inLower | inUpper
      · exact larger entry inLower
      · rw [cut] at sortedUpper
        rcases List.mem_cons.mp inUpper with same | later
        · exact same ▸ lower
        · exact lower.trans ((List.pairwise_cons.mp sortedUpper).1 entry.1
            (List.mem_map_of_mem later))
    · rw [members.1, lowerCount]
      decide
    · rw [upperCount]
      decide
  · simp only [lower, decide_false, Bool.false_eq_true, if_false] at leftIs rightIs
    subst leftIs rightIs
    obtain ⟨before, after, parts, smaller, larger, view⟩ :=
      viewNode_insert_leaf v (-1) false upperSeen newSeen upperView sortedUpper
        (fun member => fresh (by
          rw [List.map_drop] at member
          exact List.mem_of_mem_drop member)) roomUpper
    have members := IndexNode.insertIntoCopy_members middle halves.2 k v (-1) false roomUpper
    -- The new key is not the median, so the median stays the first key of the right half.
    obtain ⟨rest, rfl⟩ : ∃ rest, before = (strings medKeyOf, last) :: rest := by
      rw [cut] at parts
      cases before with
      | nil =>
          have first := larger (strings medKeyOf, last)
            (by rw [← List.nil_append after, ← parts]; simp)
          exact absurd first lower
      | cons head tail =>
          have same := (List.cons.inj parts).1
          exact ⟨tail, by rw [← same]⟩
    have median' : strings medKeyOf < strings k := smaller _ List.mem_cons_self
    refine ⟨entries.take medIdx ++ (strings medKeyOf, last) :: rest, after,
      entries.take medIdx, rest ++ (strings k, v) :: after, last, ?_, ?_, larger, by simp, ?_,
      lowerView, by rw [view]; rfl, ?_, ?_, fun key => Or.inr,
      fun key => mem_liveKeys_insertIntoCopy roomUpper⟩
    · rw [List.append_assoc, ← parts, List.take_append_drop]
    · intro entry member
      rcases List.mem_append.mp member with inLower | inUpper
      · exact (lowerBefore entry inLower).trans median'
      · exact smaller entry inUpper
    · intro none
      have size := congrArg List.length none
      rw [List.length_take, count] at size
      exact absurd size (by decide)
    · rw [lowerCount]
      decide
    · rw [members.1, upperCount]
      decide

/-- Splitting a full leaf separates two halves that hold the old entries and the new one. -/
theorem IndexOk.splitLeaf (ok : IndexOk base AtSlot strings index spans root top)
    (tree : Tree (heapOf strings index.mem.mem) spans root top) {nodeoffset : Nat}
    {low : WithBot Bytes} {high : WithTop Bytes} {k v : Int} (targ : Int)
    (live : spans nodeoffset = some ⟨0, low, high⟩)
    (full : (nodeLayout.load index.mem.mem nodeoffset).numKeys = ORDER - 1)
    (slot : AtSlot k) (above : low ≤ strings k)
    (below : (strings k : WithTop Bytes) < high) {entries : List (Bytes × Int)}
    (body : (heapOf strings index.mem.mem nodeoffset).body = .leaf entries)
    (fresh : strings k ∉ entries.map Prod.fst)
    : ∃ rightidx right medKeyOf new,
        index.splitHalves nodeoffset k v false targ = .ok (rightidx, right, medKeyOf, new)
        ∧ HalvesOk base AtSlot strings index new spans root top nodeoffset rightidx right medKeyOf
        ∧ strings ((nodeLayout.load new.mem.mem right).key 0) = strings medKeyOf
        ∧ AtSlot ((nodeLayout.load new.mem.mem right).key 0)
        ∧ ∀ entry, Stored (heapOf strings new.mem.mem)
            (narrowed spans nodeoffset right (strings medKeyOf)) entry
          ↔ entry = (strings k, v) ∨ Stored (heapOf strings index.mem.mem) spans entry := by
  have allocated := ok.load_allocated live
  obtain ⟨medMember, medSlot, medShown⟩ := ok.median live full
  obtain ⟨placeRight, rightFresh⟩ := ok.fresh
  have placeLeft := (ok.live nodeoffset _ live).1
  have distinct : index.mem.curSize ≠ nodeoffset := by
    rintro same
    simp [← same, rightFresh] at live
  rw [splitHalves_leaf, allocated, ok.leftofmed slot medSlot]
  refine ⟨_, _, _, _, rfl, ?_⟩
  generalize (nodeLayout.load index.mem.mem nodeoffset).key medIdx = medKeyOf at *
  have records := ok.records_allocated
  have zero := load_allocated_zero index.mem.mem index.mem.curSize
  have others : ∀ other span, spans other = some span
      → nodeLayout.load (index.mem.mem.clear index.mem.curSize nodeLayout.size) other
        = nodeLayout.load index.mem.mem other := fun other span live => ok.load_allocated live
  generalize index.mem.mem.clear index.mem.curSize nodeLayout.size = mem at *
  have sameNode : heapOf strings mem nodeoffset = heapOf strings index.mem.mem nodeoffset := by
    rw [heapOf, allocated]
    rfl
  obtain ⟨lowerView, upperView, lowerKeys, upperKeys, lowerCount, upperCount⟩ :=
    leafHalves_view strings mem nodeoffset index.mem.curSize (by rw [sameNode, body])
      (by rw [allocated, full]) (by rw [zero, nodeLayout_zero_numKeys])
  rw [sameNode] at lowerView
  rw [allocated] at lowerKeys upperKeys
  obtain ⟨middle, middleSame, finalSame, leftLoad, rightLoad, otherLoad⟩ :=
    splitLeafNode_loads ok.room placeLeft placeRight distinct mem k v
      (decide (strings k < strings medKeyOf))
  generalize splitLeafNode mem nodeoffset index.mem.curSize k v
    (decide (strings k < strings medKeyOf)) = final at *
  generalize leafHalves mem nodeoffset index.mem.curSize = halves at *
  obtain ⟨entries', shape, fits⟩ := (tree.nodes nodeoffset _ live).leaf_body
  obtain rfl := Body.leaf.inj (body.symm.trans shape)
  have shown : entries.map Prod.fst
      = (nodeLayout.load index.mem.mem nodeoffset).liveKeys.map strings := by
    have keys := viewNode_keys strings (nodeLayout.load index.mem.mem nodeoffset)
    rw [← keys]
    exact (congrArg Body.keys body).symm
  have slots := ok.slots nodeoffset _ live
  have lowerSlots : ∀ key ∈ halves.1.liveKeys, AtSlot key := by
    intro key member
    rw [lowerKeys] at member
    exact slots key (List.mem_of_mem_take member)
  have upperSlots : ∀ key ∈ halves.2.liveKeys, AtSlot key := by
    intro key member
    rw [upperKeys] at member
    exact slots key (List.mem_of_mem_drop member)
  have seen : ∀ key, AtSlot key → keyAt middle key = strings key := by
    intro key inside
    exact ((records.trans middleSame).keyAt (ok.within key inside)).trans (ok.known key inside)
  obtain ⟨before, after, lower, upper, last, parts, smaller, larger, cut, nonempty, leftView,
    rightView, leftFill, rightFill, leftKeys, rightKeys⟩ :=
    leaf_parts fits.sorted fresh
      (by
        have sizes := congrArg List.length shown
        simpa [full] using sizes)
      (by rw [shown, medShown]) lowerView upperView lowerCount upperCount
      (fun key member => seen key (lowerSlots key member))
      (fun key member => seen key (upperSlots key member)) (seen k slot) leftLoad rightLoad
  have otherFinal : ∀ other span, spans other = some span → other ≠ nodeoffset
      → nodeLayout.load final other = nodeLayout.load index.mem.mem other := by
    intro other span alive away
    have notRight : other ≠ index.mem.curSize := by
      rintro rfl
      simp [rightFresh] at alive
    rw [otherLoad other (ok.live other span alive).1 away notRight, others other span alive]
  have heapOther : ∀ other span, spans other = some span → other ≠ nodeoffset
      → heapOf strings final other = heapOf strings index.mem.mem other := by
    intro other span alive away
    rw [heapOf, otherFinal other span alive away]
    rfl
  have leftWritten : heapOf strings final nodeoffset
      = ⟨(heapOf strings index.mem.mem nodeoffset).parent, .leaf lower⟩ := leftView
  have rightWritten : (heapOf strings final index.mem.curSize).body
      = .leaf ((strings medKeyOf, last) :: upper) := rightView
  have overfull := tree.insertSplitLeaf live rightFresh (body.trans (by rw [parts])) above below
    smaller larger cut nonempty leftWritten rightWritten heapOther
  have leftSlots : ∀ key ∈ (nodeLayout.load final nodeoffset).liveKeys, AtSlot key := by
    intro key member
    rcases leftKeys key member with same | old
    · exact same ▸ slot
    · exact lowerSlots key old
  have rightSlots : ∀ key ∈ (nodeLayout.load final index.mem.curSize).liveKeys,
      AtSlot key := by
    intro key member
    rcases rightKeys key member with same | old
    · exact same ▸ slot
    · exact upperSlots key old
  have rightShown : (nodeLayout.load final index.mem.curSize).liveKeys.map strings
      = strings medKeyOf :: upper.map Prod.fst := by
    have keys := viewNode_keys strings (nodeLayout.load final index.mem.curSize)
    rw [← keys, rightView]
    rfl
  have firstKey := strings_key_zero rightShown
  refine ⟨?_, firstKey.1, rightSlots _ firstKey.2, overfull.2⟩
  exact {
    slot := medSlot
    ok := ok.halves _ live (records.trans finalSame) leftSlots rightSlots leftFill rightFill
      (fun other span alive away => by rw [otherFinal other span alive away])
    split := overfull.1
    leftFill := leftFill.1
    offset := TireFire.getTire_getOffset_new index.mem nodeLayout.size
    older := Nat.lt_succ_self _
    progress := IndexOk.progress (records.trans finalSame)
  }

-----------------------------------------------------------------------------------------
-- Splitting a full inner node
-----------------------------------------------------------------------------------------

/-- The elements up to and including one. -/
theorem take_through {α : Type} (before after : List α) (element : α)
    : (before ++ element :: after).take (before.length + 1) = before ++ [element] := by
  simp [List.take_append]

/-- The elements behind one. -/
theorem drop_through {α : Type} (before after : List α) (element : α)
    : (before ++ element :: after).drop (before.length + 1) = after := by
  simp [List.drop_append]

/-- Inserting before a cut. -/
theorem insert_before_cut {α : Type} (list : List α) (element : α) {place cut : Nat}
    (before : place ≤ cut)
    : list.take place ++ element :: list.drop place
      = ((list.take cut).take place ++ element :: (list.take cut).drop place)
        ++ list.drop cut := by
  have first : (list.take cut).take place = list.take place := by
    rw [List.take_take, min_eq_left before]
  have second : (list.take cut).drop place ++ list.drop cut = list.drop place := by
    have whole := List.take_append_drop (cut - place) (list.drop place)
    rwa [List.drop_drop, Nat.add_sub_cancel' before, ← List.drop_take] at whole
  rw [List.append_assoc, List.cons_append, first, second]

/-- Inserting behind a cut. -/
theorem insert_behind_cut {α : Type} (list : List α) (element : α) {place cut : Nat}
    (behind : cut ≤ place)
    : list.take place ++ element :: list.drop place
      = list.take cut ++ ((list.drop cut).take (place - cut)
        ++ element :: (list.drop cut).drop (place - cut)) := by
  obtain ⟨gap, rfl⟩ := Nat.exists_eq_add_of_le behind
  rw [List.take_add, Nat.add_sub_cancel_left, List.drop_drop, List.append_assoc]

/-- The two halves of a full inner node once the carried-up child is in one of them. -/
theorem inner_parts {k v medKeyOf : Int} {middle : Mem} {halves : IndexNode × IndexNode}
    {parent : Option Nat} {lowKeys highKeys : List Bytes} {before after : List Nat}
    {left right : Nat}
    (sorted : (lowKeys ++ highKeys).Pairwise (· < ·))
    (under : ∀ key ∈ lowKeys, key < strings k) (exceeds : ∀ key ∈ highKeys, strings k < key)
    (count : (lowKeys ++ highKeys).length = ORDER - 1)
    (sizes : before.length = lowKeys.length)
    (arity : (before ++ left :: after).length = ORDER)
    (median : (lowKeys ++ highKeys)[medIdx]? = some (strings medKeyOf))
    (lowerView
      : viewNode strings halves.1
        = ⟨parent, .inner ((lowKeys ++ highKeys).take medIdx)
            ((before ++ left :: after).take (medIdx + 1))⟩)
    (upperView
      : (viewNode strings halves.2).body
        = .inner ((lowKeys ++ highKeys).drop (medIdx + 1))
            ((before ++ left :: after).drop (medIdx + 1)))
    (lowerCount : halves.1.numKeys = medIdx)
    (upperCount : halves.2.numKeys = ORDER - 1 - (medIdx + 1))
    (lowerSeen : ∀ key ∈ halves.1.liveKeys, keyAt middle key = strings key)
    (upperSeen : ∀ key ∈ halves.2.liveKeys, keyAt middle key = strings key)
    (newSeen : keyAt middle k = strings k) {leftNode rightNode : IndexNode}
    (leftIs
      : leftNode = if decide (strings k < strings medKeyOf) then
          (insertIntoCopy middle halves.1 k v false right).2 else halves.1)
    (rightIs
      : rightNode = if decide (strings k < strings medKeyOf) then halves.2
        else (insertIntoCopy middle halves.2 k v false right).2)
    : ∃ lowerKeys upperKeys lowerChildren upperChildren,
        lowKeys ++ strings k :: highKeys = lowerKeys ++ strings medKeyOf :: upperKeys
        ∧ before ++ left :: right :: after = lowerChildren ++ upperChildren
        ∧ lowerChildren.length = lowerKeys.length + 1
        ∧ viewNode strings leftNode = ⟨parent, .inner lowerKeys lowerChildren⟩
        ∧ (viewNode strings rightNode).body = .inner upperKeys upperChildren
        ∧ (medIdx ≤ leftNode.numKeys ∧ leftNode.numKeys ≤ ORDER - 1)
        ∧ (medIdx ≤ rightNode.numKeys ∧ rightNode.numKeys ≤ ORDER - 1)
        ∧ (∀ key ∈ leftNode.liveKeys, key = k ∨ key ∈ halves.1.liveKeys)
        ∧ (∀ key ∈ rightNode.liveKeys, key = k ∨ key ∈ halves.2.liveKeys)
        ∧ (∀ child, child ∈ upperChildren
          ↔ child ∈ (before ++ left :: after).drop (medIdx + 1)
            ∨ child = right ∧ ¬ strings k < strings medKeyOf) := by
  have inside : medIdx < (lowKeys ++ highKeys).length := by
    rw [count]
    decide
  have cut : (lowKeys ++ highKeys).drop medIdx
      = strings medKeyOf :: (lowKeys ++ highKeys).drop (medIdx + 1) := by
    rw [List.getElem?_eq_getElem inside] at median
    rw [List.drop_eq_getElem_cons inside, Option.some.inj median]
  have roomLower : halves.1.numKeys < ORDER - 1 := by
    rw [lowerCount]
    decide
  have roomUpper : halves.2.numKeys < ORDER - 1 := by
    rw [upperCount]
    decide
  have sortedLower := sorted.sublist (List.take_sublist medIdx _)
  have sortedUpper := sorted.sublist (List.drop_sublist (medIdx + 1) _)
  -- The children up to the left node come before the fresh half, the others behind it.
  have firstChildren : (before ++ left :: after).take (lowKeys.length + 1)
      = before ++ [left] := by rw [← sizes, take_through]
  have lastChildren : (before ++ left :: after).drop (lowKeys.length + 1) = after := by
    rw [← sizes, drop_through]
  have lowTake : (lowKeys ++ highKeys).take lowKeys.length = lowKeys := List.take_left
  have highDrop : (lowKeys ++ highKeys).drop lowKeys.length = highKeys := List.drop_left
  have wholeKeys : lowKeys ++ strings k :: highKeys
      = (lowKeys ++ highKeys).take lowKeys.length
        ++ strings k :: (lowKeys ++ highKeys).drop lowKeys.length := by
    rw [lowTake, highDrop]
  have wholeChildren : before ++ left :: right :: after
      = (before ++ left :: after).take (lowKeys.length + 1)
        ++ right :: (before ++ left :: after).drop (lowKeys.length + 1) := by
    rw [firstChildren, lastChildren]
    simp
  by_cases lower : strings k < strings medKeyOf
  · simp only [lower, decide_true, if_true] at leftIs rightIs
    subst leftIs rightIs
    have position : lowKeys.length ≤ medIdx := by
      by_contra far
      have live : medIdx < lowKeys.length := by omega
      rw [List.getElem?_append_left live, List.getElem?_eq_getElem live] at median
      have small := under _ (List.getElem_mem live)
      rw [Option.some.inj median] at small
      exact lt_irrefl _ (small.trans lower)
    have keysTake : (lowKeys ++ highKeys).take medIdx
        = lowKeys ++ highKeys.take (medIdx - lowKeys.length) := by
      rw [List.take_append, List.take_of_length_le position]
    rw [keysTake] at lowerView sortedLower
    have view := viewNode_insert_inner v right lowerSeen newSeen (by rw [lowerView]) sortedLower
      under (fun key member => exceeds key (List.mem_of_mem_take member)) roomLower
    have members := IndexNode.insertIntoCopy_members middle halves.1 k v right false roomLower
    rw [lowerView, Int.toNat_natCast] at view
    refine ⟨_, (lowKeys ++ highKeys).drop (medIdx + 1), _,
      (before ++ left :: after).drop (medIdx + 1), ?_, ?_, ?_, view, upperView, ?_, ?_,
      fun key => mem_liveKeys_insertIntoCopy roomLower, fun key => Or.inr, ?_⟩
    · rw [← cut, wholeKeys, insert_before_cut _ _ position, keysTake, List.take_left,
        List.drop_left]
    · rw [wholeChildren, insert_before_cut _ _ (Nat.succ_le_succ position)]
    · have enough : medIdx + 1 ≤ (before ++ left :: after).length := by
        rw [arity]
        decide
      simp only [List.length_append, List.length_cons, List.length_take, List.length_drop]
      simp only [List.length_append, List.length_cons] at enough count inside
      omega
    · rw [members.1, lowerCount]
      decide
    · rw [upperCount]
      decide
    · intro child
      simp [lower]
  · simp only [lower, decide_false, Bool.false_eq_true, if_false] at leftIs rightIs
    subst leftIs rightIs
    have position : medIdx + 1 ≤ lowKeys.length := by
      by_contra near
      have far : lowKeys.length ≤ medIdx := by omega
      rw [List.getElem?_append_right far] at median
      exact lower (exceeds _ (List.mem_of_getElem? median))
    have keysDrop : (lowKeys ++ highKeys).drop (medIdx + 1)
        = lowKeys.drop (medIdx + 1) ++ highKeys := List.drop_append_of_le_length position
    have upperBody := upperView
    rw [keysDrop] at upperBody sortedUpper
    have view := viewNode_insert_inner v right upperSeen newSeen upperBody sortedUpper
      (fun key member => under key (List.mem_of_mem_drop member)) exceeds roomUpper
    have members := IndexNode.insertIntoCopy_members middle halves.2 k v right false roomUpper
    have place : (lowKeys.drop (medIdx + 1)).length + 1
        = lowKeys.length + 1 - (medIdx + 1) := by
      rw [List.length_drop]
      omega
    rw [Int.toNat_natCast, place] at view
    refine ⟨(lowKeys ++ highKeys).take medIdx, lowKeys.drop (medIdx + 1) ++ strings k :: highKeys,
      (before ++ left :: after).take (medIdx + 1), _, ?_, ?_, ?_, lowerView, by rw [view], ?_, ?_,
      fun key => Or.inr, fun key => mem_liveKeys_insertIntoCopy roomUpper, ?_⟩
    · have lowCut : lowKeys.drop medIdx = strings medKeyOf :: lowKeys.drop (medIdx + 1) := by
        have live : medIdx < lowKeys.length := by omega
        rw [List.getElem?_append_left live, List.getElem?_eq_getElem live] at median
        rw [List.drop_eq_getElem_cons live, Option.some.inj median]
      rw [List.take_append_of_le_length (by omega), ← List.cons_append, ← lowCut,
        ← List.append_assoc, List.take_append_drop]
    · rw [wholeChildren, insert_behind_cut _ _ (Nat.le_succ_of_le position)]
    · have enough : medIdx + 1 ≤ (before ++ left :: after).length := by
        rw [arity]
        decide
      rw [List.length_take, List.length_take, min_eq_left enough, min_eq_left (le_of_lt inside)]
    · rw [lowerCount]
      decide
    · rw [members.1, upperCount]
      decide
    · intro child
      have again := List.take_append_drop (lowKeys.length + 1 - (medIdx + 1))
        ((before ++ left :: after).drop (medIdx + 1))
      simp only [lower, not_false_eq_true, and_true]
      rw [← again, List.mem_append, List.mem_cons, List.mem_append, again]
      tauto

end Split

end ZippyFS
