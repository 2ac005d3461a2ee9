import ZippyFS.Index.ImageSplit

/-! Whole insertions in an image: splits climb by the stored parent offsets until a parent
has room or a new root is grown.
-/

namespace ZippyFS

open CellMemory StructLayout ByteOrder SearchTree

section Insert

variable {base root top : Nat} {AtSlot : Int → Prop} {strings : Int → Bytes} {index : BPLUSIndex}
  {spans : Nat → Option (Span Bytes)}

/-- The parent is no key. -/
theorem liveKeys_withParent (node : IndexNode) (parent : Int)
    : ({ node with parent := parent } : IndexNode).liveKeys = node.liveKeys := rfl

/-- A place that is in no half of a cut node was not live before the cut. -/
theorem not_live_of_narrowed {left right place : Nat} {separator : Bytes}
    (split
      : SearchTree.Split (heapOf strings index.mem.mem) spans root top left right separator)
    (free : narrowed spans left right separator place = none)
    : spans place = none := by
  by_contra alive
  obtain ⟨span, alive⟩ := Option.ne_none_iff_exists'.mp alive
  obtain ⟨small, live, _⟩ := split.narrowed_live alive
  rw [free] at live
  cases live

/-- Both halves of a cut node are live. -/
theorem halves_live {left right : Nat} {separator : Bytes}
    (split
      : SearchTree.Split (heapOf strings index.mem.mem) spans root top left right separator)
    : (∃ span, narrowed spans left right separator left = some span)
      ∧ ∃ span, narrowed spans left right separator right = some span := by
  obtain ⟨span, known, -⟩ := split.cut
  obtain ⟨small, live, -⟩ := split.narrowed_live known
  exact ⟨⟨small, live⟩, _, by rw [narrowed_right, known]; rfl⟩

-----------------------------------------------------------------------------------------
-- A full parent
-----------------------------------------------------------------------------------------

/-- A live node that is neither its parent nor the pending half. -/
structure ChildPlace (base : Nat) (index : BPLUSIndex) (spans : Nat → Option (Span Bytes))
    (parent right child : Nat)
    : Prop where
  place : NodePlace base child
  live : ∃ span, spans child = some span
  notParent : child ≠ parent
  notRight : child ≠ right

/-- The children of the node that lists a cut node are such nodes. -/
theorem IndexOk.childPlace {left right parent child height : Nat} {separator : Bytes}
    {low : WithBot Bytes} {high : WithTop Bytes}
    (ok : IndexOk base AtSlot strings index (narrowed spans left right separator) root top)
    (split
      : SearchTree.Split (heapOf strings index.mem.mem) spans root top left right separator)
    (known : spans parent = some ⟨height + 1, low, high⟩)
    (parentOk : NodeOk (heapOf strings index.mem.mem) spans parent ⟨height + 1, low, high⟩)
    (member : child ∈ (heapOf strings index.mem.mem parent).body.children)
    : ChildPlace base index spans parent right child := by
  obtain ⟨span, live, level, _⟩ := parentOk.child member
  obtain ⟨small, narrow, _⟩ := split.narrowed_live live
  refine ⟨(ok.live child small narrow).1, ⟨span, live⟩, ?_, ?_⟩
  · rintro rfl
    obtain rfl := Option.some.inj (known.symm.trans live)
    simp at level
  · rintro rfl
    simp [split.fresh] at live

/-- What splitting a full parent leaves in the nodes around its halves: the pending node points to
the half that lists it, and the upper children point to the new half.
-/
structure ParentCut (index : BPLUSIndex) (live : Nat → Option (Span Bytes)) (children : List Nat)
    (parent right owner : Nat) (final : Mem)
    : Prop where
  target
    : nodeLayout.load final right
      = { nodeLayout.load index.mem.mem right with parent := (owner : Int) }
  others
    : ∀ other span, live other = some span → other ≠ parent → other ≠ right
      → nodeLayout.load final other
        = if other ∈ children.drop (medIdx + 1) then
            { nodeLayout.load index.mem.mem other with parent := (index.mem.curSize : Int) }
          else nodeLayout.load index.mem.mem other

namespace ParentCut

variable {live : Nat → Option (Span Bytes)} {children : List Nat} {parent right owner other : Nat}
  {final : Mem} {span : Span Bytes}

theorem heapOf_right (cut : ParentCut index live children parent right owner final)
    : heapOf strings final right = ⟨some owner, (heapOf strings index.mem.mem right).body⟩ := by
  rw [heapOf, cut.target, viewNode_withParent strings _ (by omega)]
  rfl

theorem heapOf_upper (cut : ParentCut index live children parent right owner final)
    (known : live other = some span) (notParent : other ≠ parent) (notRight : other ≠ right)
    (upper : other ∈ children.drop (medIdx + 1))
    : heapOf strings final other
      = ⟨some index.mem.curSize, (heapOf strings index.mem.mem other).body⟩ := by
  rw [heapOf, cut.others other span known notParent notRight, if_pos upper,
    viewNode_withParent strings _ (by omega)]
  rfl

theorem heapOf_other (cut : ParentCut index live children parent right owner final)
    (known : live other = some span) (notParent : other ≠ parent) (notRight : other ≠ right)
    (stays : other ∉ children.drop (medIdx + 1))
    : heapOf strings final other = heapOf strings index.mem.mem other := by
  rw [heapOf, cut.others other span known notParent notRight, if_neg stays]
  rfl

/-- Only pointers to parents change outside the halves. -/
theorem liveKeys (cut : ParentCut index live children parent right owner final)
    (known : live other = some span) (notParent : other ≠ parent)
    : (nodeLayout.load final other).liveKeys
      = (nodeLayout.load index.mem.mem other).liveKeys := by
  by_cases isRight : other = right
  · rw [isRight, cut.target, liveKeys_withParent]
  · rw [cut.others other span known notParent isRight]
    split
    · rw [liveKeys_withParent]
    · rfl

end ParentCut

/-- Splitting a full parent separates two halves that list the pending node. -/
theorem IndexOk.splitInner {k : Int} {left right parent targ : Nat}
    (ok : IndexOk base AtSlot strings index (narrowed spans left right (strings k)) root top)
    (split
      : SearchTree.Split (heapOf strings index.mem.mem) spans root top left right (strings k))
    (slot : AtSlot k) (notRoot : left ≠ root)
    (pointer : (heapOf strings index.mem.mem left).parent = some parent)
    (full : (nodeLayout.load index.mem.mem parent).numKeys = ORDER - 1)
    (target : index.mem.getOffset targ = .ok right) (older : targ < index.mem.latestIndex)
    : ∃ rightidx grown medKeyOf new,
        index.splitHalves parent k (-1) true targ = .ok (rightidx, grown, medKeyOf, new)
        ∧ HalvesOk base AtSlot strings index new (narrowed spans left right (strings k)) root top
            parent rightidx grown medKeyOf
        ∧ ∀ entry, Stored (heapOf strings new.mem.mem)
            (narrowed (narrowed spans left right (strings k)) parent grown
              (strings medKeyOf)) entry
          ↔ Stored (heapOf strings index.mem.mem) (narrowed spans left right (strings k))
            entry := by
  obtain ⟨parent', height, low, high, lowKeys, highKeys, before, after, pointer', known, away,
    notRight, body, sizes, under, exceeds, between, chain⟩ := split.parent notRoot
  obtain rfl := Option.some.inj (pointer'.symm.trans pointer)
  have stillParent := (narrowed_other spans (strings k) away notRight).trans known
  have parentOk := split.nodes parent' _ stillParent
  obtain ⟨keys, children, shape, sorted, inside, _, _⟩ := parentOk.inner_body
  obtain ⟨rfl, rfl⟩ : lowKeys ++ highKeys = keys ∧ before ++ left :: after = children :=
    Body.inner.inj (body.symm.trans shape)
  have childAt (child : Nat) (member : child ∈ before ++ left :: after)
      : ChildPlace base index spans parent' right child :=
    ok.childPlace split known parentOk (by rw [body]; exact member)
  obtain ⟨placeGrown, grownFresh⟩ := ok.fresh
  obtain ⟨-, rightSpan, rightLive⟩ := halves_live split
  have placeParent := (ok.live parent' _ stillParent).1
  have placeRight := (ok.live right rightSpan rightLive).1
  have grownParent : index.mem.curSize ≠ parent' := by
    intro same
    simp [← same, grownFresh] at stillParent
  have rightGrown : right ≠ index.mem.curSize := by
    rintro rfl
    simp [grownFresh] at rightLive
  -- From here on the memory after the allocation takes the place of the old one.
  obtain ⟨medMember, medSlot, medShown⟩ := ok.median stillParent full
  have allocated := ok.load_allocated stillParent
  rw [splitHalves_inner index parent' k (-1) target older, allocated,
    ok.leftofmed slot medSlot]
  refine ⟨_, _, _, _, rfl, ?_⟩
  generalize (nodeLayout.load index.mem.mem parent').key medIdx = medKeyOf at *
  have records := ok.records_allocated
  have zero := load_allocated_zero index.mem.mem index.mem.curSize
  have others : ∀ other span, narrowed spans left right (strings k) other = some span
      → nodeLayout.load (index.mem.mem.clear index.mem.curSize nodeLayout.size) other
        = nodeLayout.load index.mem.mem other := fun other span live => ok.load_allocated live
  generalize index.mem.mem.clear index.mem.curSize nodeLayout.size = mem at *
  have sameNode : heapOf strings mem parent' = heapOf strings index.mem.mem parent' := by
    rw [heapOf, allocated]
    rfl
  obtain ⟨lowerView, upperView, lowerLive, upperLive, lowerCount, upperCount⟩ :=
    innerHalves_view strings mem parent' index.mem.curSize (by rw [sameNode, body])
      (by rw [allocated, full]) (by rw [zero, nodeLayout_zero_numKeys])
  rw [sameNode] at lowerView
  rw [allocated] at lowerLive upperLive
  have shownKeys : lowKeys ++ highKeys
      = (nodeLayout.load index.mem.mem parent').liveKeys.map strings :=
    (viewNode_inner strings body).2.1
  have shownChildren : before ++ left :: after
      = (nodeLayout.load index.mem.mem parent').liveChildren :=
    (viewNode_inner strings body).2.2
  obtain ⟨middle, middleSame, finalSame, leftLoad, rightLoad, ⟨owner, targetLoad, ownerIs⟩,
    otherLoad⟩ :=
    splitInnerNode_loads ok.room placeParent placeGrown placeRight grownParent
      (Ne.symm notRight) rightGrown mem k (-1) (decide (strings k < strings medKeyOf))
      (by rw [allocated, full])
      (fun child member => (childAt child (by
        rw [allocated] at member
        rw [shownChildren]
        exact member)).place)
  rw [allocated, ← shownChildren] at otherLoad
  generalize splitInnerNode mem parent' index.mem.curSize k (-1)
    (decide (strings k < strings medKeyOf)) right = final at *
  generalize innerHalvesAt mem parent' index.mem.curSize = halves at *
  have cut : ParentCut index (narrowed spans left right (strings k)) (before ++ left :: after)
      parent' right (if strings k < strings medKeyOf then parent' else index.mem.curSize)
      final := by
    refine ⟨?_, fun other span live notParent notTarget => ?_⟩
    · rw [targetLoad, others right rightSpan rightLive, ownerIs]
      simp only [decide_eq_true_eq]
    · have notGrown : other ≠ index.mem.curSize := by
        rintro rfl
        simp [grownFresh] at live
      rw [otherLoad other (ok.live other span live).1 notParent notGrown notTarget,
        others other span live]
  have slots := ok.slots parent' _ stillParent
  have lowerSlots : ∀ key ∈ halves.1.liveKeys, AtSlot key := by
    intro key member
    rw [lowerLive] at member
    exact slots key (List.mem_of_mem_take member)
  have upperSlots : ∀ key ∈ halves.2.liveKeys, AtSlot key := by
    intro key member
    rw [upperLive] at member
    exact slots key (List.mem_of_mem_drop member)
  have seen : ∀ key, AtSlot key → keyAt middle key = strings key := by
    intro key inside
    exact ((records.trans middleSame).keyAt (ok.within key inside)).trans (ok.known key inside)
  obtain ⟨lowerKeys, upperKeys, lowerChildren, upperChildren, cutKeys, cutChildren, arity,
    leftView, rightView, leftFill, rightFill, leftKeys, rightKeys, upperIff⟩ :=
    inner_parts sorted under exceeds (by rw [shownKeys]; simp [full]) sizes
      (by
        rw [shownChildren]
        simp only [IndexNode.length_liveChildren, full]
        decide)
      (by rw [shownKeys, medShown]) lowerView upperView lowerCount upperCount
      (fun key member => seen key (lowerSlots key member))
      (fun key member => seen key (upperSlots key member)) (seen k slot) leftLoad rightLoad
  have rightKept : right ∉ upperChildren
      → heapOf strings final right = ⟨some parent', (heapOf strings index.mem.mem right).body⟩ := by
    intro stays
    have lower : strings k < strings medKeyOf := by
      by_contra upper
      exact stays ((upperIff right).mpr (Or.inr ⟨rfl, upper⟩))
    rw [cut.heapOf_right, if_pos lower]
  have moved : ∀ child ∈ upperChildren, heapOf strings final child
      = ⟨some index.mem.curSize, (heapOf strings index.mem.mem child).body⟩ := by
    intro child member
    rcases (upperIff child).mp member with old | ⟨rfl, upper⟩
    · have site := childAt child (List.mem_of_mem_drop old)
      obtain ⟨span, live⟩ := site.live
      obtain ⟨small, narrow, _⟩ := split.narrowed_live live
      exact cut.heapOf_upper narrow site.notParent site.notRight old
    · rw [cut.heapOf_right, if_neg upper]
  have same : ∀ other span, spans other = some span → other ≠ parent' → other ∉ upperChildren
      → heapOf strings final other = heapOf strings index.mem.mem other := by
    intro other span live notParent stays
    obtain ⟨small, narrow, _⟩ := split.narrowed_live live
    refine cut.heapOf_other narrow notParent ?_
      fun member => stays ((upperIff other).mpr (Or.inl member))
    rintro rfl
    simp [split.fresh] at live
  have parentWritten : heapOf strings final parent'
      = ⟨(heapOf strings index.mem.mem parent').parent, .inner lowerKeys lowerChildren⟩ :=
    leftView
  have grownWritten : (heapOf strings final index.mem.curSize).body
      = .inner upperKeys upperChildren := rightView
  have overfull := split.overflow known away notRight (not_live_of_narrowed split grownFresh)
    (Ne.symm rightGrown) body under exceeds between chain cutKeys cutChildren arity parentWritten
    grownWritten rightKept moved same
  have leftSlots : ∀ key ∈ (nodeLayout.load final parent').liveKeys, AtSlot key := by
    intro key member
    rcases leftKeys key member with same | old
    · exact same ▸ slot
    · exact lowerSlots key old
  have rightSlots : ∀ key ∈ (nodeLayout.load final index.mem.curSize).liveKeys,
      AtSlot key := by
    intro key member
    rcases rightKeys key member with same | old
    · exact same ▸ slot
    · exact upperSlots key old
  refine ⟨?_, overfull.2⟩
  exact {
    slot := medSlot
    ok := ok.halves _ stillParent (records.trans finalSame) leftSlots rightSlots leftFill
      rightFill fun other span live notParent => cut.liveKeys live notParent
    split := overfull.1
    leftFill := leftFill.1
    offset := TireFire.getTire_getOffset_new index.mem nodeLayout.size
    older := Nat.lt_succ_self _
    progress := IndexOk.progress (records.trans finalSame)
  }

-----------------------------------------------------------------------------------------
-- Listing the right half
-----------------------------------------------------------------------------------------

/-- An index whose image is a search tree again, with the given entries. -/
structure Finished (base : Nat) (AtSlot : Int → Prop) (strings : Int → Bytes) (old new : BPLUSIndex)
    (content : Bytes × Int → Prop)
    : Prop where
  progress : Progress base old new
  tree
    : ∃ spans root top,
        IndexOk base AtSlot strings new spans root top
        ∧ Tree (heapOf strings new.mem.mem) spans root top
        ∧ ∀ entry, Stored (heapOf strings new.mem.mem) spans entry ↔ content entry

/-- A new root above the two halves of the old one. -/
def newRootNode (nkey : Int) (left right : Nat) : IndexNode :=
  ((({ nodeLayout.zero with parent := -1, numKeys := 1, isLeaf := false } : IndexNode).setKey 0
    nkey).setChild 0 left).setChild 1 right

theorem newRootNode_liveKeys (nkey : Int) (left right : Nat)
    : (newRootNode nkey left right).liveKeys = [nkey] := by
  have first : (newRootNode nkey left right).key 0 = nkey := by
    simp only [newRootNode, IndexNode.setChild_key]
    rw [IndexNode.key_setKey _ _ _ _ (by decide), if_pos rfl]
  have count : (newRootNode nkey left right).numKeys = 1 := rfl
  simp [IndexNode.liveKeys, count, first]

theorem newRootNode_liveChildren (nkey : Int) (left right : Nat)
    : (newRootNode nkey left right).liveChildren = [left, right] := by
  have first : (newRootNode nkey left right).child 0 = left := by
    simp only [newRootNode]
    rw [IndexNode.child_setChild _ _ _ _ (by decide), if_neg (by decide),
      IndexNode.child_setChild _ _ _ _ (by decide), if_pos rfl]
  have second : (newRootNode nkey left right).child 1 = right := by
    simp only [newRootNode]
    rw [IndexNode.child_setChild _ _ _ _ (by decide), if_pos rfl]
  have count : (newRootNode nkey left right).numKeys = 1 := rfl
  simp [IndexNode.liveChildren, count, List.range_succ, first, second]

theorem viewNode_newRootNode (nkey : Int) (left right : Nat)
    : viewNode strings (newRootNode nkey left right)
      = ⟨none, .inner [strings nkey] [left, right]⟩ := by
  have kind : (newRootNode nkey left right).isLeaf = false := rfl
  have orphan : (newRootNode nkey left right).parent = -1 := rfl
  simp [viewNode, kind, orphan, newRootNode_liveKeys, newRootNode_liveChildren]

/-- The image after a new root was grown at its end. -/
def grownImage (mem : Mem) (grown left right : Nat) (nkey : Int) : Mem :=
  let bytes := nodeLayout.store mem grown (newRootNode nkey left right)
  let bytes := setParent (setParent bytes right grown) left grown
  headerLayout.store bytes 0 { headerLayout.load bytes 0 with root := grown }

theorem growRoot_eq (index : BPLUSIndex) (left right : Nat) (nkey : Int)
    (header : index.mem.getOffset index.headerIdx = .ok 0)
    (old : index.headerIdx < index.mem.latestIndex)
    : index.growRoot left right nkey
      = .ok (index.mem.latestIndex, { withNode index (grownImage
          (index.mem.mem.clear index.mem.curSize nodeLayout.size) index.mem.curSize left right
          nkey) with rootIdx := index.mem.latestIndex }) := by
  have offset := TireFire.getTire_getOffset_new index.mem nodeLayout.size
  have kept := ((TireFire.Extends.getTire index.mem nodeLayout.size).kept _ old).trans header
  have zero := load_allocated_zero index.mem.mem index.mem.curSize
  simp only [BPLUSIndex.growRoot, TireFire.getTire_index, offset, kept, bind, Except.bind,
    TireFire.load, TireFire.getTire_mem, zero]
  rfl

/-- A store to the header changes no node. -/
theorem load_storeHeader {place : Nat} (node : NodePlace base place) (room : 608 ≤ base)
    (mem : Mem) (header : Header)
    : nodeLayout.load (headerLayout.store mem 0 header) place = nodeLayout.load mem place := by
  apply Layout.load_congr
  intro address low _
  apply Layout.store_outside
  simp only [headerLayout_size]
  rcases node with rfl | ⟨number, rfl⟩ <;> omega

/-- What a grown root leaves in memory. -/
theorem grownImage_spec (room : 608 ≤ base) {grown left right : Nat}
    (placeGrown : NodePlace base grown) (placeLeft : NodePlace base left)
    (placeRight : NodePlace base right) (distinct : left ≠ right) (leftGrown : left ≠ grown)
    (rightGrown : right ≠ grown) (mem : Mem) (nkey : Int)
    : (∀ address, 608 ≤ address → address < base
        → (grownImage mem grown left right nkey).cell address = mem.cell address)
      ∧ headerLayout.load (grownImage mem grown left right nkey) 0
        = { headerLayout.load mem 0 with root := grown }
      ∧ ∀ other, NodePlace base other
        → nodeLayout.load (grownImage mem grown left right nkey) other
          = if other = left then { nodeLayout.load mem other with parent := (grown : Int) }
            else if other = right then { nodeLayout.load mem other with parent := (grown : Int) }
            else if other = grown then newRootNode nkey left right
            else nodeLayout.load mem other := by
  have bytesSame : SameRecords base mem (setParent (setParent (nodeLayout.store mem grown
      (newRootNode nkey left right)) right grown) left grown) :=
    ((SameRecords.store room placeGrown _ _).trans
      (SameRecords.store room placeRight _ _)).trans
      (SameRecords.store room placeLeft _ _)
  refine ⟨?_, ?_, ?_⟩
  · intro address low high
    rw [← bytesSame address (Or.inr ⟨low, high⟩)]
    apply Layout.store_outside
    simp only [headerLayout_size]
    omega
  · rw [grownImage, Layout.load_store_same, bytesSame.header]
  · intro other place
    rw [grownImage, load_storeHeader place room]
    by_cases isLeft : other = left
    · subst isLeft
      rw [load_setParent_same, load_setParent_other room placeRight place distinct,
        load_store_other room placeGrown place leftGrown, if_pos rfl]
    · rw [load_setParent_other room placeLeft place isLeft, if_neg isLeft]
      by_cases isRight : other = right
      · subst isRight
        rw [load_setParent_same, load_store_other room placeGrown place rightGrown,
          if_pos rfl]
      · rw [load_setParent_other room placeRight place isRight, if_neg isRight]
        by_cases isGrown : other = grown
        · subst isGrown
          rw [Layout.load_store_same, if_pos rfl]
        · rw [load_store_other room placeGrown place isGrown, if_neg isGrown]

-----------------------------------------------------------------------------------------
-- A new root
-----------------------------------------------------------------------------------------

/-- What a new root above two live nodes leaves in memory. -/
structure RootGrown (base : Nat) (index : BPLUSIndex) (spans : Nat → Option (Span Bytes))
    (left right : Nat) (nkey : Int) (final : Mem)
    : Prop where
  place : NodePlace base index.mem.curSize
  free : spans index.mem.curSize = none
  records
    : ∀ address, 608 ≤ address → address < base
      → final.cell address = index.mem.mem.cell address
  header
    : headerLayout.load final 0
      = { headerLayout.load index.mem.mem 0 with root := index.mem.curSize }
  grown : nodeLayout.load final index.mem.curSize = newRootNode nkey left right
  nodes
    : ∀ other span, spans other = some span
      → nodeLayout.load final other
        = if other = left ∨ other = right then
            { nodeLayout.load index.mem.mem other with parent := (index.mem.curSize : Int) }
          else nodeLayout.load index.mem.mem other

theorem IndexOk.rootGrown {left right : Nat} (ok : IndexOk base AtSlot strings index spans root top)
    (leftLive : ∃ span, spans left = some span) (rightLive : ∃ span, spans right = some span)
    (distinct : left ≠ right) (nkey : Int)
    : RootGrown base index spans left right nkey
        (grownImage (index.mem.mem.clear index.mem.curSize nodeLayout.size) index.mem.curSize left
          right nkey) := by
  obtain ⟨placeGrown, free⟩ := ok.fresh
  have elsewhere {other : Nat} (live : ∃ span, spans other = some span)
      : NodePlace base other ∧ other ≠ index.mem.curSize := by
    obtain ⟨span, live⟩ := live
    refine ⟨(ok.live other span live).1, ?_⟩
    rintro rfl
    rw [free] at live
    cases live
  obtain ⟨placeLeft, leftGrown⟩ := elsewhere leftLive
  obtain ⟨placeRight, rightGrown⟩ := elsewhere rightLive
  have records := ok.records_allocated
  obtain ⟨cells, header, loads⟩ := grownImage_spec ok.room placeGrown placeLeft placeRight distinct
    leftGrown rightGrown (index.mem.mem.clear index.mem.curSize nodeLayout.size) nkey
  refine ⟨placeGrown, free, ?_, ?_, ?_, ?_⟩
  · intro address low high
    rw [cells address low high, records address (Or.inr ⟨low, high⟩)]
  · rw [header, records.header]
  · rw [loads _ placeGrown, if_neg (Ne.symm leftGrown), if_neg (Ne.symm rightGrown), if_pos rfl]
  · intro other span live
    obtain ⟨place, notGrown⟩ := elsewhere ⟨span, live⟩
    rw [loads other place, ok.load_allocated live, if_neg notGrown]
    by_cases isLeft : other = left
    · rw [if_pos isLeft, if_pos (Or.inl isLeft)]
    · by_cases isRight : other = right
      · rw [if_neg isLeft, if_pos isRight, if_pos (Or.inr isRight)]
      · rw [if_neg isLeft, if_neg isRight, if_neg (not_or.mpr ⟨isLeft, isRight⟩)]

namespace RootGrown

variable {left right other : Nat} {nkey : Int} {final : Mem} {span : Span Bytes}

/-- The new root is its node. -/
theorem heapOf_grown (grown : RootGrown base index spans left right nkey final)
    : heapOf strings final index.mem.curSize = ⟨none, .inner [strings nkey] [left, right]⟩ := by
  rw [heapOf, grown.grown, viewNode_newRootNode]

/-- The two nodes below it point to it. -/
theorem heapOf_half (grown : RootGrown base index spans left right nkey final)
    (live : spans other = some span) (half : other = left ∨ other = right)
    : heapOf strings final other
      = ⟨some index.mem.curSize, (heapOf strings index.mem.mem other).body⟩ := by
  rw [heapOf, grown.nodes other span live, if_pos half,
    viewNode_withParent strings _ (by omega)]
  rfl

/-- Other nodes stay. -/
theorem heapOf_other (grown : RootGrown base index spans left right nkey final)
    (live : spans other = some span) (neither : ¬ (other = left ∨ other = right))
    : heapOf strings final other = heapOf strings index.mem.mem other := by
  rw [heapOf, grown.nodes other span live, if_neg neither]
  rfl

/-- No node has other keys or children than before. -/
theorem body (grown : RootGrown base index spans left right nkey final)
    (live : spans other = some span)
    : (heapOf strings final other).body = (heapOf strings index.mem.mem other).body := by
  by_cases half : other = left ∨ other = right
  · rw [grown.heapOf_half live half]
  · rw [grown.heapOf_other live half]

theorem keys (grown : RootGrown base index spans left right nkey final)
    (live : spans other = some span)
    : (nodeLayout.load final other).liveKeys = (nodeLayout.load index.mem.mem other).liveKeys
      ∧ (nodeLayout.load final other).numKeys
        = (nodeLayout.load index.mem.mem other).numKeys := by
  rw [grown.nodes other span live]
  generalize nodeLayout.load index.mem.mem other = node
  split
  · exact ⟨rfl, rfl⟩
  · exact ⟨rfl, rfl⟩

/-- The live nodes are the new root and the nodes that were live before. -/
theorem live_iff (new : Span Bytes) (place : Nat)
    : (∃ span, Function.update spans index.mem.curSize (some new) place = some span)
      ↔ place = index.mem.curSize ∨ ∃ span, spans place = some span := by
  by_cases isGrown : place = index.mem.curSize
  · subst isGrown
    simp
  · simp [isGrown]

/-- What holds of the new root and of all nodes before holds of all live nodes. -/
theorem forall_live {new : Span Bytes} {P : Nat → Prop} (here : P index.mem.curSize)
    (before : ∀ other span, spans other = some span → P other)
    : ∀ other span, Function.update spans index.mem.curSize (some new) other = some span
      → P other := by
  intro other span known
  rcases (live_iff new other).mp ⟨span, known⟩ with isGrown | ⟨old, live⟩
  · exact isGrown ▸ here
  · exact before other old live

/-- A key lies in the records, which stay. -/
theorem keyAt (grown : RootGrown base index spans left right nkey final)
    (ok : IndexOk base AtSlot strings index spans root top) {key : Int} (inside : AtSlot key)
    : ZippyFS.keyAt final key = strings key := by
  refine Eq.trans ?_ (ok.known key inside)
  obtain ⟨low, high⟩ := ok.within key inside
  apply Mem.cString_congr
  apply Mem.read_congr
  intro address first last
  exact grown.records address (by omega) (by omega)

/-- The index with the new root is intact. -/
theorem indexOk (grown : RootGrown base index spans root right nkey final)
    (ok : IndexOk base AtSlot strings index spans root top) (slot : AtSlot nkey)
    (leftFill : medIdx ≤ (nodeLayout.load index.mem.mem root).numKeys)
    : IndexOk base AtSlot strings
        { withNode index final with rootIdx := index.mem.latestIndex }
        (Function.update spans index.mem.curSize (some ⟨top + 1, ⊥, ⊤⟩)) index.mem.curSize
        (top + 1) where
  room := ok.room
  frontier := by
    obtain ⟨count, frontier⟩ := ok.frontier
    refine ⟨count + 1, ?_⟩
    simp only [withNode, TireFire.withMem, TireFire.getTire_curSize, nodeLayout_size]
    omega
  live := by
    simp only [withNode, TireFire.withMem, TireFire.getTire_curSize, nodeLayout_size]
    refine forall_live ⟨grown.place, le_refl _⟩ fun other span live => ?_
    have inside := ok.live other span live
    exact ⟨inside.1, by omega⟩
  within := ok.within
  known := fun key inside => grown.keyAt ok inside
  slots := by
    simp only [withNode_mem]
    refine forall_live ?_ fun other span live => ?_
    · rw [grown.grown, newRootNode_liveKeys]
      intro key member
      exact List.mem_singleton.mp member ▸ slot
    · rw [(grown.keys live).1]
      exact ok.slots other span live
  full := by
    simp only [withNode_mem]
    refine forall_live ?_ fun other span live => ?_
    · rw [grown.grown]
      exact (by decide : 1 ≤ ORDER - 1)
    · rw [(grown.keys live).2]
      exact ok.full other span live
  filled := by
    simp only [withNode_mem]
    refine forall_live (fun notGrown => absurd rfl notGrown) fun other span live _ => ?_
    rw [(grown.keys live).2]
    by_cases isRoot : other = root
    · exact isRoot ▸ leftFill
    · exact ok.filled other span live isRoot
  nonempty := by
    simp only [withNode_mem]
    refine forall_live ?_ fun other span live => ?_
    · rw [grown.grown]
      exact Nat.one_pos
    · rw [(grown.keys live).2]
      exact ok.nonempty other span live
  hasRoot := ok.hasRoot
  header := ((TireFire.Extends.getTire index.mem nodeLayout.size).kept _ ok.headerOld).trans
    ok.header
  rooted := TireFire.getTire_getOffset_new index.mem nodeLayout.size
  headerOld := Nat.lt_succ_of_lt ok.headerOld
  rootOld := Nat.lt_succ_self _
  pointer := by simp only [withNode_mem, grown.header]
  tall := by
    have tall := ok.tall
    simp only [withNode_latestIndex]
    omega
  sized := by
    have sized := ok.sized
    simp only [withNode, TireFire.withMem, TireFire.getTire_curSize,
      TireFire.getTire_latestIndex, nodeLayout_size]
    omega

/-- Growing a root leaves the records and the rest of the header alone. -/
theorem progress (grown : RootGrown base index spans left right nkey final)
    : Progress base index { withNode index final with rootIdx := index.mem.latestIndex } where
  cursors := rfl
  regions := ⟨(TireFire.Extends.getTire index.mem nodeLayout.size).grows,
    (TireFire.Extends.getTire index.mem nodeLayout.size).kept⟩
  records := grown.records
  header := by
    change headerLayout.load final 0
      = { headerLayout.load index.mem.mem 0 with root := (headerLayout.load final 0).root }
    rw [grown.header]

/-- The new root moves no entry. -/
theorem stored (grown : RootGrown base index spans left right nkey final) (new : Span Bytes)
    (entry : Bytes × Int)
    : Stored (heapOf strings final) (Function.update spans index.mem.curSize (some new)) entry
      ↔ Stored (heapOf strings index.mem.mem) spans entry := by
  refine stored_listed (live_iff new) (by rw [grown.heapOf_grown])
    (fun _ alive => absurd grown.free alive) ?_ entry
  exact fun place span live _ => grown.body live

end RootGrown

/-- Growing a new root above a cut one restores the tree. -/
theorem IndexOk.growRoot {right : Nat} {separator : Bytes} {nkey : Int}
    (ok : IndexOk base AtSlot strings index (narrowed spans root right separator) root top)
    (split
      : SearchTree.Split (heapOf strings index.mem.mem) spans root top root right separator)
    (leftFill : medIdx ≤ (nodeLayout.load index.mem.mem root).numKeys)
    (slot : AtSlot nkey) (same : strings nkey = separator)
    : ∃ result, index.growRoot root right nkey = .ok result
        ∧ Finished base AtSlot strings index result.2
            (Stored (heapOf strings index.mem.mem) (narrowed spans root right separator)) := by
  subst same
  obtain ⟨⟨rootSpan, rootLive⟩, rightSpan, rightLive⟩ := halves_live split
  have grown := ok.rootGrown ⟨rootSpan, rootLive⟩ ⟨rightSpan, rightLive⟩ split.distinct nkey
  rw [growRoot_eq index root right nkey ok.header ok.headerOld]
  refine ⟨_, rfl, ?_⟩
  generalize grownImage (index.mem.mem.clear index.mem.curSize nodeLayout.size) index.mem.curSize
    root right nkey = final at *
  have rightGrown : index.mem.curSize ≠ right := by
    intro isRight
    have free := grown.free
    rw [isRight, rightLive] at free
    cases free
  have kept : ∀ other span, spans other = some span → other ≠ root
      → heapOf strings final other = heapOf strings index.mem.mem other := by
    intro other span live notRoot
    obtain ⟨small, narrow, _⟩ := split.narrowed_live live
    refine grown.heapOf_other narrow (not_or.mpr ⟨notRoot, ?_⟩)
    rintro rfl
    simp [split.fresh] at live
  have tree := split.newRoot (not_live_of_narrowed split grown.free) rightGrown grown.heapOf_grown
    (grown.heapOf_half rootLive (Or.inl rfl)) (grown.heapOf_half rightLive (Or.inr rfl)) kept
  exact ⟨grown.progress, _, _, _, grown.indexOk ok slot leftFill, tree, grown.stored _⟩

/-- The index with other file contents. -/
def withBytes (index : BPLUSIndex) (mem : Mem) : BPLUSIndex :=
  { index with mem := index.mem.withMem mem }

@[simp] theorem withBytes_mem (index : BPLUSIndex) (mem : Mem)
    : (withBytes index mem).mem.mem = mem := rfl

/-- Rewriting nodes in place keeps the index intact if they stay filled and point to keys. -/
theorem IndexOk.rewrite (ok : IndexOk base AtSlot strings index spans root top) {mem : Mem}
    (same : SameRecords base index.mem.mem mem)
    (slots
      : ∀ other span, spans other = some span → ∀ key ∈ (nodeLayout.load mem other).liveKeys,
          AtSlot key)
    (counts
      : ∀ other span, spans other = some span
        → (nodeLayout.load index.mem.mem other).numKeys ≤ (nodeLayout.load mem other).numKeys
          ∧ (nodeLayout.load mem other).numKeys ≤ ORDER - 1)
    : IndexOk base AtSlot strings (withBytes index mem) spans root top where
  room := ok.room
  frontier := ok.frontier
  live := ok.live
  within := ok.within
  known := fun key slot => (same.keyAt (ok.within key slot)).trans (ok.known key slot)
  slots := slots
  full := fun other span live => (counts other span live).2
  filled := fun other span live notRoot =>
    (ok.filled other span live notRoot).trans (counts other span live).1
  nonempty := fun other span live =>
    (ok.nonempty other span live).trans_le (counts other span live).1
  hasRoot := ok.hasRoot
  header := ok.header
  rooted := ok.rooted
  headerOld := ok.headerOld
  rootOld := ok.rootOld
  pointer := by rw [withBytes_mem, same.header, ok.pointer]
  tall := ok.tall
  sized := ok.sized

/-- Listing the right half in a parent with room restores the tree. -/
theorem IndexOk.insertParent {left right parent : Nat} {separator : Bytes} {nkey v paroff : Int}
    (ok : IndexOk base AtSlot strings index (narrowed spans left right separator) root top)
    (split
      : SearchTree.Split (heapOf strings index.mem.mem) spans root top left right separator)
    (notRoot : left ≠ root)
    (pointer : (heapOf strings index.mem.mem left).parent = some parent)
    (offset : paroff.toNat = parent) (notNone : paroff ≠ -1)
    (room : (nodeLayout.load index.mem.mem parent).numKeys ≠ ORDER - 1)
    (slot : AtSlot nkey) (same : strings nkey = separator)
    : Finished base AtSlot strings index
        (withBytes index
          (setParent (insertIntoNode index.mem.mem parent nkey v false right).2 right paroff))
        (Stored (heapOf strings index.mem.mem) (narrowed spans left right separator)) := by
  obtain ⟨parent', height, low, high, lowKeys, highKeys, before, after, pointer', known, away,
    notRight, body, sizes, under, exceeds, between, chain⟩ := split.parent notRoot
  obtain rfl := Option.some.inj (pointer'.symm.trans pointer)
  subst same
  have stillParent := (narrowed_other spans (strings nkey) away notRight).trans known
  obtain ⟨keys, children, shape, sorted, _⟩ := (split.nodes parent' _ stillParent).inner_body
  obtain ⟨rfl, rfl⟩ : lowKeys ++ highKeys = keys ∧ before ++ left :: after = children :=
    Body.inner.inj (body.symm.trans shape)
  obtain ⟨rightSpan, rightLive⟩ : ∃ span, narrowed spans left right (strings nkey) right
      = some span := by
    obtain ⟨span, leftKnown, _⟩ := split.cut
    exact ⟨_, by rw [narrowed_right, leftKnown]; rfl⟩
  have placeParent := (ok.live parent' _ stillParent).1
  have placeRight := (ok.live right _ rightLive).1
  have space : (nodeLayout.load index.mem.mem parent').numKeys < ORDER - 1 :=
    lt_of_le_of_ne (ok.full parent' _ stillParent) room
  have view := viewNode_insert_inner v right
    (ok.keyAt stillParent (SameRecords.refl base index.mem.mem)) (ok.known nkey slot) body sorted
    under exceeds space
  have members := IndexNode.insertIntoCopy_members index.mem.mem
    (nodeLayout.load index.mem.mem parent') nkey v right false space
  have insertedKeys : ∀ key ∈ (insertIntoCopy index.mem.mem
      (nodeLayout.load index.mem.mem parent') nkey v false right).2.liveKeys,
      key = nkey ∨ key ∈ (nodeLayout.load index.mem.mem parent').liveKeys :=
    fun key => mem_liveKeys_insertIntoCopy space
  simp only [insertIntoNode]
  generalize (insertIntoCopy index.mem.mem (nodeLayout.load index.mem.mem parent') nkey v false
    right).2 = inserted at *
  have records : SameRecords base index.mem.mem (setParent (nodeLayout.store index.mem.mem
      parent' inserted) right paroff) :=
    (SameRecords.store ok.room placeParent _ _).trans
      (SameRecords.store ok.room placeRight _ _)
  have loads : ∀ other, NodePlace base other
      → nodeLayout.load (setParent (nodeLayout.store index.mem.mem parent' inserted) right
          paroff) other
        = if other = parent' then inserted
          else if other = right then
            { nodeLayout.load index.mem.mem other with parent := paroff }
          else nodeLayout.load index.mem.mem other := by
    intro other place
    by_cases isParent : other = parent'
    · subst isParent
      rw [load_setParent_other ok.room placeRight place notRight, Layout.load_store_same,
        if_pos rfl]
    · rw [if_neg isParent]
      by_cases isRight : other = right
      · subst isRight
        rw [load_setParent_same, load_store_other ok.room placeParent place isParent,
          if_pos rfl]
      · rw [load_setParent_other ok.room placeRight place isRight,
          load_store_other ok.room placeParent place isParent, if_neg isRight]
  generalize setParent (nodeLayout.store index.mem.mem parent' inserted) right paroff = final
    at *
  have parentWritten : heapOf strings final parent'
      = ⟨(heapOf strings index.mem.mem parent').parent,
          .inner (lowKeys ++ strings nkey :: highKeys) (before ++ left :: right :: after)⟩ := by
    rw [heapOf, loads parent' placeParent, if_pos rfl, view, Int.toNat_natCast, ← sizes,
      take_through, drop_through, List.append_assoc]
    rfl
  have rightWritten : heapOf strings final right
      = ⟨some parent', (heapOf strings index.mem.mem right).body⟩ := by
    rw [heapOf, loads right placeRight, if_neg (Ne.symm notRight), if_pos rfl,
      viewNode_withParent strings _ notNone, offset]
    rfl
  have keptHeap : ∀ other span, spans other = some span → other ≠ parent'
      → heapOf strings final other = heapOf strings index.mem.mem other := by
    intro other span live notParent
    obtain ⟨small, narrow, _⟩ := split.narrowed_live live
    have notTarget : other ≠ right := by
      rintro rfl
      simp [split.fresh] at live
    rw [heapOf, loads other (ok.live other small narrow).1, if_neg notParent, if_neg notTarget]
    rfl
  have tree := split.settle known away notRight body under exceeds between chain parentWritten
    rightWritten keptHeap
  refine ⟨Progress.ofRecords ⟨le_refl _, fun _ _ => rfl⟩ records, _, _, _,
    ok.rewrite records ?_ ?_, tree, ?_⟩
  · intro other span live key member
    rw [loads other (ok.live other span live).1] at member
    by_cases isParent : other = parent'
    · subst isParent
      rw [if_pos rfl] at member
      rcases insertedKeys key member with same | old
      · exact same ▸ slot
      · exact ok.slots other span live key old
    · rw [if_neg isParent] at member
      by_cases isRight : other = right
      · rw [if_pos isRight, liveKeys_withParent] at member
        exact ok.slots other span live key member
      · rw [if_neg isRight] at member
        exact ok.slots other span live key member
  · intro other span live
    rw [loads other (ok.live other span live).1]
    by_cases isParent : other = parent'
    · subst isParent
      rw [if_pos rfl, members.1]
      exact ⟨Nat.le_succ _, space⟩
    · rw [if_neg isParent]
      have full := ok.full other span live
      generalize nodeLayout.load index.mem.mem other = node at *
      split_ifs <;> exact ⟨le_refl _, full⟩
  · intro entry
    apply stored_congr
    intro place entries
    by_cases isParent : place = parent'
    · subst isParent
      simp [parentWritten, body]
    · refine and_congr_right ?_
      rintro ⟨span, live⟩
      rcases split.live_of_narrowed live with ⟨wide, liveWide, _⟩ | isRight
      · simp only [withBytes_mem, keptHeap place wide liveWide isParent]
      · simp only [isRight, withBytes_mem, rightWritten]

/-- Listing the right half, given that a parent without room can be split. -/
theorem IndexOk.listRight {left right rightidx : Nat} {medKeyOf v : Int} {isparent : Bool}
    {split' : BPLUSIndex → Nat → Int → Int → Except Fault (Int × BPLUSIndex)}
    (ok : IndexOk base AtSlot strings index (narrowed spans left right (strings medKeyOf)) root top)
    (split
      : SearchTree.Split (heapOf strings index.mem.mem) spans root top left right
          (strings medKeyOf))
    (leftFill : medIdx ≤ (nodeLayout.load index.mem.mem left).numKeys)
    (medSlot : AtSlot medKeyOf)
    (first
      : isparent = false
        → strings ((nodeLayout.load index.mem.mem right).key 0) = strings medKeyOf
          ∧ AtSlot ((nodeLayout.load index.mem.mem right).key 0))
    (recursion
      : ∀ parent, (heapOf strings index.mem.mem left).parent = some parent
        → (nodeLayout.load index.mem.mem parent).numKeys = ORDER - 1
        → ∃ result, split' index parent medKeyOf rightidx = .ok result
          ∧ Finished base AtSlot strings index result.2
              (Stored (heapOf strings index.mem.mem)
                (narrowed spans left right (strings medKeyOf))))
    : ∃ result,
        index.listRight split' left rightidx right medKeyOf v isparent = .ok result
        ∧ Finished base AtSlot strings index result.2
            (Stored (heapOf strings index.mem.mem)
              (narrowed spans left right (strings medKeyOf))) := by
  obtain ⟨nkey, nkeyIs, slot, same⟩ : ∃ nkey,
      (if isparent then medKeyOf else (index.mem.load nodeLayout right).key 0) = nkey
      ∧ AtSlot nkey ∧ strings nkey = strings medKeyOf := by
    cases isparent with
    | true => exact ⟨medKeyOf, rfl, medSlot, rfl⟩
    | false => exact ⟨_, rfl, (first rfl).2, (first rfl).1⟩
  have shape : ∀ result, index.listRight split' left rightidx right medKeyOf v isparent = result
      ↔ (if (nodeLayout.load index.mem.mem left).parent = -1 then index.growRoot left right nkey
        else if (nodeLayout.load index.mem.mem
            (nodeLayout.load index.mem.mem left).parent.toNat).numKeys = ORDER - 1 then
          (split' index (nodeLayout.load index.mem.mem left).parent.toNat medKeyOf rightidx).bind
            (fun result => .ok (-1, result.2))
        else .ok (-1, withBytes index
          (setParent (insertIntoNode index.mem.mem
            (nodeLayout.load index.mem.mem left).parent.toNat nkey v false right).2 right
            (nodeLayout.load index.mem.mem left).parent))) = result := by
    intro result
    rw [← nkeyIs]
    rfl
  simp only [shape]
  by_cases isRoot : left = root
  · subst isRoot
    have orphan := viewNode_orphan strings _ split.rootParent
    rw [if_pos orphan]
    exact ok.growRoot split leftFill slot same
  · obtain ⟨parent, _, _, _, _, _, _, _, pointer, _⟩ := split.parent isRoot
    obtain ⟨notNone, offset⟩ := viewNode_parent strings _ parent pointer
    rw [if_neg notNone, offset]
    by_cases full : (nodeLayout.load index.mem.mem parent).numKeys = ORDER - 1
    · obtain ⟨result, done, finished⟩ := recursion parent pointer full
      rw [if_pos full, done]
      exact ⟨(-1, result.2), rfl, finished⟩
    · rw [if_neg full]
      exact ⟨_, rfl, ok.insertParent split isRoot pointer offset notNone full slot same⟩

/-- Splitting full parents upwards ends with a search tree, by induction on the fuel: each
level climbs one step and the tree is no higher than its root.
-/
theorem IndexOk.splitParents (fuel : Nat) {k : Int} {left right parent targ : Nat}
    {span : Span Bytes}
    (ok : IndexOk base AtSlot strings index (narrowed spans left right (strings k)) root top)
    (split
      : SearchTree.Split (heapOf strings index.mem.mem) spans root top left right (strings k))
    (slot : AtSlot k)
    (pointer : (heapOf strings index.mem.mem left).parent = some parent)
    (full : (nodeLayout.load index.mem.mem parent).numKeys = ORDER - 1)
    (target : index.mem.getOffset targ = .ok right) (older : targ < index.mem.latestIndex)
    (live : spans parent = some span) (enough : top < span.height + fuel)
    : ∃ result, BPLUSIndex.splitInsertNode fuel index parent k (-1) true targ = .ok result
        ∧ Finished base AtSlot strings index result.2
            (Stored (heapOf strings index.mem.mem)
              (narrowed spans left right (strings k))) := by
  have notRoot : left ≠ root := by
    rintro rfl
    simp [split.rootParent] at pointer
  induction fuel generalizing index spans k left right parent targ span with
  | zero =>
      by_cases isRoot : parent = root
      · subst isRoot
        obtain rfl := Option.some.inj (split.rootSpan.symm.trans live)
        simp at enough
      · have under := split.below parent span live isRoot
        omega
  | succ fuel ih =>
      obtain ⟨rightidx, grown, medKeyOf, new, outcome, halves, stored⟩ :=
        ok.splitInner split slot notRoot pointer full target older
      obtain ⟨parent', height, low, high, _, _, _, _, pointer', known, away, notRight, body, _⟩ :=
        split.parent notRoot
      obtain rfl := Option.some.inj (pointer'.symm.trans pointer)
      obtain rfl := Option.some.inj (known.symm.trans live)
      have stillParent := (narrowed_other spans (strings k) away notRight).trans known
      have recursion : ∀ upper, (heapOf strings new.mem.mem parent').parent = some upper
          → (nodeLayout.load new.mem.mem upper).numKeys = ORDER - 1
          → ∃ result,
            BPLUSIndex.splitInsertNode fuel new upper medKeyOf (-1) true rightidx = .ok result
            ∧ Finished base AtSlot strings new result.2 (Stored (heapOf strings new.mem.mem)
              (narrowed (narrowed spans left right (strings k)) parent' grown
                (strings medKeyOf))) := by
          intro upper upperPointer upperFull
          have notTop : parent' ≠ root := by
            rintro rfl
            simp [halves.split.rootParent] at upperPointer
          obtain ⟨upper', upperHeight, _, _, _, _, _, _, upperPointer', upperKnown, _⟩ :=
            halves.split.parent notTop
          obtain rfl := Option.some.inj (upperPointer'.symm.trans upperPointer)
          obtain ⟨owner, ownerSpan, ownerPointer, ownerLive, level, _⟩ :=
            halves.split.listed parent' _ stillParent notTop
          obtain rfl := Option.some.inj (ownerPointer.symm.trans upperPointer)
          obtain ⟨small, narrow, sameHeight⟩ := halves.split.narrowed_live upperKnown
          obtain rfl := Option.some.inj (narrow.symm.trans ownerLive)
          refine ih halves.ok halves.split halves.slot upperPointer upperFull halves.offset
            halves.older upperKnown ?_ notTop
          simp only at *
          omega
      have listed : ∃ result, new.listRight
            (fun index paroff key targ =>
              BPLUSIndex.splitInsertNode fuel index paroff key (-1) true targ)
            parent' rightidx grown medKeyOf (-1) true = .ok result
          ∧ Finished base AtSlot strings new result.2 _ :=
        halves.ok.listRight halves.split halves.leftFill halves.slot (by simp) recursion
      obtain ⟨result, done, finished⟩ := listed
      refine ⟨result, ?_, ?_⟩
      · have notSmall : ¬ (index.mem.load nodeLayout parent').numKeys ≠ ORDER - 1 :=
          not_not.mpr full
        rw [BPLUSIndex.splitInsertNode, if_neg notSmall]
        simp only [outcome, bind, Except.bind]
        exact done
      · refine ⟨halves.progress.trans finished.progress, ?_⟩
        obtain ⟨spans', root', top', ok', tree', stored'⟩ := finished.tree
        exact ⟨spans', root', top', ok', tree', fun entry =>
          (stored' entry).trans (stored entry)⟩

end Insert

end ZippyFS
