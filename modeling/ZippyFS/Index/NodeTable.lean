import ZippyFS.Index.NodeOps
import ZippyFS.Lib.TreeTraversal

/-! Nodes in the image: where they lie, what a store to one of them leaves alone, and the
search-tree node that each of them represents.
-/

namespace ZippyFS

open CellMemory StructLayout ByteOrder

/-- Where nodes lie: the first one behind the header, all others from `base` on. -/
def NodePlace (base offset : Nat) : Prop :=
  offset = 24 ∨ ∃ number, offset = base + 584 * number

/-- Where key strings lie: between the first node and `base`. -/
def KeySlot (base : Nat) (offset : Int) : Prop :=
  608 ≤ offset ∧ offset + HASH_SIZE ≤ base

/-- The header and the records between the first node and `base` are the same in both
memories.
-/
def SameRecords (base : Nat) (old new : Mem) : Prop :=
  ∀ address, address < 24 ∨ 608 ≤ address ∧ address < base
    → new.cell address = old.cell address

theorem SameRecords.refl (base : Nat) (mem : Mem) : SameRecords base mem mem :=
  fun _ _ => rfl

theorem SameRecords.trans {base : Nat} {first second third : Mem}
    (left : SameRecords base first second) (right : SameRecords base second third)
    : SameRecords base first third :=
  fun address kept => (right address kept).trans (left address kept)

/-- Key strings are records. -/
theorem SameRecords.keyAt {base : Nat} {old new : Mem} (same : SameRecords base old new)
    {offset : Int} (slot : KeySlot base offset)
    : keyAt new offset = keyAt old offset := by
  obtain ⟨low, high⟩ := slot
  apply Mem.cString_congr
  apply Mem.read_congr
  intro address first last
  exact same address (by omega)

/-- The header is kept. -/
theorem SameRecords.header {base : Nat} {old new : Mem} (same : SameRecords base old new)
    : headerLayout.load new 0 = headerLayout.load old 0 := by
  apply Layout.load_congr
  intro address _ last
  simp only [headerLayout_size] at last
  exact same address (by omega)

section Places

variable {base left right : Nat}

/-- Different nodes do not overlap. -/
theorem NodePlace.apart (room : 608 ≤ base) (first : NodePlace base left)
    (second : NodePlace base right) (distinct : left ≠ right)
    : left + 584 ≤ right ∨ right + 584 ≤ left := by
  rcases first with rfl | ⟨first, rfl⟩ <;> rcases second with rfl | ⟨second, rfl⟩ <;> omega

/-- A store to one node leaves every other node alone. -/
theorem load_store_other (room : 608 ≤ base) (first : NodePlace base left)
    (second : NodePlace base right) (distinct : right ≠ left) (mem : Mem) (node : IndexNode)
    : nodeLayout.load (nodeLayout.store mem left node) right = nodeLayout.load mem right := by
  apply Layout.load_congr
  intro address low high
  apply Layout.store_outside
  have apart := second.apart room first distinct
  simp only [nodeLayout_size] at *
  omega

/-- A store to a node leaves the records alone. -/
theorem SameRecords.store (room : 608 ≤ base) (place : NodePlace base left) (mem : Mem)
    (node : IndexNode)
    : SameRecords base mem (nodeLayout.store mem left node) := by
  intro address kept
  apply Layout.store_outside
  simp only [nodeLayout_size]
  rcases place with rfl | ⟨number, rfl⟩ <;> omega

@[simp] theorem load_setParent_same (mem : Mem) (offset : Nat) (parent : Int)
    : nodeLayout.load (setParent mem offset parent) offset
      = { nodeLayout.load mem offset with parent := parent } := by
  simp [setParent]

theorem load_setParent_other (room : 608 ≤ base) (first : NodePlace base left)
    (second : NodePlace base right) (distinct : right ≠ left) (mem : Mem) (parent : Int)
    : nodeLayout.load (setParent mem left parent) right = nodeLayout.load mem right :=
  load_store_other room first second distinct mem _

/-- Every listed node gets the new parent, all others keep theirs; by induction on the list. -/
theorem load_setParents (room : 608 ≤ base) (place : NodePlace base right) (parent : Int)
    (children : List Nat) (places : ∀ child ∈ children, NodePlace base child) (mem : Mem)
    : nodeLayout.load
          (children.foldl (fun bytes child => setParent bytes child parent) mem) right
      = if right ∈ children then { nodeLayout.load mem right with parent := parent }
        else nodeLayout.load mem right := by
  induction children generalizing mem with
  | nil => simp
  | cons child rest ih =>
      rw [List.foldl_cons, ih (fun next member => places next (by simp [member]))]
      by_cases here : right = child
      · subst here
        simp
      · rw [load_setParent_other room (places child (by simp)) place here]
        simp [here]

/-- Changing parents leaves the records alone, by induction on the list. -/
theorem SameRecords.setParents (room : 608 ≤ base) (parent : Int) (children : List Nat)
    (places : ∀ child ∈ children, NodePlace base child) (mem : Mem)
    : SameRecords base mem
        (children.foldl (fun bytes child => setParent bytes child parent) mem) := by
  induction children generalizing mem with
  | nil => exact SameRecords.refl base mem
  | cons child rest ih =>
      exact (SameRecords.store room (places child (by simp)) mem _).trans
        (ih (fun next member => places next (by simp [member])) _)

end Places

-----------------------------------------------------------------------------------------
-- The search-tree node behind an index node
-----------------------------------------------------------------------------------------

/-- The search-tree node that an index node represents, when its keys point to `strings`. -/
def viewNode (strings : Int → Bytes) (node : IndexNode) : SearchTree.Node Nat Bytes Int where
  parent := if node.parent = -1 then none else some node.parent.toNat
  body :=
    if node.isLeaf then .leaf ((node.liveKeys.map strings).zip node.liveValues)
    else .inner (node.liveKeys.map strings) node.liveChildren

/-- The linked nodes of an image. -/
def heapOf (strings : Int → Bytes) (mem : Mem) (offset : Nat)
    : SearchTree.Node Nat Bytes Int :=
  viewNode strings (nodeLayout.load mem offset)

section View

variable (strings : Int → Bytes)

/-- The keys shown are the strings of the live keys. -/
theorem viewNode_keys (node : IndexNode)
    : (viewNode strings node).body.keys = node.liveKeys.map strings := by
  unfold viewNode
  cases node.isLeaf with
  | true => simp [SearchTree.Body.keys, List.map_fst_zip]
  | false => simp [SearchTree.Body.keys]

@[simp] theorem viewNode_keys_length (node : IndexNode)
    : (viewNode strings node).body.keys.length = node.numKeys := by
  simp [viewNode_keys]

/-- Only the parent differs after a parent was set. -/
theorem viewNode_withParent (node : IndexNode) {parent : Int} (notNone : parent ≠ -1)
    : viewNode strings { node with parent := parent }
      = ⟨some parent.toNat, (viewNode strings node).body⟩ := by
  simp only [viewNode, notNone, if_false]
  rfl

theorem viewNode_parent (node : IndexNode) (parent : Nat)
    (known : (viewNode strings node).parent = some parent)
    : node.parent ≠ -1 ∧ node.parent.toNat = parent := by
  unfold viewNode at known
  split at known
  · simp at known
  · exact ⟨by assumption, Option.some.inj known⟩

theorem viewNode_orphan (node : IndexNode)
    (known : (viewNode strings node).parent = none)
    : node.parent = -1 := by
  unfold viewNode at known
  split at known
  · assumption
  · simp at known

/-- A node with a leaf's view is a leaf. -/
theorem viewNode_leaf {node : IndexNode} {entries : List (Bytes × Int)}
    (body : (viewNode strings node).body = .leaf entries)
    : node.isLeaf = true ∧ entries = (node.liveKeys.map strings).zip node.liveValues := by
  unfold viewNode at body
  cases kind : node.isLeaf with
  | true =>
      simp only [kind, if_true, SearchTree.Body.leaf.injEq] at body
      exact ⟨rfl, body.symm⟩
  | false => simp [kind] at body

/-- A node with an inner node's view is an inner node. -/
theorem viewNode_inner {node : IndexNode} {keys : List Bytes} {children : List Nat}
    (body : (viewNode strings node).body = .inner keys children)
    : node.isLeaf = false ∧ keys = node.liveKeys.map strings
      ∧ children = node.liveChildren := by
  unfold viewNode at body
  cases kind : node.isLeaf with
  | true => simp [kind] at body
  | false =>
      simp only [kind, Bool.false_eq_true, if_false, SearchTree.Body.inner.injEq] at body
      exact ⟨rfl, body.1.symm, body.2.symm⟩

end View

-----------------------------------------------------------------------------------------
-- Inserting into a sorted node
-----------------------------------------------------------------------------------------

section Insert

variable {strings : Int → Bytes} {mem : Mem} {node : IndexNode} {k : Int}

/-- A new key goes behind exactly the smaller keys of a sorted node. -/
theorem positionOf_splits (known : ∀ key ∈ node.liveKeys, keyAt mem key = strings key)
    (knownNew : keyAt mem k = strings k)
    (sorted : (node.liveKeys.map strings).Pairwise (· < ·))
    (fresh : strings k ∉ node.liveKeys.map strings)
    : (∀ key ∈ (node.liveKeys.map strings).take (IndexNode.positionOf mem node k),
        key < strings k)
      ∧ ∀ key ∈ (node.liveKeys.map strings).drop (IndexNode.positionOf mem node k),
        strings k < key := by
  have shown : ∀ index < node.numKeys,
      (node.liveKeys.map strings)[index]? = some (strings (node.key index)) := by
    intro index inside
    simp [IndexNode.liveKeys, inside]
  have below : ∀ index < node.numKeys,
      (decide (strcmp (keyAt mem k) (keyAt mem (node.key index)) = .lt) = true
        ↔ strings k < strings (node.key index)) := by
    intro index inside
    have member : node.key index ∈ node.liveKeys :=
      List.mem_map.mpr ⟨index, List.mem_range.mpr inside, rfl⟩
    rw [decide_eq_true_iff, strcmp_lt_iff, known _ member, knownNew]
  have under : ∀ index < node.numKeys, ¬ strings k < strings (node.key index)
      → strings (node.key index) < strings k := by
    intro index inside notAbove
    refine lt_of_le_of_ne (not_lt.mp notAbove) ?_
    intro same
    exact fresh (same ▸ List.mem_of_getElem? (shown index inside))
  constructor
  · intro key member
    obtain ⟨index, found⟩ := List.mem_iff_getElem?.mp member
    rw [List.getElem?_take] at found
    split at found
    next before =>
      have inside := before.trans_le (IndexNode.positionOf_le mem node k)
      rw [shown index inside] at found
      obtain rfl := Option.some.inj found
      apply under index inside
      intro above
      unfold IndexNode.positionOf at before
      cases outcome : insertPosition mem node k with
      | none =>
          have none' := List.find?_range_eq_none.mp outcome index inside
          simp only [(below index inside).mpr above, Bool.not_true] at none'
          exact Bool.false_ne_true none'
      | some position =>
          rw [outcome, Option.getD_some] at before
          have none' := (List.find?_range_eq_some.mp outcome).2.2 index before
          simp only [(below index inside).mpr above, Bool.not_true] at none'
          exact Bool.false_ne_true none'
    next => simp at found
  · intro key member
    cases outcome : insertPosition mem node k with
    | none =>
        simp only [IndexNode.positionOf, outcome, Option.getD_none] at member
        rw [List.drop_eq_nil_of_le (by simp)] at member
        simp at member
    | some position =>
        simp only [IndexNode.positionOf, outcome, Option.getD_some] at member
        obtain ⟨holds, live, _⟩ := List.find?_range_eq_some.mp outcome
        have inside := List.mem_range.mp live
        have first := (below position inside).mp holds
        obtain ⟨gap, found⟩ := List.mem_iff_getElem?.mp member
        rw [List.getElem?_drop] at found
        cases gap with
        | zero =>
            rw [Nat.add_zero, shown position inside] at found
            exact Option.some.inj found ▸ first
        | succ gap =>
            have later := List.pairwise_iff_getElem.mp sorted position (position + (gap + 1))
            obtain ⟨bound, value⟩ := List.getElem?_eq_some_iff.mp found
            obtain ⟨start, least⟩ := List.getElem?_eq_some_iff.mp (shown position inside)
            have more := later start bound (by omega)
            rw [least, value] at more
            exact first.trans more

/-- Inserting a pair into a leaf with room. -/
theorem viewNode_insert_leaf (v child : Int) (isleft : Bool)
    (known : ∀ key ∈ node.liveKeys, keyAt mem key = strings key)
    (knownNew : keyAt mem k = strings k) {entries : List (Bytes × Int)}
    (body : (viewNode strings node).body = .leaf entries)
    (sorted : (entries.map Prod.fst).Pairwise (· < ·))
    (fresh : strings k ∉ entries.map Prod.fst) (room : node.numKeys < ORDER - 1)
    : ∃ before after,
        entries = before ++ after
        ∧ (∀ entry ∈ before, entry.1 < strings k)
        ∧ (∀ entry ∈ after, strings k < entry.1)
        ∧ viewNode strings (insertIntoCopy mem node k v isleft child).2
          = ⟨(viewNode strings node).parent, .leaf (before ++ (strings k, v) :: after)⟩ := by
  obtain ⟨leaf, rfl⟩ := viewNode_leaf strings body
  have lengths : (node.liveKeys.map strings).length = node.liveValues.length := by simp
  rw [List.map_fst_zip (le_of_eq lengths)] at sorted fresh
  obtain ⟨smaller, larger⟩ := positionOf_splits known knownNew sorted fresh
  obtain ⟨_, kind, parent⟩ :=
    IndexNode.insertIntoCopy_members mem node k v child isleft room
  refine ⟨((node.liveKeys.map strings).take (IndexNode.positionOf mem node k)).zip
      (node.liveValues.take (IndexNode.positionOf mem node k)),
    ((node.liveKeys.map strings).drop (IndexNode.positionOf mem node k)).zip
      (node.liveValues.drop (IndexNode.positionOf mem node k)), ?_, ?_, ?_, ?_⟩
  · rw [← List.zip_append (by simp), List.take_append_drop, List.take_append_drop]
  · intro entry member
    exact smaller entry.1 (List.of_mem_zip member).1
  · intro entry member
    exact larger entry.1 (List.of_mem_zip member).1
  · unfold viewNode
    rw [kind, parent, leaf, IndexNode.insertIntoCopy_liveKeys _ _ _ _ _ _ room,
      IndexNode.insertIntoCopy_liveValues _ _ _ _ _ _ room leaf]
    simp only [if_true, List.map_append, List.map_cons, List.map_take, List.map_drop]
    rw [List.zip_append (by simp), List.zip_cons_cons]

/-- Inserting a separator and the child behind it into an inner node with room. -/
theorem viewNode_insert_inner (v child : Int)
    (known : ∀ key ∈ node.liveKeys, keyAt mem key = strings key)
    (knownNew : keyAt mem k = strings k) {lowKeys highKeys : List Bytes} {children : List Nat}
    (body : (viewNode strings node).body = .inner (lowKeys ++ highKeys) children)
    (sorted : (lowKeys ++ highKeys).Pairwise (· < ·))
    (under : ∀ key ∈ lowKeys, key < strings k) (exceeds : ∀ key ∈ highKeys, strings k < key)
    (room : node.numKeys < ORDER - 1)
    : viewNode strings (insertIntoCopy mem node k v false child).2
      = ⟨(viewNode strings node).parent,
          .inner (lowKeys ++ strings k :: highKeys)
            (children.take (lowKeys.length + 1)
              ++ child.toNat :: children.drop (lowKeys.length + 1))⟩ := by
  obtain ⟨inner, keys, rfl⟩ := viewNode_inner strings body
  have fresh : strings k ∉ node.liveKeys.map strings := by
    rw [← keys]
    intro member
    rcases List.mem_append.mp member with lower | upper
    · exact lt_irrefl _ (under _ lower)
    · exact lt_irrefl _ (exceeds _ upper)
  obtain ⟨smaller, larger⟩ := positionOf_splits known knownNew (keys ▸ sorted) fresh
  have inside := IndexNode.positionOf_le mem node k
  have size : (lowKeys ++ highKeys).length = node.numKeys := by rw [keys]; simp
  rw [List.length_append] at size
  -- The position lies behind exactly the smaller keys.
  have here : IndexNode.positionOf mem node k = lowKeys.length := by
    rw [← keys] at smaller larger
    rcases Nat.lt_trichotomy (IndexNode.positionOf mem node k) lowKeys.length with
      before | same | after
    · have member : lowKeys[IndexNode.positionOf mem node k] ∈
          (lowKeys ++ highKeys).drop (IndexNode.positionOf mem node k) := by
        rw [List.drop_append_of_le_length (le_of_lt before)]
        apply List.mem_append_left
        rw [List.drop_eq_getElem_cons before]
        exact List.mem_cons_self
      exact absurd (larger _ member) (not_lt_of_gt (under _ (List.getElem_mem before)))
    · exact same
    · have live : 0 < highKeys.length := by omega
      have member : highKeys[0] ∈
          (lowKeys ++ highKeys).take (IndexNode.positionOf mem node k) := by
        apply List.mem_of_getElem? (i := lowKeys.length)
        rw [List.getElem?_take, if_pos after, List.getElem?_append_right (le_refl _)]
        simp
      exact absurd (smaller _ member) (not_lt_of_gt (exceeds _ (List.getElem_mem live)))
  obtain ⟨_, kind, parent⟩ :=
    IndexNode.insertIntoCopy_members mem node k v child false room
  unfold viewNode
  rw [kind, parent, inner, IndexNode.insertIntoCopy_liveKeys _ _ _ _ _ _ room,
    IndexNode.insertIntoCopy_liveChildren _ _ _ _ _ room inner, here]
  simp only [Bool.false_eq_true, if_false, List.map_append, List.map_cons, List.map_take,
    List.map_drop, ← keys]
  simp

end Insert

end ZippyFS
