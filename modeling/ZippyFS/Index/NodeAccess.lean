import ZippyFS.Index.AddInode
import ZippyFS.Index.BPlusIndexLoader
import ZippyFS.Lib.Outcomes
import ZippyFS.Lib.Recorded

/-! The functions on nodes once more, with every access to an array of a node recorded. The
arrays are reached through recording accessors only, and forgetting the record gives back the
functions as they are.
-/

namespace ZippyFS

open CellMemory StructLayout ByteOrder Outcomes

/-- The arrays of a node. -/
inductive NodeArray where
  | keys
  | children
  | values
  deriving DecidableEq

/-- The declared lengths. -/
def NodeArray.length : NodeArray → Nat
  | keys => ORDER - 1
  | children => ORDER
  | values => ORDER - 1

/-- How many elements are live in a node with so many keys. -/
def NodeArray.live (numKeys : Nat) : NodeArray → Nat
  | keys => numKeys
  | children => numKeys + 1
  | values => numKeys

/-- An access to an array of a node. A descent must not look beyond the keys of its node. -/
structure Access where
  array : NodeArray
  index : Int
  descent : Option Nat

/-- The access stays in the array, and if it is one of a descent, it meets a live element. -/
def Access.Ok (access : Access) : Prop :=
  0 ≤ access.index ∧ access.index < access.array.length
    ∧ ∀ numKeys, access.descent = some numKeys → access.index < access.array.live numKeys

/-- A computation with the accesses it makes. -/
abbrev Watch := Recorded Access Fault

namespace Watched

section Accessors

variable (node : IndexNode) (index : Int)

/-- A descent reads `keys[index]`. -/
@[simp] def seeKey : Watch Int := .event ⟨.keys, index, some node.numKeys⟩ (node.key index.toNat)

/-- A descent reads `children[index]`. -/
@[simp] def seeChild : Watch Nat :=
  .event ⟨.children, index, some node.numKeys⟩ (node.child index.toNat)

/-- A descent reads `values[index]`. -/
@[simp] def seeValue : Watch Int :=
  .event ⟨.values, index, some node.numKeys⟩ (node.value index.toNat)

/-- Read `keys[index]`. -/
@[simp] def readKey : Watch Int := .event ⟨.keys, index, none⟩ (node.key index.toNat)

/-- Read `children[index]`. -/
@[simp] def readChild : Watch Nat := .event ⟨.children, index, none⟩ (node.child index.toNat)

/-- Read `values[index]`. -/
@[simp] def readValue : Watch Int := .event ⟨.values, index, none⟩ (node.value index.toNat)

/-- Write `keys[index]`. -/
@[simp] def writeKey (key : Int) : Watch IndexNode :=
  .event ⟨.keys, index, none⟩ (node.setKey index.toNat key)

/-- Write `children[index]`. -/
@[simp] def writeChild (child : Nat) : Watch IndexNode :=
  .event ⟨.children, index, none⟩ (node.setChild index.toNat child)

/-- Write `values[index]`. -/
@[simp] def writeValue (value : Int) : Watch IndexNode :=
  .event ⟨.values, index, none⟩ (node.setValue index.toNat value)

end Accessors

-----------------------------------------------------------------------------------------
-- The writer's descent
-----------------------------------------------------------------------------------------

/-- The loop of `find_node_to_store` over the gaps of a node. -/
def findInner (mem : Mem) (key : Bytes) (cur : IndexNode) : Watch Nat :=
  (List.range' 1 (cur.numKeys - 1)).foldlM
    (fun inneridx (ii : Nat) => do
      let prev ← seeKey cur ii
      let post ← seeKey cur (ii + 1)
      pure (if strcmp (keyAt mem prev) key = .lt ∧ strcmp key (keyAt mem post) = .lt
        then ii else inneridx))
    0

/-- The child that `find_node_to_store` goes on with. -/
def nextNode (mem : Mem) (key : Bytes) (cur : IndexNode) : Watch Nat := do
  let first ← seeKey cur 0
  if strcmp key (keyAt mem first) = .lt then seeChild cur 0
  else do
    let last ← seeKey cur ((cur.numKeys : Int) - 1)
    if strcmp key (keyAt mem last) = .gt then seeChild cur ((cur.numKeys - 1 + 1 : Nat) : Int)
    else do
      let inneridx ← findInner mem key cur
      seeChild cur ((inneridx : Int) + 1)

/-- The loop of `find_node_to_store`. -/
def findNodeFrom (mem : Mem) (key : Bytes) : Nat → Nat → Watch Nat
  | 0, _ => .plain (.error .diverges)
  | fuel + 1, curOffset =>
      if (nodeLayout.load mem curOffset).isLeaf then pure curOffset
      else do
        let next ← nextNode mem key (nodeLayout.load mem curOffset)
        findNodeFrom mem key fuel next

/-- `find_node_to_store`. -/
def findNodeToStore (index : BPLUSIndex) (key : Bytes) : Watch Nat :=
  if !index.hasRoot then .plain (.error .emptyTree)
  else do
    let curOffset ← .plain (index.mem.getOffset index.rootIdx)
    findNodeFrom index.mem.mem key index.mem.latestIndex curOffset

-----------------------------------------------------------------------------------------
-- Inserting into one node
-----------------------------------------------------------------------------------------

/-- The search of `insert_into_node`, over the places that are left. -/
def insertPosition (mem : Mem) (node : IndexNode) (k : Int) : List Nat → Watch (Option Nat)
  | [] => pure none
  | ii :: rest => do
      let oldk ← readKey node ii
      if strcmp (keyAt mem k) (keyAt mem oldk) = .lt then pure (some ii)
      else insertPosition mem node k rest

/-- The loop that moves everything up. -/
def moveUp (temp : IndexNode) : Nat → Nat → IndexNode → Watch IndexNode
  | 0, ii, node => do
      let child ← readChild temp ii
      writeChild node ((ii : Int) + 1) child
  | steps + 1, ii, node => do
      let key ← readKey temp ii
      let node ← writeKey node ((ii : Int) + 1) key
      let child ← readChild temp ii
      let node ← writeChild node ((ii : Int) + 1) child
      let value ← readValue temp ii
      let node ← writeValue node ((ii : Int) + 1) value
      moveUp temp steps (ii + 1) node

/-- The part of `insert_into_node` that makes room at the new key's place. -/
def makeRoom (node : IndexNode) : Option Nat → Watch (Nat × IndexNode)
  | none => pure (node.numKeys, node)
  | some curIdx => do
      let node ← moveUp node (node.numKeys - curIdx) curIdx node
      pure (curIdx, node)

/-- `insert_into_node` on the node's own memory. -/
def insertIntoCopy (mem : Mem) (node : IndexNode) (k v : Int) (isleft : Bool) (child : Int)
    : Watch (Nat × IndexNode) := do
  let found ← insertPosition mem node k (List.range node.numKeys)
  let (curIdx, node) ← makeRoom node found
  let node ← writeKey node curIdx k
  let node := node.setNumKeys (node.numKeys + 1)
  if node.isLeaf then do
    let node ← writeValue node curIdx v
    pure (curIdx, node)
  else do
    let curIdx := if !isleft then curIdx + 1 else curIdx
    let node ← writeChild node curIdx child.toNat
    pure (curIdx, node)

/-- `insert_into_node`. -/
def insertIntoNode (mem : Mem) (nodeoffset : Nat) (k v : Int) (isleft : Bool) (child : Int)
    : Watch (Nat × Mem) := do
  let (curIdx, node) ← insertIntoCopy mem (nodeLayout.load mem nodeoffset) k v isleft child
  pure (curIdx, nodeLayout.store mem nodeoffset node)

-----------------------------------------------------------------------------------------
-- Splitting a full node
-----------------------------------------------------------------------------------------

/-- The copy loop of a split leaf. -/
def moveLeafHalf : Nat → Nat → Nat → IndexNode → IndexNode → Watch (IndexNode × IndexNode)
  | 0, _, _, nnode, right => pure (nnode, right)
  | steps + 1, ii, curIdx, nnode, right => do
      let right := right.setNumKeys (right.numKeys + 1)
      let key ← readKey nnode ii
      let right ← writeKey right curIdx key
      let child ← readChild nnode ii
      let right ← writeChild right curIdx child
      let value ← readValue nnode ii
      let right ← writeValue right curIdx value
      let nnode ← writeKey nnode ii (-1)
      moveLeafHalf steps (ii + 1) (curIdx + 1) nnode right

/-- The copy loop of a split parent. -/
def moveInnerHalf (rightOffset : Nat)
    : Nat → Nat → Nat → IndexNode → IndexNode → Mem → Watch (IndexNode × IndexNode × Mem)
  | 0, _, _, nnode, right, mem => pure (nnode, right, mem)
  | steps + 1, ii, curIdx, nnode, right, mem => do
      let right := right.setNumKeys (right.numKeys + 1)
      let key ← readKey nnode ii
      let right ← writeKey right curIdx key
      let child ← readChild nnode ii
      let right ← writeChild right curIdx child
      let child ← readChild nnode ii
      let mem := setParent mem child rightOffset
      let nnode ← writeKey nnode ii (-1)
      let nnode := nnode.setNumKeys (nnode.numKeys - 1)
      moveInnerHalf rightOffset steps (ii + 1) (curIdx + 1) nnode right mem

/-- Split a full leaf. -/
def splitLeafNode (mem : Mem) (nodeoffset rightOffset : Nat) (k v : Int) (leftofmed : Bool)
    : Watch Mem := do
  let right := { nodeLayout.load mem rightOffset with isLeaf := true }
  let (nnode, right) ← moveLeafHalf (ORDER - 1 - medIdx) medIdx 0
    (nodeLayout.load mem nodeoffset) right
  let nnode := nnode.setNumKeys medIdx
  let mem := nodeLayout.store (nodeLayout.store mem nodeoffset nnode) rightOffset right
  if leftofmed then do
    let (_, mem) ← insertIntoNode mem nodeoffset k v false (-1)
    pure mem
  else do
    let (_, mem) ← insertIntoNode mem rightOffset k v false (-1)
    pure mem

/-- Split a full parent. -/
def splitInnerNode (mem : Mem) (nodeoffset rightOffset : Nat) (k v : Int) (leftofmed : Bool)
    (targetOffset : Nat)
    : Watch Mem := do
  let right := { nodeLayout.load mem rightOffset with isLeaf := true }
  let steps := ORDER - 1 - (medIdx + 1)
  let (nnode, right, mem) ← moveInnerHalf rightOffset steps (medIdx + 1) 0
    (nodeLayout.load mem nodeoffset) right mem
  let last ← readChild nnode ((ORDER - 1 : Nat) : Int)
  let right ← writeChild right steps last
  let last ← readChild nnode ((ORDER - 1 : Nat) : Int)
  let mem := setParent mem last rightOffset
  let nnode ← writeKey nnode medIdx (-1)
  let nnode := nnode.setNumKeys (nnode.numKeys - 1)
  let right := { right with isLeaf := false }
  let mem := nodeLayout.store (nodeLayout.store mem nodeoffset nnode) rightOffset right
  if leftofmed then do
    let (_, mem) ← insertIntoNode mem nodeoffset k v false targetOffset
    pure (setParent mem targetOffset nodeoffset)
  else do
    let (_, mem) ← insertIntoNode mem rightOffset k v false targetOffset
    pure (setParent mem targetOffset rightOffset)

/-- The root case of `split_insert_node`. -/
def growRoot (index : BPLUSIndex) (nodeoffset rightOffset : Nat) (nkey : Int)
    : Watch (Int × BPLUSIndex) := do
  let (nrootidx, mem) := index.mem.getTire nodeLayout.size
  let nrootOffset ← .plain (mem.getOffset nrootidx)
  let headerOffset ← .plain (mem.getOffset index.headerIdx)
  let nroot := { mem.load nodeLayout nrootOffset with
    parent := -1, numKeys := 1, isLeaf := false }
  let nroot ← writeKey nroot 0 nkey
  let nroot ← writeChild nroot 0 nodeoffset
  let nroot ← writeChild nroot 1 rightOffset
  let bytes := nodeLayout.store mem.mem nrootOffset nroot
  let bytes := setParent bytes rightOffset nrootOffset
  let bytes := setParent bytes nodeoffset nrootOffset
  let header := { headerLayout.load bytes headerOffset with root := nrootOffset }
  let bytes := headerLayout.store bytes headerOffset header
  pure (nrootidx, { index with mem := mem.withMem bytes, rootIdx := nrootidx })

/-- The first part of `split_insert_node`. -/
def splitHalves (index : BPLUSIndex) (nodeoffset : Nat) (k v : Int) (isparent : Bool)
    (targ : Int)
    : Watch (Nat × Nat × Int × BPLUSIndex) := do
  let (rightidx, mem) := index.mem.getTire nodeLayout.size
  let rightOffset ← .plain (mem.getOffset rightidx)
  let medKeyOf ← readKey (mem.load nodeLayout nodeoffset) medIdx
  let leftofmed := decide (strcmp (keyAt mem.mem k) (keyAt mem.mem medKeyOf) = .lt)
  let bytes ←
    if isparent then do
      let targetOffset ← .plain (mem.getOffset targ.toNat)
      splitInnerNode mem.mem nodeoffset rightOffset k v leftofmed targetOffset
    else splitLeafNode mem.mem nodeoffset rightOffset k v leftofmed
  pure (rightidx, rightOffset, medKeyOf, { index with mem := mem.withMem bytes })

/-- The last part of `split_insert_node`. -/
def listRight (split : BPLUSIndex → Nat → Int → Int → Watch (Int × BPLUSIndex))
    (index : BPLUSIndex) (nodeoffset rightidx rightOffset : Nat) (medKeyOf v : Int)
    (isparent : Bool)
    : Watch (Int × BPLUSIndex) := do
  let paroff := (index.mem.load nodeLayout nodeoffset).parent
  let first ← readKey (index.mem.load nodeLayout rightOffset) 0
  let nkey := if isparent then medKeyOf else first
  if paroff = -1 then growRoot index nodeoffset rightOffset nkey
  else if (index.mem.load nodeLayout paroff.toNat).numKeys = ORDER - 1 then do
    let (_, index) ← split index paroff.toNat medKeyOf rightidx
    pure (-1, index)
  else do
    let (_, bytes) ← insertIntoNode index.mem.mem paroff.toNat nkey v false rightOffset
    let bytes := setParent bytes rightOffset paroff
    pure (-1, { index with mem := index.mem.withMem bytes })

/-- `split_insert_node`. -/
def splitInsertNode
    : Nat → BPLUSIndex → Nat → Int → Int → Bool → Int → Watch (Int × BPLUSIndex)
  | 0, _, _, _, _, _, _ => .plain (.error .diverges)
  | fuel + 1, index, nodeoffset, k, v, isparent, targ =>
      if (index.mem.load nodeLayout nodeoffset).numKeys ≠ ORDER - 1 then
        pure (nodeoffset, index)
      else do
        let (rightidx, rightOffset, medKeyOf, index) ←
          splitHalves index nodeoffset k v isparent targ
        listRight
          (fun index paroff key targ => splitInsertNode fuel index paroff key (-1) true targ)
          index nodeoffset rightidx rightOffset medKeyOf v isparent

-----------------------------------------------------------------------------------------
-- Whole calls
-----------------------------------------------------------------------------------------

/-- The last part of `add_inode`. -/
def insertKey (index : BPLUSIndex) (key : Bytes) (keyOf inodeOf : Int) : Watch BPLUSIndex := do
  let targetOffset ← findNodeToStore index key
  if (index.mem.load nodeLayout targetOffset).numKeys = ORDER - 1 then do
    let (_, index) ←
      splitInsertNode index.mem.latestIndex index targetOffset keyOf inodeOf false (-1)
    pure index
  else do
    let (_, bytes) ← insertIntoNode index.mem.mem targetOffset keyOf inodeOf false (-1)
    pure { index with mem := index.mem.withMem bytes }

/-- `add_inode`. -/
def addInode (env : Env) (index : BPLUSIndex) (inode : Inode)
    (dirtyBlocks : Std.ExtTreeMap Nat Block) (blockMtime : Std.ExtTreeMap Nat Nat)
    : Watch BPLUSIndex := do
  let isroot := !index.hasRoot
  let index ← if isroot then .plain index.allocateRegions else pure index
  let (keyOf, inodeOf, index) ← .plain (index.writeRecord env inode dirtyBlocks blockMtime)
  if isroot then do
    let rootOffset ← .plain (index.mem.getOffset index.rootIdx)
    let root := index.mem.load nodeLayout rootOffset
    let root ← writeKey root 0 keyOf
    let root ← writeValue root 0 inodeOf
    pure { index with mem := index.mem.store nodeLayout rootOffset root }
  else insertKey index inode.inodeId keyOf inodeOf

/-- A sequence of calls on a fresh index. -/
def addAll (env : Env) (caps : Capacities) (calls : List AddCall) : Watch BPLUSIndex :=
  calls.foldlM
    (fun index call => addInode env index call.inode call.dirtyBlocks call.blockMtime)
    caps.index

-----------------------------------------------------------------------------------------
-- The loader's search
-----------------------------------------------------------------------------------------

/-- The loop of the loader's descent over the gaps of a node. -/
def nextInner (mem : Mem) (phash : Bytes) (cur : IndexNode) : Watch (Option Nat) :=
  (List.range (cur.numKeys - 1)).foldlM
    (fun found (ii : Nat) => do
      let pprev ← seeKey cur ii
      let ppost ← seeKey cur ((ii : Int) + 1)
      if strcmp (keyAt mem pprev) phash ≠ .gt ∧ strcmp phash (keyAt mem ppost) = .lt then do
        let child ← seeChild cur ((ii : Int) + 1)
        pure (some child)
      else pure found)
    none

/-- The child that the loader's search goes on with. -/
def nextChild (mem : Mem) (phash : Bytes) (cur : IndexNode) : Watch (Option Nat) := do
  let prev ← seeKey cur 0
  if strcmp phash (keyAt mem prev) = .lt then do
    let child ← seeChild cur 0
    pure (some child)
  else do
    let post ← seeKey cur ((cur.numKeys : Int) - 1)
    if strcmp phash (keyAt mem post) ≠ .lt then do
      let child ← seeChild cur cur.numKeys
      pure (some child)
    else nextInner mem phash cur

/-- The descent of `find_latest_inode`. -/
def descend (mem : Mem) (phash : Bytes) : Nat → Nat → Watch Nat
  | 0, _ => .plain (.error .diverges)
  | fuel + 1, curOffset =>
      if (nodeLayout.load mem curOffset).isLeaf then pure curOffset
      else do
        match ← nextChild mem phash (nodeLayout.load mem curOffset) with
        | some next => descend mem phash fuel next
        | none => .plain (.error .willNotTerminate)

/-- The search of a leaf, over the places that are left. -/
def findInLeaf (mem : Mem) (phash : Bytes) (cur : IndexNode) : List Nat → Watch (Option Int)
  | [] => pure none
  | ii :: rest => do
      let key ← seeKey cur ii
      if strcmp (keyAt mem key) phash = .eq then do
        let value ← seeValue cur ii
        pure (some value)
      else findInLeaf mem phash cur rest

/-- The search of one file. -/
def findInTree (image : Image) (phash : Bytes) : Watch (Option Int) := do
  let leaf ← descend image.mem phash image.size image.header.root
  let cur := nodeLayout.load image.mem leaf
  findInLeaf image.mem phash cur (List.range cur.numKeys)

-----------------------------------------------------------------------------------------
-- Forgetting the accesses
-----------------------------------------------------------------------------------------

section Outcome

variable (mem : Mem) (node cur : IndexNode) (key phash : Bytes) (k v child : Int)

@[simp] theorem findInner_outcome
    : (findInner mem key cur).outcome
      = .ok ((List.range' 1 (cur.numKeys - 1)).foldl
        (fun inneridx ii =>
          if strcmp (keyAt mem (cur.key ii)) key = .lt
              ∧ strcmp key (keyAt mem (cur.key (ii + 1))) = .lt
          then ii else inneridx)
        0) := by
  refine Recorded.outcome_foldlM (fun inneridx ii => ?_) _ _
  simp [ok_bind]

/-- By induction on the fuel. -/
@[simp] theorem findNodeFrom_outcome (fuel offset : Nat)
    : (findNodeFrom mem key fuel offset).outcome = ZippyFS.findNodeFrom mem key fuel offset := by
  induction fuel generalizing offset with
  | zero => rfl
  | succ fuel ih =>
      rw [findNodeFrom, ZippyFS.findNodeFrom]
      generalize nodeLayout.load mem offset = cur
      have last : ((cur.numKeys : Int) - 1).toNat = cur.numKeys - 1 := by omega
      by_cases leaf : cur.isLeaf = true
      · simp [leaf]
      · simp only [leaf, if_false, Bool.false_eq_true, nextNode, seeKey, Recorded.outcome_bind,
          Recorded.outcome_event, ok_bind, Int.toNat_zero, ih]
        by_cases before : strcmp key (keyAt mem (cur.key 0)) = .lt
        · simp [before, ok_bind]
        · by_cases behind : strcmp key (keyAt mem (cur.key (cur.numKeys - 1))) = .gt
          · simp [before, behind, last, ok_bind]
          · simp [before, behind, last, ok_bind]

@[simp] theorem findNodeToStore_outcome (index : BPLUSIndex)
    : (findNodeToStore index key).outcome = index.findNodeToStore key := by
  rw [findNodeToStore, BPLUSIndex.findNodeToStore]
  split
  · rfl
  · simp

/-- By induction on the places that are left. -/
@[simp] theorem insertPosition_outcome (places : List Nat)
    : (insertPosition mem node k places).outcome
      = .ok (places.find?
        (fun ii => strcmp (keyAt mem k) (keyAt mem (node.key ii)) = .lt)) := by
  induction places with
  | nil => rfl
  | cons ii rest ih =>
      by_cases less : strcmp (keyAt mem k) (keyAt mem (node.key ii)) = .lt
      · simp [insertPosition, less, ok_bind]
      · simp [insertPosition, less, ih, ok_bind]

/-- By induction on the steps. -/
@[simp] theorem moveUp_outcome (temp : IndexNode) (steps ii : Nat)
    : (moveUp temp steps ii node).outcome = .ok (ZippyFS.moveUp temp steps ii node) := by
  have next (place : Nat) : ((place : Int) + 1).toNat = place + 1 := by omega
  induction steps generalizing ii node with
  | zero => simp [moveUp, ZippyFS.moveUp, next, ok_bind]
  | succ steps ih => simp [moveUp, ZippyFS.moveUp, next, ih, ok_bind]

@[simp] theorem insertIntoCopy_outcome (isleft : Bool)
    : (insertIntoCopy mem node k v isleft child).outcome
      = .ok (ZippyFS.insertIntoCopy mem node k v isleft child) := by
  rw [insertIntoCopy, ZippyFS.insertIntoCopy, Recorded.outcome_bind, insertPosition_outcome,
    ok_bind, ZippyFS.insertPosition]
  cases (List.range node.numKeys).find?
      (fun ii => strcmp (keyAt mem k) (keyAt mem (node.key ii)) = .lt) with
  | none =>
      cases leaf : node.isLeaf <;> cases isleft <;> simp [makeRoom, leaf, ok_bind]
  | some curIdx =>
      simp only [makeRoom, Recorded.outcome_bind, moveUp_outcome, ok_bind,
        Recorded.outcome_pure]
      generalize ZippyFS.moveUp node (node.numKeys - curIdx) curIdx node = moved
      cases leaf : moved.isLeaf <;> cases isleft <;> simp [leaf, ok_bind]

@[simp] theorem insertIntoNode_outcome (nodeoffset : Nat) (isleft : Bool)
    : (insertIntoNode mem nodeoffset k v isleft child).outcome
      = .ok (ZippyFS.insertIntoNode mem nodeoffset k v isleft child) := by
  unfold insertIntoNode ZippyFS.insertIntoNode
  generalize nodeLayout.load mem nodeoffset = node
  rw [Recorded.outcome_bind, insertIntoCopy_outcome, ok_bind]
  rfl

/-- By induction on the steps. -/
@[simp] theorem moveLeafHalf_outcome (steps ii curIdx : Nat) (nnode right : IndexNode)
    : (moveLeafHalf steps ii curIdx nnode right).outcome
      = .ok (ZippyFS.moveLeafHalf steps ii curIdx nnode right) := by
  induction steps generalizing ii curIdx nnode right with
  | zero => rfl
  | succ steps ih => simp [moveLeafHalf, ZippyFS.moveLeafHalf, ih, ok_bind]

/-- By induction on the steps. -/
@[simp] theorem moveInnerHalf_outcome (rightOffset steps ii curIdx : Nat)
    (nnode right : IndexNode)
    : (moveInnerHalf rightOffset steps ii curIdx nnode right mem).outcome
      = .ok (ZippyFS.moveInnerHalf rightOffset steps ii curIdx nnode right mem) := by
  induction steps generalizing ii curIdx nnode right mem with
  | zero => rfl
  | succ steps ih => simp [moveInnerHalf, ZippyFS.moveInnerHalf, ih, ok_bind]

@[simp] theorem splitLeafNode_outcome (nodeoffset rightOffset : Nat) (leftofmed : Bool)
    : (splitLeafNode mem nodeoffset rightOffset k v leftofmed).outcome
      = .ok (ZippyFS.splitLeafNode mem nodeoffset rightOffset k v leftofmed) := by
  rw [splitLeafNode, ZippyFS.splitLeafNode]
  simp only [Recorded.outcome_bind, moveLeafHalf_outcome, ok_bind]
  cases leftofmed <;> simp [ok_bind]

@[simp] theorem splitInnerNode_outcome (nodeoffset rightOffset targetOffset : Nat)
    (leftofmed : Bool)
    : (splitInnerNode mem nodeoffset rightOffset k v leftofmed targetOffset).outcome
      = .ok (ZippyFS.splitInnerNode mem nodeoffset rightOffset k v leftofmed targetOffset) := by
  rw [splitInnerNode, ZippyFS.splitInnerNode]
  simp only [Recorded.outcome_bind, moveInnerHalf_outcome, ok_bind, readChild, writeChild,
    writeKey, Recorded.outcome_event, Int.toNat_natCast]
  cases leftofmed <;> simp [ok_bind]

variable (env : Env) (index : BPLUSIndex)

@[simp] theorem growRoot_outcome (nodeoffset rightOffset : Nat) (nkey : Int)
    : (growRoot index nodeoffset rightOffset nkey).outcome
      = index.growRoot nodeoffset rightOffset nkey := by
  unfold growRoot BPLUSIndex.growRoot
  simp only [Recorded.outcome_bind, Recorded.outcome_plain, Recorded.outcome_event, writeKey,
    writeChild, ok_bind, Recorded.outcome_pure]
  rfl

@[simp] theorem splitHalves_outcome (nodeoffset : Nat) (isparent : Bool) (targ : Int)
    : (splitHalves index nodeoffset k v isparent targ).outcome
      = index.splitHalves nodeoffset k v isparent targ := by
  unfold splitHalves BPLUSIndex.splitHalves
  cases isparent <;>
    simp only [Recorded.outcome_bind, Recorded.outcome_plain, Recorded.outcome_event, readKey,
      ok_bind, Recorded.outcome_pure, if_true, if_false, Bool.false_eq_true,
      splitInnerNode_outcome, splitLeafNode_outcome, Int.toNat_natCast] <;>
    rfl

@[simp] theorem listRight_outcome
    {split : BPLUSIndex → Nat → Int → Int → Watch (Int × BPLUSIndex)}
    {plainly : BPLUSIndex → Nat → Int → Int → Except Fault (Int × BPLUSIndex)}
    (same : ∀ index paroff key targ, (split index paroff key targ).outcome
      = plainly index paroff key targ)
    (nodeoffset rightidx rightOffset : Nat) (medKeyOf : Int) (isparent : Bool)
    : (listRight split index nodeoffset rightidx rightOffset medKeyOf v isparent).outcome
      = index.listRight plainly nodeoffset rightidx rightOffset medKeyOf v isparent := by
  unfold listRight BPLUSIndex.listRight
  simp only [Recorded.outcome_bind, readKey, Recorded.outcome_event, ok_bind, Int.toNat_zero]
  generalize (index.mem.load nodeLayout rightOffset).key 0 = first
  generalize (index.mem.load nodeLayout nodeoffset).parent = paroff
  split
  · exact growRoot_outcome _ _ _ _
  · split
    · simp only [Recorded.outcome_bind, same]
      rfl
    · simp only [Recorded.outcome_bind, insertIntoNode_outcome, ok_bind]
      rfl

/-- By induction on the fuel. -/
@[simp] theorem splitInsertNode_outcome (fuel nodeoffset : Nat) (isparent : Bool) (targ : Int)
    : (splitInsertNode fuel index nodeoffset k v isparent targ).outcome
      = BPLUSIndex.splitInsertNode fuel index nodeoffset k v isparent targ := by
  induction fuel generalizing index nodeoffset k v isparent targ with
  | zero => rfl
  | succ fuel ih =>
      rw [splitInsertNode, BPLUSIndex.splitInsertNode]
      split
      · rfl
      · refine Recorded.outcome_bind_eq (splitHalves_outcome _ _ _ _ _ _) fun halves => ?_
        exact listRight_outcome _ _
          (fun index paroff key targ => ih key (-1) index paroff true targ) _ _ _ _ _

@[simp] theorem insertKey_outcome (keyOf inodeOf : Int)
    : (insertKey index key keyOf inodeOf).outcome = index.insertKey key keyOf inodeOf := by
  unfold insertKey BPLUSIndex.insertKey
  refine Recorded.outcome_bind_eq (findNodeToStore_outcome _ _) fun target => ?_
  split
  · simp only [Recorded.outcome_bind, splitInsertNode_outcome]
    rfl
  · simp only [Recorded.outcome_bind, insertIntoNode_outcome, ok_bind]
    rfl

@[simp] theorem addInode_outcome (inode : Inode) (dirtyBlocks : Std.ExtTreeMap Nat Block)
    (blockMtime : Std.ExtTreeMap Nat Nat)
    : (addInode env index inode dirtyBlocks blockMtime).outcome
      = index.addInode env inode dirtyBlocks blockMtime := by
  unfold addInode BPLUSIndex.addInode
  cases index.hasRoot with
  | true =>
      simp only [Recorded.outcome_bind, Recorded.outcome_plain, Bool.not_true,
        Bool.false_eq_true, if_false, Recorded.outcome_pure, insertKey_outcome]
      rfl
  | false =>
      simp only [Recorded.outcome_bind, Recorded.outcome_plain, Bool.not_false, if_true,
        writeKey, writeValue, Recorded.outcome_event, ok_bind, Int.toNat_zero]
      rfl

/-- By induction on the calls. -/
@[simp] theorem addAll_outcome (caps : Capacities) (calls : List AddCall)
    : (addAll env caps calls).outcome = ZippyFS.addAll env caps calls := by
  unfold addAll ZippyFS.addAll
  generalize caps.index = start
  induction calls generalizing start with
  | nil => rfl
  | cons call rest ih =>
      rw [List.foldlM_cons, List.foldlM_cons]
      exact Recorded.outcome_bind_eq (addInode_outcome _ _ _ _ _) ih

@[simp] theorem nextChild_outcome
    : (nextChild mem phash cur).outcome = .ok (BPLUSIndexLoader.nextChild mem phash cur) := by
  have last : ((cur.numKeys : Int) - 1).toNat = cur.numKeys - 1 := by omega
  have inner : (nextInner mem phash cur).outcome
      = .ok ((List.range (cur.numKeys - 1)).foldl
        (fun found ii =>
          if strcmp (keyAt mem (cur.key ii)) phash ≠ .gt
              ∧ strcmp phash (keyAt mem (cur.key (ii + 1))) = .lt
          then some (cur.child (ii + 1)) else found)
        none) := by
    refine Recorded.outcome_foldlM (fun found ii => ?_) _ _
    have next : ((ii : Int) + 1).toNat = ii + 1 := by omega
    simp only [seeKey, Recorded.outcome_bind, Recorded.outcome_event, ok_bind, next,
      Int.toNat_natCast]
    split <;> simp [next, ok_bind]
  unfold nextChild BPLUSIndexLoader.nextChild
  simp only [seeKey, Recorded.outcome_bind, Recorded.outcome_event, ok_bind, Int.toNat_zero]
  split
  · simp [ok_bind]
  · simp only [Recorded.outcome_bind, Recorded.outcome_event, ok_bind, last]
    split
    · simp [ok_bind]
    · exact inner

/-- By induction on the fuel. -/
@[simp] theorem descend_outcome (fuel offset : Nat)
    : (descend mem phash fuel offset).outcome
      = BPLUSIndexLoader.descend mem phash fuel offset := by
  induction fuel generalizing offset with
  | zero => rfl
  | succ fuel ih =>
      rw [descend, BPLUSIndexLoader.descend]
      generalize nodeLayout.load mem offset = cur
      split
      · rfl
      · simp only [Recorded.outcome_bind, nextChild_outcome, ok_bind]
        cases BPLUSIndexLoader.nextChild mem phash cur with
        | none => rfl
        | some next => exact ih next

/-- By induction on the places that are left. -/
@[simp] theorem findInLeaf_outcome (places : List Nat)
    : (findInLeaf mem phash cur places).outcome
      = .ok ((places.find? (fun ii => strcmp (keyAt mem (cur.key ii)) phash = .eq)).map
        cur.value) := by
  induction places with
  | nil => rfl
  | cons ii rest ih =>
      by_cases same : strcmp (keyAt mem (cur.key ii)) phash = .eq
      · simp [findInLeaf, same, ok_bind]
      · simp [findInLeaf, same, ih, ok_bind]

@[simp] theorem findInTree_outcome (image : Image)
    : (findInTree image phash).outcome = BPLUSIndexLoader.findInTree image phash := by
  unfold findInTree BPLUSIndexLoader.findInTree
  simp only [Recorded.outcome_bind, descend_outcome, findInLeaf_outcome]
  rfl

end Outcome

end Watched

end ZippyFS
