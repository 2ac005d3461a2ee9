import ZippyFS.Cache.Inode
import ZippyFS.Index.Records
import ZippyFS.Index.TireFire
import ZippyFS.Lib.ByteOrder

/-! The writer of index files: a disk-backed B+Tree that only ever inserts. Pointers into
the mapping are modelled by their offsets from its start, which survive a move.
-/

namespace ZippyFS

open CellMemory StructLayout ByteOrder

/-- The key string stored at an offset; every key has `HASH_SIZE` bytes of room. -/
def keyAt (mem : Mem) (offset : Int) : Bytes :=
  mem.cString offset.toNat HASH_SIZE

namespace IndexNode

/-- `keys[index]`. The word behind the array is `num_keys`. -/
def key (node : IndexNode) (index : Nat) : Int :=
  if inside : index < ORDER - 1 then node.keys[index] else node.numKeys

/-- `children[index]`. -/
def child (node : IndexNode) (index : Nat) : Nat :=
  node.children[index]?.getD 0

/-- `values[index]`. -/
def value (node : IndexNode) (index : Nat) : Int :=
  node.values[index]?.getD 0

/-- `keys[index] = key`. -/
def setKey (node : IndexNode) (index : Nat) (key : Int) : IndexNode :=
  { node with keys := node.keys.setIfInBounds index key }

/-- `children[index] = child`. -/
def setChild (node : IndexNode) (index child : Nat) : IndexNode :=
  { node with children := node.children.setIfInBounds index child }

/-- `values[index] = value`. -/
def setValue (node : IndexNode) (index : Nat) (value : Int) : IndexNode :=
  { node with values := node.values.setIfInBounds index value }

/-- `num_keys = count`. -/
def setNumKeys (node : IndexNode) (count : Nat) : IndexNode :=
  { node with numKeys := count }

end IndexNode

/-- Overwrite the `parent` member of the node at an offset. -/
def setParent (mem : Mem) (offset : Nat) (parent : Int) : Mem :=
  nodeLayout.store mem offset { nodeLayout.load mem offset with parent := parent }

-----------------------------------------------------------------------------------------
-- Descending to a leaf
-----------------------------------------------------------------------------------------

/-- The loop of `find_node_to_store` from a node on: `before(cur, 0)`, `after(cur, last)`,
or the child behind the last key found strictly between its neighbours.
-/
def findNodeFrom (mem : Mem) (key : Bytes) : Nat → Nat → Except Fault Nat
  | 0, _ => .error .diverges
  | fuel + 1, curOffset =>
      let cur := nodeLayout.load mem curOffset
      if cur.isLeaf then .ok curOffset
      else if strcmp key (keyAt mem (cur.key 0)) = .lt then
        findNodeFrom mem key fuel (cur.child 0)
      else if strcmp key (keyAt mem (cur.key (cur.numKeys - 1))) = .gt then
        findNodeFrom mem key fuel (cur.child (cur.numKeys - 1 + 1))
      else
        let inneridx := (List.range' 1 (cur.numKeys - 1)).foldl
          (fun inneridx ii =>
            if strcmp (keyAt mem (cur.key ii)) key = .lt
                ∧ strcmp key (keyAt mem (cur.key (ii + 1))) = .lt
            then ii else inneridx)
          0
        findNodeFrom mem key fuel (cur.child (inneridx + 1))

-----------------------------------------------------------------------------------------
-- Inserting into one node
-----------------------------------------------------------------------------------------

/-- The search of `insert_into_node`: the first live key above the new one. -/
def insertPosition (mem : Mem) (node : IndexNode) (k : Int) : Option Nat :=
  (List.range node.numKeys).find?
    (fun ii => strcmp (keyAt mem k) (keyAt mem (node.key ii)) = .lt)

/-- The loop that moves everything from `ii` up by one place, out of a copy `temp` of the
node, and the move of the last child behind it.
-/
def moveUp (temp : IndexNode) : Nat → Nat → IndexNode → IndexNode
  | 0, ii, node => node.setChild (ii + 1) (temp.child ii)
  | steps + 1, ii, node =>
      moveUp temp steps (ii + 1)
        (((node.setKey (ii + 1) (temp.key ii)).setChild (ii + 1) (temp.child ii)).setValue
          (ii + 1) (temp.value ii))

/-- `insert_into_node` on the node's own memory, with the index it returns. -/
def insertIntoCopy (mem : Mem) (node : IndexNode) (k v : Int) (isleft : Bool)
    (child : Int)
    : Nat × IndexNode :=
  let (curIdx, node) :=
    match insertPosition mem node k with
    | none => (node.numKeys, node)
    | some curIdx => (curIdx, moveUp node (node.numKeys - curIdx) curIdx node)
  let node := (node.setKey curIdx k).setNumKeys (node.numKeys + 1)
  if node.isLeaf then (curIdx, node.setValue curIdx v)
  else
    let curIdx := if !isleft then curIdx + 1 else curIdx
    (curIdx, node.setChild curIdx child.toNat)

/-- `insert_into_node`. -/
def insertIntoNode (mem : Mem) (nodeoffset : Nat) (k v : Int) (isleft : Bool)
    (child : Int)
    : Nat × Mem :=
  let (curIdx, node) := insertIntoCopy mem (nodeLayout.load mem nodeoffset) k v isleft child
  (curIdx, nodeLayout.store mem nodeoffset node)

-----------------------------------------------------------------------------------------
-- Splitting a full node
-----------------------------------------------------------------------------------------

/-- The copy loop of a split leaf, from the median on. -/
def moveLeafHalf : Nat → Nat → Nat → IndexNode → IndexNode → IndexNode × IndexNode
  | 0, _, _, nnode, right => (nnode, right)
  | steps + 1, ii, curIdx, nnode, right =>
      let right := right.setNumKeys (right.numKeys + 1)
      let right := ((right.setKey curIdx (nnode.key ii)).setChild curIdx
        (nnode.child ii)).setValue curIdx (nnode.value ii)
      moveLeafHalf steps (ii + 1) (curIdx + 1) (nnode.setKey ii (-1)) right

/-- The copy loop of a split parent, from behind the median on. Every moved child gets the
right half as its parent.
-/
def moveInnerHalf (rightOffset : Nat)
    : Nat → Nat → Nat → IndexNode → IndexNode → Mem → IndexNode × IndexNode × Mem
  | 0, _, _, nnode, right, mem => (nnode, right, mem)
  | steps + 1, ii, curIdx, nnode, right, mem =>
      let right := right.setNumKeys (right.numKeys + 1)
      let right := (right.setKey curIdx (nnode.key ii)).setChild curIdx (nnode.child ii)
      let mem := setParent mem (nnode.child ii) rightOffset
      let nnode := (nnode.setKey ii (-1)).setNumKeys (nnode.numKeys - 1)
      moveInnerHalf rightOffset steps (ii + 1) (curIdx + 1) nnode right mem

/-- The index of the median key of a full node. -/
def medIdx : Nat := (ORDER - 1) / 2

/-- Split a full leaf and put the new pair into the half it belongs to. -/
def splitLeafNode (mem : Mem) (nodeoffset rightOffset : Nat) (k v : Int)
    (leftofmed : Bool)
    : Mem :=
  let right := { nodeLayout.load mem rightOffset with isLeaf := true }
  let (nnode, right) := moveLeafHalf (ORDER - 1 - medIdx) medIdx 0
    (nodeLayout.load mem nodeoffset) right
  let nnode := nnode.setNumKeys medIdx
  let mem := nodeLayout.store (nodeLayout.store mem nodeoffset nnode) rightOffset right
  if leftofmed then (insertIntoNode mem nodeoffset k v false (-1)).2
  else (insertIntoNode mem rightOffset k v false (-1)).2

/-- Split a full parent without its median, and put the carried-up node into the half it
belongs to.
-/
def splitInnerNode (mem : Mem) (nodeoffset rightOffset : Nat) (k v : Int)
    (leftofmed : Bool) (targetOffset : Nat)
    : Mem :=
  let right := { nodeLayout.load mem rightOffset with isLeaf := true }
  let steps := ORDER - 1 - (medIdx + 1)
  let (nnode, right, mem) := moveInnerHalf rightOffset steps (medIdx + 1) 0
    (nodeLayout.load mem nodeoffset) right mem
  let right := right.setChild steps (nnode.child (ORDER - 1))
  let mem := setParent mem (nnode.child (ORDER - 1)) rightOffset
  let nnode := (nnode.setKey medIdx (-1)).setNumKeys (nnode.numKeys - 1)
  let right := { right with isLeaf := false }
  let mem := nodeLayout.store (nodeLayout.store mem nodeoffset nnode) rightOffset right
  if leftofmed then
    setParent (insertIntoNode mem nodeoffset k v false targetOffset).2 targetOffset nodeoffset
  else
    setParent (insertIntoNode mem rightOffset k v false targetOffset).2 targetOffset
      rightOffset

/-- `class BPLUSIndex`. `hasRoot` says that `root_ptr_` is set. -/
structure BPLUSIndex where
  numEnts : Nat
  numBlocks : Nat
  pathSize : Nat
  blockSize : Nat
  mem : TireFire
  hasRoot : Bool
  rootIdx : Nat
  headerIdx : Nat
  pathArrIdx : Nat
  curPathIdx : Nat
  inodeArrIdx : Nat
  curInodeArrIdx : Nat
  blockArrIdx : Nat
  curBlockArrIdx : Nat
  bdArrIdx : Nat
  curBdArrIdx : Nat
  hashArrIdx : Nat
  curHashArrIdx : Nat

namespace BPLUSIndex

/-- The constructor, with the capacities in the order of the source. -/
def new (numEnts blocksize numBlocks pathSize : Nat) : BPLUSIndex where
  numEnts := numEnts
  numBlocks := numBlocks
  pathSize := pathSize
  blockSize := blocksize
  mem := TireFire.new
  hasRoot := false
  rootIdx := 0
  headerIdx := 0
  pathArrIdx := 0
  curPathIdx := 0
  inodeArrIdx := 0
  curInodeArrIdx := 0
  blockArrIdx := 0
  curBlockArrIdx := 0
  bdArrIdx := 0
  curBdArrIdx := 0
  hashArrIdx := 0
  curHashArrIdx := 0

/-- `find_node_to_store`. A descent visits fewer nodes than regions were handed out. -/
def findNodeToStore (index : BPLUSIndex) (key : Bytes) : Except Fault Nat :=
  if !index.hasRoot then .error .emptyTree
  else do
    let curOffset ← index.mem.getOffset index.rootIdx
    findNodeFrom index.mem.mem key index.mem.latestIndex curOffset

/-- The root case of `split_insert_node`: a new root above both halves. -/
def growRoot (index : BPLUSIndex) (nodeoffset rightOffset : Nat) (nkey : Int)
    : Except Fault (Int × BPLUSIndex) := do
  let (nrootidx, mem) := index.mem.getTire nodeLayout.size
  let nrootOffset ← mem.getOffset nrootidx
  let headerOffset ← mem.getOffset index.headerIdx
  let nroot := { mem.load nodeLayout nrootOffset with
    parent := -1, numKeys := 1, isLeaf := false }
  let nroot := ((nroot.setKey 0 nkey).setChild 0 nodeoffset).setChild 1 rightOffset
  let bytes := nodeLayout.store mem.mem nrootOffset nroot
  let bytes := setParent bytes rightOffset nrootOffset
  let bytes := setParent bytes nodeoffset nrootOffset
  let header := { headerLayout.load bytes headerOffset with root := nrootOffset }
  let bytes := headerLayout.store bytes headerOffset header
  .ok (nrootidx, { index with mem := mem.withMem bytes, rootIdx := nrootidx })

/-- The first part of `split_insert_node`: a fresh node takes the upper half of a full one
and the new key enters one of the halves. Returns the fresh node's index and offset and the
offset of the median key. `targ` is the index of the carried-up node of a parent split.
-/
def splitHalves (index : BPLUSIndex) (nodeoffset : Nat) (k v : Int) (isparent : Bool)
    (targ : Int)
    : Except Fault (Nat × Nat × Int × BPLUSIndex) := do
  let (rightidx, mem) := index.mem.getTire nodeLayout.size
  let rightOffset ← mem.getOffset rightidx
  let medKeyOf := (mem.load nodeLayout nodeoffset).key medIdx
  let leftofmed := decide (strcmp (keyAt mem.mem k) (keyAt mem.mem medKeyOf) = .lt)
  let bytes ←
    if isparent then do
      let targetOffset ← mem.getOffset targ.toNat
      pure (splitInnerNode mem.mem nodeoffset rightOffset k v leftofmed targetOffset)
    else
      pure (splitLeafNode mem.mem nodeoffset rightOffset k v leftofmed)
  .ok (rightidx, rightOffset, medKeyOf, { index with mem := mem.withMem bytes })

/-- The last part of `split_insert_node`: list the right half in the parent of the left one.
`split` splits a parent without room.
-/
def listRight (split : BPLUSIndex → Nat → Int → Int → Except Fault (Int × BPLUSIndex))
    (index : BPLUSIndex) (nodeoffset rightidx rightOffset : Nat) (medKeyOf v : Int)
    (isparent : Bool)
    : Except Fault (Int × BPLUSIndex) :=
  let paroff := (index.mem.load nodeLayout nodeoffset).parent
  let nkey := if isparent then medKeyOf else (index.mem.load nodeLayout rightOffset).key 0
  if paroff = -1 then index.growRoot nodeoffset rightOffset nkey
  else if (index.mem.load nodeLayout paroff.toNat).numKeys = ORDER - 1 then do
    let (_, index) ← split index paroff.toNat medKeyOf rightidx
    .ok (-1, index)
  else
    let bytes := (insertIntoNode index.mem.mem paroff.toNat nkey v false rightOffset).2
    let bytes := setParent bytes rightOffset paroff
    .ok (-1, { index with mem := index.mem.withMem bytes })

/-- `split_insert_node`. -/
def splitInsertNode
    : Nat → BPLUSIndex → Nat → Int → Int → Bool → Int → Except Fault (Int × BPLUSIndex)
  | 0, _, _, _, _, _, _ => .error .diverges
  | fuel + 1, index, nodeoffset, k, v, isparent, targ =>
      -- do nothing if the node is not full
      if (index.mem.load nodeLayout nodeoffset).numKeys ≠ ORDER - 1 then
        .ok (nodeoffset, index)
      else do
        let (rightidx, rightOffset, medKeyOf, index) ←
          index.splitHalves nodeoffset k v isparent targ
        index.listRight
          (fun index paroff key targ => splitInsertNode fuel index paroff key (-1) true targ)
          nodeoffset rightidx rightOffset medKeyOf v isparent

-----------------------------------------------------------------------------------------
-- Adding an inode
-----------------------------------------------------------------------------------------

/-- The first part of `add_inode` on an empty index: the header, the first node and one
region for each kind of record.
-/
def allocateRegions (index : BPLUSIndex) : Except Fault BPLUSIndex := do
  let (headerIdx, mem) := index.mem.getTire headerLayout.size
  let headerOffset ← mem.getOffset headerIdx
  let mem := mem.store headerLayout headerOffset
    { mem.load headerLayout headerOffset with numInodes := index.numEnts }
  let (rootIdx, mem) := mem.getTire nodeLayout.size
  let rootOffset ← mem.getOffset rootIdx
  let mem := mem.store headerLayout headerOffset
    { mem.load headerLayout headerOffset with root := rootOffset }
  let mem := mem.store nodeLayout rootOffset
    { mem.load nodeLayout rootOffset with isLeaf := true, numKeys := 1, parent := -1 }
  let (inodeArrIdx, mem) := mem.getTire (inodeLayout.size * index.numEnts)
  let inodeList ← mem.getOffset inodeArrIdx
  let mem := mem.store headerLayout headerOffset
    { mem.load headerLayout headerOffset with inodeList := inodeList }
  let (blockArrIdx, mem) := mem.getTire index.blockSize
  let (bdArrIdx, mem) := mem.getTire (index.numBlocks * blockDataLayout.size)
  let (hashArrIdx, mem) := mem.getTire (index.numEnts * HASH_SIZE)
  let (pathArrIdx, mem) := mem.getTire index.pathSize
  .ok { index with
    mem := mem
    hasRoot := true
    rootIdx := rootIdx
    headerIdx := headerIdx
    pathArrIdx := pathArrIdx
    curPathIdx := 0
    inodeArrIdx := inodeArrIdx
    curInodeArrIdx := 0
    blockArrIdx := blockArrIdx
    curBlockArrIdx := 0
    bdArrIdx := bdArrIdx
    hashArrIdx := hashArrIdx
    curHashArrIdx := 0 }

/-- The loop over the dirty blocks: their bytes, and one descriptor for each. `dataOffset`
and `entryOffset` are where the next bytes and the next descriptor go.
-/
def writeBlocks (env : Env) (blockMtime : Std.ExtTreeMap Nat Nat)
    : List (Nat × Block) → Nat → Nat → Mem → Mem
  | [], _, _, mem => mem
  | (blockId, block) :: rest, dataOffset, entryOffset, mem =>
      let mem := mem.writeBytes dataOffset (block.copied env block.actualSize)
      let mem := blockDataLayout.store mem entryOffset
        ⟨blockId, blockMtime[blockId]?.getD 0, block.actualSize, dataOffset⟩
      writeBlocks env blockMtime rest (dataOffset + block.actualSize)
        (entryOffset + blockDataLayout.size) mem

/-- The middle part of `add_inode`: the path, the key, the inode record and its blocks.
Returns the offsets of the key and of the record.
-/
def writeRecord (env : Env) (index : BPLUSIndex) (inode : Inode)
    (dirtyBlocks : Std.ExtTreeMap Nat Block) (blockMtime : Std.ExtTreeMap Nat Nat)
    : Except Fault (Int × Int × BPLUSIndex) := do
  let pathOf := (← index.mem.getOffset index.pathArrIdx) + index.curPathIdx
  let keyOf := (← index.mem.getOffset index.hashArrIdx) + index.curHashArrIdx
  let inodeOf :=
    (← index.mem.getOffset index.inodeArrIdx) + index.curInodeArrIdx * inodeLayout.size
  let dataOf := (← index.mem.getOffset index.blockArrIdx) + index.curBlockArrIdx
  let entryOf :=
    (← index.mem.getOffset index.bdArrIdx) + index.curBdArrIdx * blockDataLayout.size
  let bytes := index.mem.mem.writeBytes pathOf inode.path
  let bytes := (bytes.clear keyOf HASH_SIZE).writeBytes keyOf inode.inodeId
  let bytes := inodeLayout.store bytes inodeOf
    { inodeLayout.load bytes inodeOf with
      mode := inode.mode
      nlink := inode.nlink
      mtime := inode.ulMtime
      ctime := inode.ulCtime
      size := inode.size
      deleted := inode.deleted
      hash := keyOf
      path := pathOf
      pathSize := inode.path.length }
  let bytes := writeBlocks env blockMtime dirtyBlocks.toList dataOf entryOf bytes
  let bdSize := blockDataLayout.size * dirtyBlocks.size
  let bytes := inodeLayout.store bytes inodeOf
    (if bdSize > 0 then
      { inodeLayout.load bytes inodeOf with blockData := entryOf, blockDataSize := bdSize }
    else { inodeLayout.load bytes inodeOf with blockData := -1 })
  .ok (keyOf, inodeOf, { index with
    mem := index.mem.withMem bytes
    curBlockArrIdx :=
      index.curBlockArrIdx + (dirtyBlocks.toList.map (fun entry => entry.2.actualSize)).sum
    curBdArrIdx := index.curBdArrIdx + dirtyBlocks.size
    curInodeArrIdx := index.curInodeArrIdx + 1
    curHashArrIdx := index.curHashArrIdx + HASH_SIZE
    curPathIdx := index.curPathIdx + inode.path.length })

/-- The last part of `add_inode`: link the record into the tree. -/
def insertKey (index : BPLUSIndex) (key : Bytes) (keyOf inodeOf : Int)
    : Except Fault BPLUSIndex := do
  let targetOffset ← index.findNodeToStore key
  if (index.mem.load nodeLayout targetOffset).numKeys = ORDER - 1 then
    -- needs to split the node to fit this item
    let (_, index) ←
      splitInsertNode index.mem.latestIndex index targetOffset keyOf inodeOf false (-1)
    .ok index
  else
    .ok { index with
      mem := index.mem.withMem
        (insertIntoNode index.mem.mem targetOffset keyOf inodeOf false (-1)).2 }

/-- `add_inode`. -/
def addInode (env : Env) (index : BPLUSIndex) (inode : Inode)
    (dirtyBlocks : Std.ExtTreeMap Nat Block) (blockMtime : Std.ExtTreeMap Nat Nat)
    : Except Fault BPLUSIndex := do
  let isroot := !index.hasRoot
  let index ← if isroot then index.allocateRegions else pure index
  let (keyOf, inodeOf, index) ← index.writeRecord env inode dirtyBlocks blockMtime
  if isroot then
    let rootOffset ← index.mem.getOffset index.rootIdx
    let root := index.mem.load nodeLayout rootOffset
    .ok { index with
      mem := index.mem.store nodeLayout rootOffset
        ((root.setKey 0 keyOf).setValue 0 inodeOf) }
  else index.insertKey inode.inodeId keyOf inodeOf

/-- `find`. It takes the descent of an insertion; a node's offset is never -1. -/
def find (index : BPLUSIndex) (p : Bytes) : Except Fault Bool := do
  let noff ← index.findNodeToStore p
  if noff = 0 then .ok false
  else
    let n := index.mem.load nodeLayout noff
    .ok ((List.range n.numKeys).any
      (fun ii => decide (strcmp (keyAt index.mem.mem (n.key ii)) p = .eq)))

end BPLUSIndex

end ZippyFS
