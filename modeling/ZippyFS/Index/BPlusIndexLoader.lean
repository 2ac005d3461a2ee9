import ZippyFS.Index.BPlusIndex

/-! The reader of index files: a search for one path over all loaded files, and a scan of
all inode records for the children of a directory.
-/

namespace ZippyFS

open CellMemory StructLayout ByteOrder

/-- A mapped index file: its size and its bytes. -/
structure Image where
  size : Nat
  mem : Mem

namespace Image

/-- `struct header` at the start of the file. -/
def header (image : Image) : Header := headerLayout.load image.mem 0

/-- A copy of the `struct inode` at an offset. -/
def inode (image : Image) (offset : Nat) : InodeRecord := inodeLayout.load image.mem offset

/-- The entries of a block list. -/
def blockEntries (image : Image) (bdOff bdSize : Nat) : List BlockData :=
  (List.range ((bdSize + blockDataLayout.size - 1) / blockDataLayout.size)).map
    (fun number => blockDataLayout.load image.mem (bdOff + number * blockDataLayout.size))

/-- The block behind an entry. -/
def blockOf (image : Image) (entry : BlockData) : Block :=
  Block.new (image.mem.readBytes entry.dataOffset entry.size) entry.size

/-- The path of a record: `path_size` bytes, read as a C string. -/
def pathOf (image : Image) (record : InodeRecord) : Bytes :=
  image.mem.cString record.path record.pathSize

end Image

/-- The file of an index, as the loader maps it. -/
def BPLUSIndex.image (index : BPLUSIndex) : Image := ⟨index.mem.curSize, index.mem.mem⟩

/-- `disk_inode_info`. -/
structure DiskInodeInfo where
  inodeId : Bytes
  mode : UInt32
  nlink : UInt32
  mtime : Nat
  ctime : Nat
  size : Nat
  deleted : Bool
  blockTime : Std.ExtTreeMap Nat Nat
  blockData : Std.ExtTreeMap Nat Block

/-- `index_entry`. -/
structure IndexEntry where
  path : Bytes
  mtime : Nat
  deleted : Bool

namespace BPLUSIndexLoader

/-- A `disk_inode_info` before anything was found; `i_mtime` is the only member set. -/
def nothing : DiskInodeInfo := ⟨[], 0, 0, 0, 0, 0, false, ∅, ∅⟩

/-- The child that the search goes on with: the first, the last, or the one behind the last
key of the node with `phash` between it and the next. In the last case there may be none.
-/
def nextChild (mem : Mem) (phash : Bytes) (cur : IndexNode) : Option Nat :=
  if strcmp phash (keyAt mem (cur.key 0)) = .lt then some (cur.child 0)
  else if strcmp phash (keyAt mem (cur.key (cur.numKeys - 1))) ≠ .lt then
    some (cur.child cur.numKeys)
  else
    (List.range (cur.numKeys - 1)).foldl
      (fun found ii =>
        if strcmp (keyAt mem (cur.key ii)) phash ≠ .gt
            ∧ strcmp phash (keyAt mem (cur.key (ii + 1))) = .lt
        then some (cur.child (ii + 1)) else found)
      none

/-- The descent of `find_latest_inode` from a node on. -/
def descend (mem : Mem) (phash : Bytes) : Nat → Nat → Except Fault Nat
  | 0, _ => .error .diverges
  | fuel + 1, curOffset =>
      if (nodeLayout.load mem curOffset).isLeaf then .ok curOffset
      else
        match nextChild mem phash (nodeLayout.load mem curOffset) with
        | some next => descend mem phash fuel next
        | none => .error .willNotTerminate

/-- The value stored in a leaf under a key. -/
def findInLeaf (mem : Mem) (phash : Bytes) (leaf : Nat) : Option Int :=
  let cur := nodeLayout.load mem leaf
  ((List.range cur.numKeys).find? (fun ii => strcmp (keyAt mem (cur.key ii)) phash = .eq)).map
    cur.value

/-- The search of one file. A descent visits fewer nodes than the file has bytes. -/
def findInTree (image : Image) (phash : Bytes) : Except Fault (Option Int) := do
  let leaf ← descend image.mem phash image.size image.header.root
  .ok (findInLeaf image.mem phash leaf)

/-- Keep a block if it is the first of its id or not older than the one kept. -/
def keepBlock (latest : DiskInodeInfo) (blockId mtime : Nat) (block : Block) : DiskInodeInfo :=
  let newer :=
    { latest with
      blockTime := latest.blockTime.insert blockId mtime
      blockData := latest.blockData.insert blockId block }
  match latest.blockTime[blockId]? with
  | some time => if time ≤ mtime then newer else latest
  | none => newer

/-- Read one entry of a block list. -/
def addBlock (image : Image) (latest : DiskInodeInfo) (entry : BlockData) : DiskInodeInfo :=
  keepBlock latest entry.blockId entry.mtime (image.blockOf entry)

/-- Take over the attributes of a newer record. -/
def takeRecord (phash : Bytes) (latest : DiskInodeInfo) (inode : InodeRecord)
    : DiskInodeInfo :=
  { latest with
    mode := inode.mode
    size := inode.size
    nlink := inode.nlink
    mtime := inode.mtime
    ctime := inode.ctime
    inodeId := phash
    deleted := inode.deleted }

/-- The loop of `find_latest_inode` over the files that are left. It returns at the first
file without the key, and leaves the loop at the first record without data if data is asked
for.
-/
def visitTrees (phash : Bytes) (getData : Bool)
    : List Image → Nat → DiskInodeInfo → Except Fault DiskInodeInfo
  | [], _, latest => .ok latest
  | tree :: rest, latestTime, latest => do
      match ← findInTree tree phash with
      | none => .ok latest
      | some inodeoff =>
          let inode := tree.inode inodeoff.toNat
          let newer := decide (latestTime < inode.mtime)
          let latest := if newer then takeRecord phash latest inode else latest
          let latestTime := if newer then inode.mtime else latestTime
          if getData then
            if inode.blockData = -1 then .ok latest
            else
              let entries := tree.blockEntries inode.blockData.toNat inode.blockDataSize
              visitTrees phash getData rest latestTime (entries.foldl (addBlock tree) latest)
          else visitTrees phash getData rest latestTime latest

/-- `find_latest_inode`, over the loaded files in the order of the map. -/
def findLatestInode (env : Env) (trees : List Image) (path : Bytes) (getData : Bool)
    : Except Fault DiskInodeInfo :=
  if path = [] then .ok nothing
  else visitTrees (Util.cryptoHash env path) getData trees 0 nothing

/-- `substr(0, find_last_of("/"))`: what comes before the last slash, or everything. -/
def parentOf (path : Bytes) : Bytes :=
  if 47 ∈ path then
    ((path.reverse.dropWhile (fun byte : UInt8 => decide (byte ≠ 47))).drop 1).reverse
  else path

/-- The entry of a record that lies directly below `path`. -/
def childEntry (image : Image) (path : Bytes) (record : InodeRecord) : Option IndexEntry :=
  let strpath := image.pathOf record
  if (parentOf strpath = [] ∧ path = [47]) ∨ parentOf strpath = path then
    some ⟨strpath, record.mtime, record.deleted⟩
  else none

/-- The inner loop of `get_children`. Its cursor has 32 bits. -/
def scanRecords (image : Image) (path : Bytes)
    : Nat → Nat → List IndexEntry → Except Fault (List IndexEntry)
  | 0, _, _ => .error .diverges
  | fuel + 1, ii, names =>
      let head := image.header
      if ii < head.inodeList + head.numInodes * inodeLayout.size then
        scanRecords image path fuel ((ii + inodeLayout.size) % 2 ^ 32)
          (names ++ (childEntry image path (image.inode ii)).toList)
      else .ok names

/-- `get_children`, after the files were loaded. The cursor of a list that ends passes every
record once.
-/
def getChildren (path : Bytes) : List Image → List IndexEntry → Except Fault (List IndexEntry)
  | [], names => .ok names
  | tree :: rest, names => do
      let names ← scanRecords tree path (tree.header.numInodes + 1)
        (tree.header.inodeList % 2 ^ 32) names
      getChildren path rest names

end BPLUSIndexLoader

end ZippyFS
