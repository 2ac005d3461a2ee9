import ZippyFS.Lib.StructLayout
import ZippyFS.Util

/-! The structures of an index file and where their members lie. -/

namespace ZippyFS

open CellMemory StructLayout

/-- `ORDER`, the most children a node can have. -/
def ORDER : Nat := 24

/-- `HASH_SIZE`, the room for one key with its terminator. -/
def HASH_SIZE : Nat := 128

/-- `struct header`. -/
structure Header where
  numInodes : Nat
  inodeList : Nat
  root : Nat
  deriving DecidableEq

/-- `struct inode`. A `blockData` of -1 means that the record has no data. -/
structure InodeRecord where
  mode : UInt32
  nlink : UInt32
  mtime : Nat
  ctime : Nat
  size : Nat
  deleted : Bool
  path : Nat
  pathSize : Nat
  hash : Nat
  blockData : Int
  blockDataSize : Nat
  deriving DecidableEq

/-- `struct block_data`. -/
structure BlockData where
  blockId : Nat
  mtime : Nat
  size : Nat
  dataOffset : Nat
  deriving DecidableEq

/-- `struct node`. Only the first `numKeys` keys and values, and one child more, are live. -/
structure IndexNode where
  parent : Int
  keys : Vector Int (ORDER - 1)
  numKeys : Nat
  isLeaf : Bool
  children : Vector Nat ORDER
  values : Vector Int (ORDER - 1)

/-- A 32-bit member. -/
def uint32Layout : Layout UInt32 :=
  (Layout.nat 3).retract UInt32.ofNat UInt32.toNat (fun _ => UInt32.ofNat_toNat)

/-- A 64-bit unsigned member. -/
abbrev uint64Layout : Layout Nat := Layout.nat 7

/-- A 64-bit signed member. -/
abbrev int64Layout : Layout Int := Layout.int 7

/-- Three members of 64 bits. -/
def headerLayout : Layout Header :=
  (uint64Layout.pair (uint64Layout.pair uint64Layout)).retract
    (fun members => ⟨members.1, members.2.1, members.2.2⟩)
    (fun header => (header.numInodes, header.inodeList, header.root)) (fun _ => rfl)

/-- Four members of 64 bits. -/
def blockDataLayout : Layout BlockData :=
  (uint64Layout.pair (uint64Layout.pair (uint64Layout.pair uint64Layout))).retract
    (fun members => ⟨members.1, members.2.1, members.2.2.1, members.2.2.2⟩)
    (fun entry => (entry.blockId, entry.mtime, entry.size, entry.dataOffset)) (fun _ => rfl)

/-- The compiler pads the flag `deleted` so that the member behind it starts at a multiple of
eight.
-/
def inodeLayout : Layout InodeRecord :=
  (uint32Layout.pair
    (uint32Layout.pair
      (uint64Layout.pair
        (uint64Layout.pair
          (uint64Layout.pair
            (((Layout.flag 3).padded 4).pair
              (uint64Layout.pair
                (uint64Layout.pair
                  (uint64Layout.pair (int64Layout.pair uint64Layout)))))))))).retract
    (fun (mode, nlink, mtime, ctime, size, deleted, path, pathSize, hash, blockData,
        blockDataSize) =>
      ⟨mode, nlink, mtime, ctime, size, deleted, path, pathSize, hash, blockData,
        blockDataSize⟩)
    (fun inode =>
      (inode.mode, inode.nlink, inode.mtime, inode.ctime, inode.size, inode.deleted,
        inode.path, inode.pathSize, inode.hash, inode.blockData, inode.blockDataSize))
    (fun _ => rfl)

/-- The arrays lie inside the node, and the flag `is_leaf` is padded like that of an inode. -/
def nodeLayout : Layout IndexNode :=
  (int64Layout.pair
    ((int64Layout.array (ORDER - 1)).pair
      (uint64Layout.pair
        (((Layout.flag 0).padded 7).pair
          ((uint64Layout.array ORDER).pair (int64Layout.array (ORDER - 1))))))).retract
    (fun (parent, keys, numKeys, isLeaf, children, values) =>
      ⟨parent, keys, numKeys, isLeaf, children, values⟩)
    (fun node =>
      (node.parent, node.keys, node.numKeys, node.isLeaf, node.children, node.values))
    (fun _ => rfl)

/-- The sizes are those that `sizeof` gives. -/
@[simp] theorem headerLayout_size : headerLayout.size = 24 := rfl
@[simp] theorem blockDataLayout_size : blockDataLayout.size = 32 := rfl
@[simp] theorem inodeLayout_size : inodeLayout.size = 80 := rfl
@[simp] theorem nodeLayout_size : nodeLayout.size = 584 := rfl

/-- A node in fresh memory has no keys. -/
@[simp] theorem nodeLayout_zero_numKeys : nodeLayout.zero.numKeys = 0 := rfl

end ZippyFS
