import Mathlib.Data.Finset.Basic
import Mathlib.Tactic.Order.ToInt
import ZippyFS.Cache.Block

/-! Inodes: what the cache knows about one path. Blocks are shared pointers, so an inode
holds references; the block heap belongs to the cache.
-/

namespace ZippyFS

/-- A shared pointer to a block: the number of the operation that allocated it and the
block index it was allocated for.
-/
abbrev BlockRef := Nat × Nat

/-- `class Inode`. -/
structure Inode where
  path : Bytes
  mode : UInt32
  nlink : UInt32
  ulMtime : Nat
  ulCtime : Nat
  tsMtime : Timespec
  tsCtime : Timespec
  tsAtime : Timespec
  size : Nat
  deleted : Bool
  dirty : Bool
  inodeId : Bytes
  links : Finset Bytes
  blocks : Std.ExtTreeMap Nat BlockRef

/-- The members of `struct stat` that are filled in. -/
structure Stat where
  stMode : UInt32
  stNlink : UInt32
  stBlocks : Nat
  stSize : Nat
  stCtim : Timespec
  stMtim : Timespec
  stAtim : Option Timespec

/-- `S_IFMT`, `S_IFDIR` and `S_IFLNK`. -/
def S_IFMT : UInt32 := 0o170000
def S_IFDIR : UInt32 := 0o040000
def S_IFLNK : UInt32 := 0o120000

/-- `S_ISDIR`. -/
def isDirMode (mode : UInt32) : Bool := mode &&& S_IFMT = S_IFDIR

/-- `S_ISLNK`. -/
def isLinkMode (mode : UInt32) : Bool := mode &&& S_IFMT = S_IFLNK

namespace Inode

/-- `fill_time`. -/
def fillTime (now : Clock) : Timespec :=
  ⟨now.nanoseconds / 1000000000, now.nanoseconds % 1000000000⟩

/-- The constructor `Inode(path)`. It leaves the mode unset; every caller sets it next. -/
def new (env : Env) (now : Clock) (path : Bytes) : Inode where
  path := path
  mode := 0
  nlink := 1
  ulMtime := Util.getTime now
  ulCtime := Util.getTime now
  tsMtime := fillTime now
  tsCtime := fillTime now
  tsAtime := fillTime now
  size := 0
  deleted := false
  dirty := false
  inodeId := Util.cryptoHash env path
  links := {path}
  blocks := ∅

/-- The constructor `Inode(path, that)`: the contents and the refs of `that` under `path`. -/
def copyOf (env : Env) (now : Clock) (path : Bytes) (that : Inode) : Inode where
  path := path
  mode := that.mode
  nlink := that.nlink
  ulMtime := Util.getTime now
  ulCtime := Util.getTime now
  tsMtime := fillTime now
  tsCtime := fillTime now
  tsAtime := fillTime now
  size := that.size
  deleted := false
  dirty := false
  inodeId := Util.cryptoHash env path
  links := that.links
  blocks := that.blocks

/-- `set_mode`. -/
def setMode (now : Clock) (inode : Inode) (mode : UInt32) : Inode :=
  { inode with
    nlink := if isDirMode mode then (if inode.nlink < 2 then 2 else inode.nlink) else inode.nlink
    mode := mode
    ulMtime := Util.getTime now }

/-- `dec_link`. -/
def decLink (inode : Inode) (path : Bytes) : Inode :=
  { inode with
    nlink := inode.nlink - 1
    links := inode.links.erase path
    blocks := if inode.nlink - 1 = 0 then ∅ else inode.blocks }

/-- `has_block`. -/
def hasBlock (inode : Inode) (blockIndex : Nat) : Bool := blockIndex ∈ inode.blocks

/-- `get_block` also stamps the modification time. -/
def touch (now : Clock) (inode : Inode) : Inode :=
  { inode with ulMtime := Util.getTime now }

/-- `update_mtime`. -/
def updateMtime (now : Clock) (inode : Inode) : Inode :=
  { inode with ulMtime := Util.getTime now, tsMtime := fillTime now, dirty := true }

/-- `set_size`. -/
def setSize (now : Clock) (inode : Inode) (size : Nat) : Inode :=
  { inode.updateMtime now with size := size, dirty := true }

/-- `delete_inode`. -/
def deleteInode (now : Clock) (inode : Inode) : Inode :=
  { inode.updateMtime now with links := ∅, nlink := 0, blocks := ∅, deleted := true }

/-- `set_dirty`. -/
def setDirty (inode : Inode) : Inode := { inode with dirty := true }

/-- `undo_dirty`. -/
def undoDirty (inode : Inode) : Inode := { inode with dirty := false }

/-- `set_id`. -/
def setId (inode : Inode) (id : Bytes) : Inode := { inode with inodeId := id }

/-- `set_nlink`. -/
def setNlink (inode : Inode) (nlink : UInt32) : Inode := { inode with nlink := nlink }

/-- `set_mtime`. -/
def setMtime (inode : Inode) (mtime : Nat) : Inode :=
  { inode with ulMtime := mtime, tsMtime := ⟨mtime / 1000, (mtime % 1000) * 1000000⟩ }

/-- `set_ctime`. -/
def setCtime (inode : Inode) (ctime : Nat) : Inode :=
  { inode with ulCtime := ctime, tsCtime := ⟨ctime / 1000, (ctime % 1000) * 1000000⟩ }

/-- `add_block`. -/
def addBlock (now : Clock) (inode : Inode) (blockIndex : Nat) (block : BlockRef) : Inode :=
  { inode.updateMtime now with blocks := inode.blocks.insert blockIndex block }

/-- `remake_inode`. -/
def remakeInode (inode : Inode) : Inode := { inode with deleted := false }

/-- `stat`. -/
def stat (inode : Inode) : Stat where
  stMode := inode.mode
  stNlink := inode.nlink
  stBlocks := inode.blocks.size
  stSize := inode.size
  stCtim := inode.tsCtime
  stMtim := inode.tsMtime
  stAtim := some inode.tsAtime

/-- The block loop of `read`. The counter has 32 bits; `offsetAmt` is the offset into the
first block, and zero for all later ones. A missing block dereferences the end iterator.
The result is what was stored into the caller's buffer.
-/
def readLoop (env : Env) (heap : BlockRef → Block) (inode : Inode) (size : Nat)
    : Nat → Nat → Nat → Bytes → Except Fault Bytes
  | 0, _, _, _ => .error .diverges
  | fuel + 1, blockIdx, offsetAmt, buf =>
      if blockIdx < inode.blocks.size ∧ buf.length < size then
        match inode.blocks[blockIdx]? with
        | none => .error .nullDeref
        | some ref =>
            let block := heap ref
            let blockData := block.copied env block.actualSize
            let buf := buf ++ (blockData.drop offsetAmt).take (size - buf.length)
            readLoop env heap inode size fuel ((blockIdx + 1) % 2 ^ 32) 0 buf
      else .ok buf

/-- `read` up to its return: the bytes stored into the caller's buffer. A loop that stores no
byte while its counter goes once round all its values never ends.
-/
def readBytes (env : Env) (heap : BlockRef → Block) (inode : Inode) (size offset : Nat)
    : Except Fault Bytes :=
  let offsetAmt := if offset < SIZE then offset else offset % SIZE
  readLoop env heap inode size (2 ^ 32 * (size + 1) + 1) (offset / SIZE % 2 ^ 32) offsetAmt []

/-- `read`: the return value, which is `size` whatever was stored, and the stored bytes. -/
def read (env : Env) (heap : BlockRef → Block) (inode : Inode) (size offset : Nat)
    : Except Fault (Int × Bytes) := do
  let bytes ← inode.readBytes env heap size offset
  .ok (Util.toInt size, bytes)

end Inode

end ZippyFS
