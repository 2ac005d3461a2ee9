import ZippyFS.Cache.BlockCache

/-! The handlers that FUSE calls. They hand most requests on to the block cache. -/

namespace ZippyFS

/-- `basename`: the last component of a path, without trailing slashes. -/
def basename (path : Bytes) : Bytes :=
  let stripped := (path.reverse.dropWhile (fun byte : UInt8 => decide (byte = 47)))
  if path = [] then [46]
  else if stripped = [] then [47]
  else (stripped.takeWhile (fun byte : UInt8 => decide (byte ≠ 47))).reverse

namespace FuseOps

/-- What `zippyfs_getattr` reports for the root. -/
def rootStat : Stat where
  stMode := S_IFDIR ||| 0o755
  stNlink := 2
  stBlocks := 0
  stSize := 0
  stCtim := ⟨0, 0⟩
  stMtim := ⟨0, 0⟩
  stAtim := none

/-- `zippyfs_getattr`. -/
def getattr (env : Env) (cache : BlockCache) (path : Bytes)
    : Except Fault (Int × Option Stat) :=
  if path.length = 1 then .ok (0, some rootStat) else cache.getattr env path

/-- `zippyfs_readdir`: the names passed to the filler, and the cache. -/
def readdir (cache : BlockCache) (order : VisitOrder) (path : Bytes)
    : Except Fault (List Bytes × BlockCache) := do
  let (vec, cache) ← cache.readdir order path
  let addedNames := vec.foldl
    (fun (names : Std.ExtTreeMap Bytes IndexEntry) ent => names.insert ent.path ent) ∅
  let listed := addedNames.toList.filter (fun entry => !entry.2.deleted)
  .ok (listed.map (fun entry => basename entry.1) ++ [[46], [46, 46]], cache)

/-- `zippyfs_read`: the return value, the bytes stored into the caller's buffer, and the cache.
What the cache returns is not looked at.
-/
def read (env : Env) (now : Clock) (cache : BlockCache) (path : Bytes) (size offset : Nat)
    : Except Fault (Int × Bytes × BlockCache) := do
  let (_, bytes, cache) ← cache.read env now path size offset
  .ok (Util.toInt size, bytes, cache)

/-- `zippyfs_open`. -/
def open_ (env : Env) (now : Clock) (cache : BlockCache) (path : Bytes)
    : Except Fault (Int × BlockCache) :=
  cache.open_ env now path

/-- `zippyfs_write`. Neither the result of the write nor that of the flush is looked at. -/
def write (env : Env) (now : Clock) (cache : BlockCache) (path buf : Bytes) (offset : Nat)
    : Except Fault (Int × BlockCache) := do
  let (_, cache) ← cache.write env now path buf offset
  let (_, cache) ← cache.flushToShdw env false
  .ok (Util.toInt buf.length, cache)

/-- `zippyfs_unlink`. -/
def unlink (now : Clock) (cache : BlockCache) (path : Bytes) : Except Fault (Int × BlockCache) :=
  cache.remove now path

/-- `zippyfs_rmdir`. -/
def rmdir (now : Clock) (cache : BlockCache) (path : Bytes) : Except Fault (Int × BlockCache) :=
  cache.rmdir now path

/-- `zippyfs_rename`. -/
def rename (env : Env) (now : Clock) (cache : BlockCache) (from_ to_ : Bytes)
    : Except Fault (Int × BlockCache) :=
  cache.rename env now from_ to_

/-- `zippyfs_truncate`. Neither result is looked at here either. -/
def truncate (env : Env) (now : Clock) (cache : BlockCache) (path : Bytes) (size : Nat)
    : Except Fault (Int × BlockCache) := do
  let (_, cache) ← cache.truncate now path size
  let (_, cache) ← cache.flushToShdw env false
  .ok (0, cache)

end FuseOps

end ZippyFS
