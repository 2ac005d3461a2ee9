import Mathlib.Data.Set.Defs
import ZippyFS.FuseOps
import ZippyFS.Lib.Runs

/-! The cache as a transition system: operations as events, and what each operation leaves
behind. Later proofs use these descriptions and do not look at the operations again.
-/

namespace ZippyFS

open Runs

/-- A call of an operation. -/
inductive Op where
  | makeFile (path : Bytes) (mode : UInt32) (dirty : Bool)
  | write (path buf : Bytes) (offset : Nat)
  | truncate (path : Bytes) (size : Nat)
  | remove (path : Bytes)
  | rmdir (path : Bytes)
  | rename (from_ to_ : Bytes)
  | symlink (from_ to_ : Bytes)
  | open_ (path : Bytes)
  | read (path : Bytes) (size offset : Nat)
  | readlink (path : Bytes) (size : Nat)
  | getattr (path : Bytes)
  | getRefs (path : Bytes)
  | inCache (path : Bytes)
  | loadFromDisk (path : Bytes)
  | getInodeByPath (path : Bytes)
  | flushToDisk
  | flushToShdw (onClose : Bool)
  | loadTrees (order : VisitOrder)
  | readdir (order : VisitOrder) (path : Bytes)

/-- The paths that a call names as files to work on. -/
def Op.paths : Op → List Bytes
  | makeFile path _ _ | write path _ _ | truncate path _ | remove path | rmdir path
  | open_ path | read path _ _ | readlink path _ | getattr path | getRefs path | inCache path
  | loadFromDisk path | getInodeByPath path => [path]
  | rename from_ to_ | symlink from_ to_ => [from_, to_]
  | flushToDisk | flushToShdw _ | loadTrees _ | readdir _ _ => []

/-- A call, the time it read, and its return value. -/
structure Event where
  now : Clock
  op : Op
  result : Int

/-- Carry out a call. Of its results the return code is kept, 0 where there is none. The code of
a write is its count before the conversion to `int`, which tells a write that failed from one of
2³² - 1 bytes.
-/
def step (env : Env) (now : Clock) (cache : BlockCache) : Op → Except Fault (Int × BlockCache)
  | .makeFile path mode dirty => .ok (0, cache.makeFile env now path mode dirty)
  | .write path buf offset => cache.writeCounted env now path buf offset
  | .truncate path size => cache.truncate now path size
  | .remove path => cache.remove now path
  | .rmdir path => cache.rmdir now path
  | .rename from_ to_ => cache.rename env now from_ to_
  | .symlink from_ to_ => .ok (0, cache.symlink env now from_ to_)
  | .open_ path => cache.open_ env now path
  | .read path size offset => do
      let (result, _, cache) ← cache.read env now path size offset
      .ok (result, cache)
  | .readlink path size => do
      let (result, _) ← cache.readlink env path size
      .ok (result, cache)
  | .getattr path => do
      let (result, _) ← cache.getattr env path
      .ok (result, cache)
  | .getRefs path => do
      let _ ← cache.getRefs path
      .ok (0, cache)
  | .inCache path => .ok (if cache.inCache path then 0 else -1, cache)
  | .loadFromDisk path => cache.loadFromDisk env now path
  | .getInodeByPath path => .ok (0, cache.indexed path)
  | .flushToDisk => cache.flushToDisk env
  | .flushToShdw onClose => cache.flushToShdw env onClose
  | .loadTrees order => .ok (0, cache.loadTrees order)
  | .readdir order path => do
      let (_, cache) ← cache.readdir order path
      .ok (0, cache)

/-- A call that returned. -/
def Steps (env : Env) (cache : BlockCache) (event : Event) (next : BlockCache) : Prop :=
  step env event.now cache event.op = .ok (event.result, next)

/-- The paths that the calls of a run name. -/
def named (events : List Event) : Set Bytes := {path | ∃ event ∈ events, path ∈ event.op.paths}

end ZippyFS
