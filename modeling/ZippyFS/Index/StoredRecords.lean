import ZippyFS.Index.TreeFile

/-! What files hold of a path: the records under its hash, and the versions of its blocks with the
bytes that their entries point to.
-/

namespace ZippyFS

-----------------------------------------------------------------------------------------
-- Records and blocks in the files
-----------------------------------------------------------------------------------------

/-- The record that a file holds under the hash of a path. -/
def Image.recordOf (env : Env) (path : Bytes) (image : Image) : Option InodeRecord :=
  match BPLUSIndexLoader.findInTree image (Util.cryptoHash env path) with
  | .ok (some inodeoff) => some (image.inode inodeoff.toNat)
  | _ => none

/-- The block list of a record, with the bytes that its entries point to. -/
def Image.blocksOf (image : Image) (record : InodeRecord) : List StoredBlock :=
  if record.blockData = -1 then []
  else (image.blockEntries record.blockData.toNat record.blockDataSize).map image.storedBlock

/-- All records of a path. -/
def recordsOf (env : Env) (images : List Image) (path : Bytes) : List InodeRecord :=
  images.filterMap (·.recordOf env path)

/-- All versions of one block of a path. -/
def blocksOf (env : Env) (images : List Image) (path : Bytes) (blockIdx : Nat)
    : List StoredBlock :=
  (images.flatMap (fun image => (image.recordOf env path).toList.flatMap image.blocksOf)).filter
    (fun stored => decide (stored.blockId = blockIdx))

theorem mem_blocksOf {env : Env} {images : List Image} {path : Bytes} {blockIdx : Nat}
    {stored : StoredBlock}
    : stored ∈ blocksOf env images path blockIdx
      ↔ stored.blockId = blockIdx
        ∧ ∃ image ∈ images, ∃ record, image.recordOf env path = some record
          ∧ stored ∈ image.blocksOf record := by
  simp only [blocksOf, List.mem_filter, List.mem_flatMap, Option.mem_toList,
    decide_eq_true_eq]
  exact and_comm

/-- A record that stores what a call asked for. -/
structure Image.Stores (env : Env) (image : Image) (record : InodeRecord) (call : AddCall)
    : Prop where
  mode : record.mode = call.inode.mode
  mtime : record.mtime = call.inode.ulMtime
  size : record.size = call.inode.size
  deleted : record.deleted = call.inode.deleted
  blocks : image.blocksOf record = call.storedBlocks env

variable {env : Env} {path : Bytes}

theorem Image.recordOf_eq {image : Image} {inodeoff : Nat}
    (search
      : BPLUSIndexLoader.findInTree image (Util.cryptoHash env path)
        = .ok (some (inodeoff : Int)))
    : image.recordOf env path = some (image.inode inodeoff) := by
  rw [Image.recordOf, search]
  rfl

/-- A record in place stores what its call asked for. -/
theorem RecordAt.stores {image : Image} {place : Place} {call : AddCall}
    (record : RecordAt env image.mem place call)
    : image.Stores env (image.inode place.inodeOf) call where
  mode := record.mode
  mtime := record.mtime
  size := record.size
  deleted := record.deleted
  blocks := by
    have pointer : (image.inode place.inodeOf).blockData
        = if call.dirtyBlocks.size = 0 then -1 else (place.entryOf : Int) := record.blockData
    rw [Image.blocksOf, pointer]
    by_cases empty : call.dirtyBlocks.size = 0
    · have none : call.dirtyBlocks.toList = [] := by
        rw [← List.length_eq_zero_iff, Std.ExtTreeMap.length_toList, empty]
      rw [if_pos empty, if_pos rfl, AddCall.storedBlocks, none, List.map_nil]
    · rw [if_neg empty, if_neg (by omega)]
      have read := record.storedBlocks empty
      rwa [pointer, if_neg empty] at read

/-- A file holds a record for a path exactly if one of its calls inserted the hash. -/
theorem TreeFile.recordOf_cases (file : TreeFile env) (path : Bytes)
    : (file.find (Util.cryptoHash env path) = none ∧ file.image.recordOf env path = none)
      ∨ ∃ call record,
          file.find (Util.cryptoHash env path) = some call
          ∧ file.image.recordOf env path = some record
          ∧ file.image.Stores env record call := by
  rcases file.search (Util.cryptoHash env path) with
    ⟨absent, search⟩ | ⟨call, place, found, search, record⟩
  · exact Or.inl ⟨absent, by rw [Image.recordOf, search]⟩
  · exact Or.inr ⟨call, _, found, Image.recordOf_eq search, record.stores⟩

/-- A call that stores nothing behind a time. -/
structure AddCall.UpTo (last : Nat) (call : AddCall) : Prop where
  inode : call.inode.ulMtime ≤ last
  blocks : ∀ blockIdx : Nat, call.blockMtime[blockIdx]?.getD 0 ≤ last

end ZippyFS
