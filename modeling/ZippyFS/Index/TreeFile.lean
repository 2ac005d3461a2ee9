import ZippyFS.Index.RecordDecode
import ZippyFS.Lib.NewestWins

/-! Finished files and the search over several of them: what the loader's loop computes from
images is a fold over the calls that wrote them.
-/

namespace ZippyFS

open CellMemory StructLayout

/-- A file written by a sequence of calls within its limits. -/
structure TreeFile (env : Env) where
  caps : Capacities
  calls : List AddCall
  made : calls ≠ []
  fits : caps.Respected calls
  valid : ValidIds calls

namespace TreeFile

/-- A file with one record. -/
def single (env : Env) (call : AddCall) (short : call.inode.inodeId.length < HASH_SIZE)
    (clean : (0 : UInt8) ∉ call.inode.inodeId)
    : TreeFile env where
  caps := ⟨1, AddCall.totalBytes [call], AddCall.totalBlocks [call], AddCall.totalPaths [call]⟩
  calls := [call]
  made := List.cons_ne_nil _ _
  fits := ⟨le_refl 1, le_refl _, le_refl _, le_refl _⟩
  valid := ⟨by simpa using short, by simpa using clean, List.nodup_singleton _⟩

variable {env : Env}

/-- The bytes of the file. -/
def image (file : TreeFile env) : Image :=
  match addAll env file.caps file.calls with
  | .ok index => index.image
  | .error _ => ⟨0, Mem.zero⟩

/-- The call that inserted an id. -/
def find (file : TreeFile env) (phash : Bytes) : Option AddCall :=
  file.calls.find? (fun call => decide (call.inode.inodeId = phash))

/-- A file holds what its calls built. -/
theorem built (file : TreeFile env)
    : ∃ index spans root top, file.image = index.image
        ∧ Built env file.caps index file.calls spans root top := by
  obtain ⟨index, spans, root, top, outcome, built⟩ :=
    addAll_built env file.made file.fits file.valid
  exact ⟨index, spans, root, top, by simp only [image, outcome], built⟩

/-- The call found is in the file under its id. -/
theorem find_eq_some_iff (file : TreeFile env) (phash : Bytes) (call : AddCall)
    : file.find phash = some call ↔ call ∈ file.calls ∧ call.inode.inodeId = phash := by
  constructor
  · intro found
    exact ⟨List.mem_of_find?_eq_some found, by simpa using List.find?_some found⟩
  · rintro ⟨member, rfl⟩
    have some_ : (file.find call.inode.inodeId).isSome := by
      rw [find, List.find?_isSome]
      exact ⟨call, member, by simp⟩
    obtain ⟨other, found⟩ := Option.isSome_iff_exists.mp some_
    have inside := List.mem_of_find?_eq_some found
    have same : other.inode.inodeId = call.inode.inodeId := by
      simpa using List.find?_some found
    rw [found, List.inj_on_of_nodup_map file.valid.distinct inside member same]

/-- The loader finds the record of the call that inserted the id. -/
theorem search (file : TreeFile env) (phash : Bytes)
    : (file.find phash = none
        ∧ BPLUSIndexLoader.findInTree file.image phash = .ok none)
      ∨ ∃ call place,
          file.find phash = some call
          ∧ BPLUSIndexLoader.findInTree file.image phash = .ok (some (place.inodeOf : Int))
          ∧ RecordAt env file.image.mem place call := by
  obtain ⟨index, spans, root, top, image, built⟩ := file.built
  obtain ⟨result, ended, found⟩ := BPLUSIndexLoader.findInTree_iff built.ok built.tree phash
  rw [image, ended]
  cases known : file.find phash with
  | none =>
      refine Or.inl ⟨rfl, ?_⟩
      cases result with
      | none => rfl
      | some value =>
          obtain ⟨before, call, after, split, pair⟩ :=
            (built.stored _).mp ((found value).mp rfl)
          have member : call ∈ file.calls := by simp [split]
          have there := (file.find_eq_some_iff phash call).mpr
            ⟨member, (Prod.mk.inj pair).1.symm⟩
          simp [known] at there
  | some call =>
      obtain ⟨member, rfl⟩ := (file.find_eq_some_iff phash call).mp known
      obtain ⟨before, after, split⟩ := List.append_of_mem member
      refine Or.inr ⟨call, placeAfter file.caps before, rfl, ?_,
        built.records before call after split⟩
      rw [(found _).mpr ((built.stored _).mpr ⟨before, call, after, split, rfl⟩)]

end TreeFile

namespace BPLUSIndexLoader

variable {env : Env}

/-- Take over the attributes a call stored. -/
def takeCall (phash : Bytes) (latest : DiskInodeInfo) (call : AddCall) : DiskInodeInfo :=
  { latest with
    mode := call.inode.mode
    size := call.inode.size
    nlink := call.inode.nlink
    mtime := call.inode.ulMtime
    ctime := call.inode.ulCtime
    inodeId := phash
    deleted := call.inode.deleted }

/-- What one visited file does to the latest time and the info. -/
def visitCall (env : Env) (phash : Bytes) (getData : Bool) (state : Nat × DiskInodeInfo)
    (call : AddCall)
    : Nat × DiskInodeInfo :=
  let newer := decide (state.1 < call.inode.ulMtime)
  let latest := if newer then takeCall phash state.2 call else state.2
  (if newer then call.inode.ulMtime else state.1,
    if getData then
      (call.versions env).foldl
        (fun latest version => keepBlock latest version.blockId version.mtime version.block)
        latest
    else latest)

/-- The calls whose records the loop reads: it stops at a file without one, and, if data is
asked for, behind a record without data.
-/
def visited (getData : Bool) : List (Option AddCall) → List AddCall
  | [] => []
  | none :: _ => []
  | some call :: rest =>
      if getData ∧ call.dirtyBlocks.isEmpty then [call] else call :: visited getData rest

/-- Reading a block list keeps the versions that its call stored. -/
theorem foldl_addBlock {image : Image} {place : Place} {call : AddCall}
    (record : RecordAt env image.mem place call) (data : call.dirtyBlocks.size ≠ 0)
    (latest : DiskInodeInfo)
    : (image.blockEntries (image.inode place.inodeOf).blockData.toNat
          (image.inode place.inodeOf).blockDataSize).foldl (addBlock image) latest
      = (call.versions env).foldl
        (fun latest version => keepBlock latest version.blockId version.mtime version.block)
        latest := by
  rw [← record.versions data, List.foldl_map]
  rfl

/-- The loop over files is a fold over the visited calls, by induction on the files. -/
theorem visitTrees_files (phash : Bytes) (getData : Bool) (files : List (TreeFile env))
    (latestTime : Nat) (latest : DiskInodeInfo)
    : visitTrees phash getData (files.map (·.image)) latestTime latest
      = .ok ((visited getData (files.map (·.find phash))).foldl
        (visitCall env phash getData) (latestTime, latest)).2 := by
  induction files generalizing latestTime latest with
  | nil => rfl
  | cons file rest ih =>
      rw [List.map_cons, List.map_cons, visitTrees]
      rcases file.search phash with ⟨absent, outcome⟩ | ⟨call, place, found, outcome, record⟩
      · simp only [outcome, absent, bind, Except.bind, visited, List.foldl_nil]
      · have mtime : (file.image.inode place.inodeOf).mtime = call.inode.ulMtime := record.mtime
        have taken : takeRecord phash latest (file.image.inode place.inodeOf)
            = takeCall phash latest call := by
          simp only [takeRecord, takeCall, Image.inode, record.mode, record.nlink, record.mtime,
            record.ctime, record.size, record.deleted]
        have pointer : (file.image.inode place.inodeOf).blockData
            = if call.dirtyBlocks.size = 0 then -1 else (place.entryOf : Int) :=
          record.blockData
        simp only [outcome, found, bind, Except.bind, Int.toNat_natCast, mtime, taken]
        cases getData with
        | false =>
            simp only [Bool.false_eq_true, if_false, visited, false_and, ih, List.foldl_cons,
              visitCall]
        | true =>
            by_cases empty : call.dirtyBlocks.size = 0
            · have none : call.dirtyBlocks.toList = [] := by
                rw [← List.length_eq_zero_iff, Std.ExtTreeMap.length_toList, empty]
              simp only [pointer, empty, if_true, visited, true_and,
                Std.ExtTreeMap.isEmpty_eq_size_beq_zero, beq_self_eq_true, List.foldl_cons,
                List.foldl_nil, visitCall, AddCall.versions, none, List.map_nil]
            · have present : ¬ ((place.entryOf : Int) = -1) := by omega
              have read := foldl_addBlock record empty
              simp only [pointer, if_neg empty] at read
              simp only [if_true, pointer, if_neg empty, present, if_false, visited, true_and,
                Std.ExtTreeMap.isEmpty_eq_size_beq_zero, beq_iff_eq, ih, List.foldl_cons,
                visitCall, read]

end BPLUSIndexLoader

end ZippyFS
