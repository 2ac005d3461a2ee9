import Mathlib.Data.Set.Function
import ZippyFS.Cache.Pointers

/-! Without links to other paths, every cached path leads to an inode of that path. Paths whose
hashes differ then do not share inodes, and a change of one path is seen under that path only.
-/

namespace ZippyFS

open Runs

namespace BlockCache

variable {env : Env} {now : Clock} {cache next : BlockCache} {path other : Bytes}
  {result : Int} {inode before after : Inode} {names : Set Bytes}

/-- Every cached path leads to an inode of that path, and the names have different hashes. -/
structure Coherent (env : Env) (names : Set Bytes) (cache : BlockCache) : Prop where
  pointed : Pointed env names cache
  own : ∀ (path : Bytes) (inode : Inode), cache.find path = some inode → inode.path = path
  apart : Set.InjOn (Util.cryptoHash env) names

/-- A cached path is filed under its hash. -/
theorem Coherent.idx (coherent : Coherent env names cache) (here : path ∈ cache.inodeIdx)
    : cache.inodeIdx[path]? = some (Util.cryptoHash env path) ∧ path ∈ names := by
  obtain ⟨inode, found⟩ := coherent.pointed.found here
  obtain ⟨known, named, member⟩ := coherent.pointed.of_find found
  obtain own := coherent.own path inode found
  rw [own] at member
  rw [known, named, own]
  exact ⟨rfl, member⟩

/-- The index and the inodes agree on which paths are cached. -/
theorem Coherent.mem_iff (coherent : Coherent env names cache)
    : path ∈ cache.inodeIdx ↔ (cache.find path).isSome := by
  constructor
  · intro here
    obtain ⟨inode, found⟩ := coherent.pointed.found here
    rw [found]
    rfl
  · intro found
    obtain ⟨inode, found⟩ := Option.isSome_iff_exists.mp found
    exact mem_of_find found

/-- What is found for a path depends on the entry of the path and the pointer under its hash. -/
theorem Coherent.find_eq (coherent : Coherent env names cache) (path : Bytes)
    : cache.find path
      = if path ∈ cache.inodeIdx then cache.inodePtrs[Util.cryptoHash env path]?.join
        else none := by
  split
  case isTrue here => simp only [find, (coherent.idx here).1]
  case isFalse away => simp only [find, Std.ExtTreeMap.getElem?_eq_none away]

/-- Filing an inode under its own path does not change other paths. -/
theorem Coherent.find_put (coherent : Coherent env names cache) (member : path ∈ names)
    (named : inode.Named env) (own : inode.path = path)
    : (cache.put path inode).find other
      = if other = path then some inode else cache.find other := by
  split
  case isTrue same => rw [same, find_put_self]
  case isFalse different =>
    have kept : ¬ compare path other = .eq := fun equal =>
      different (Std.LawfulEqCmp.eq_of_compare equal).symm
    rw [coherent.find_eq]
    unfold find BlockCache.put
    dsimp only
    rw [Std.ExtTreeMap.getElem?_insert, if_neg kept]
    by_cases here : other ∈ cache.inodeIdx
    · obtain ⟨known, member'⟩ := coherent.idx here
      have elsewhere : ¬ compare inode.inodeId (Util.cryptoHash env other) = .eq := by
        intro equal
        have hashes := Std.LawfulEqCmp.eq_of_compare equal
        rw [named, own] at hashes
        exact different (coherent.apart member member' hashes).symm
      rw [known, if_pos here]
      dsimp only
      rw [Std.ExtTreeMap.getElem?_insert, if_neg elsewhere]
    · rw [Std.ExtTreeMap.getElem?_eq_none here, if_neg here]

/-- Changing the inode of one path does not change other paths. -/
theorem Coherent.find_set (coherent : Coherent env names cache) (here : path ∈ cache.inodeIdx)
    : (cache.set path inode).find other
      = if other = path then some inode else cache.find other := by
  split
  case isTrue same => rw [same, find_set_self here]
  case isFalse different =>
    obtain ⟨filed, member⟩ := coherent.idx here
    rw [coherent.find_eq]
    unfold find BlockCache.set
    dsimp only
    by_cases there : other ∈ cache.inodeIdx
    · obtain ⟨known, member'⟩ := coherent.idx there
      have elsewhere : ¬ compare (Util.cryptoHash env path) (Util.cryptoHash env other) = .eq := by
        intro equal
        exact different
          (coherent.apart member member' (Std.LawfulEqCmp.eq_of_compare equal)).symm
      rw [known, filed, Option.getD_some, if_pos there]
      dsimp only
      rw [Std.ExtTreeMap.getElem?_insert, if_neg elsewhere]
    · rw [Std.ExtTreeMap.getElem?_eq_none there, if_neg there]

/-- Taking a path off the links changes every inode that lists it. -/
theorem find_decLinks (cache : BlockCache) (path other : Bytes)
    : (cache.decLinks path).find other
      = (cache.find other).map (fun inode =>
        if path ∈ inode.links then inode.decLink path else inode) := by
  unfold find decLinks
  dsimp only
  cases cache.inodeIdx[other]? with
  | none => rfl
  | some id =>
      dsimp only
      rw [Std.ExtTreeMap.getElem?_map]
      cases cache.inodePtrs[id]? with
      | none => rfl
      | some ptr => cases ptr <;> rfl

/-- A removal of a cached file deletes the inode of the path, and keeps its size. -/
theorem remove_cached (found : cache.find path = some inode) (noNulls : cache.noNulls = true)
    (now : Clock)
    : ∃ lowered, (cache.decLinks path).find path = some lowered
      ∧ lowered.size = inode.size
      ∧ cache.remove now path
        = .ok (0, { (cache.decLinks path).deleted now path lowered with
          size := (cache.size + (2 ^ 64 - 1)) % 2 ^ 64 }) := by
  have here : cache.inCache path = true := by simp [inCache, mem_of_find found]
  have known : (cache.decLinks path).find path
      = some (if path ∈ inode.links then inode.decLink path else inode) := by
    rw [find_decLinks, found, Option.map_some]
  refine ⟨_, known, ?_, ?_⟩
  · split <;> rfl
  · rw [remove, if_pos here, if_pos noNulls, getInodeByPath_eq_ok.mpr known]
    rfl

-----------------------------------------------------------------------------------------
-- Every operation but links to other paths keeps it
-----------------------------------------------------------------------------------------

theorem Coherent.new (disk : List Image) (order : VisitOrder) (size : Nat)
    (apart : Set.InjOn (Util.cryptoHash env) names)
    : Coherent env names (BlockCache.new disk order size) where
  pointed := Pointed.new disk order size
  own := by simp [BlockCache.new, find]
  apart := apart

/-- Other members do not matter. -/
theorem Coherent.congr (coherent : Coherent env names cache)
    (idx : next.inodeIdx = cache.inodeIdx) (ptrs : next.inodePtrs = cache.inodePtrs)
    : Coherent env names next where
  pointed := coherent.pointed.congr idx ptrs
  own := by
    intro path inode found
    unfold find at found
    rw [idx, ptrs] at found
    exact coherent.own path inode found
  apart := coherent.apart

theorem Coherent.put (coherent : Coherent env names cache) (member : path ∈ names)
    (named : inode.Named env) (own : inode.path = path)
    : Coherent env names (cache.put path inode) where
  pointed := coherent.pointed.put path named (by rwa [own])
  own := by
    intro other found there
    rw [coherent.find_put member named own] at there
    split at there
    case isTrue same =>
      obtain rfl := Option.some.inj there
      rw [own, same]
    case isFalse => exact coherent.own other found there
  apart := coherent.apart

theorem Coherent.set (coherent : Coherent env names cache)
    (found : cache.find path = some before) (same : Inode.SameName before after)
    : Coherent env names (cache.set path after) where
  pointed := coherent.pointed.set found same
  own := by
    intro other there here
    rw [coherent.find_set (mem_of_find found)] at here
    split at here
    case isTrue equal =>
      obtain rfl := Option.some.inj here
      rw [same.path, coherent.own path before found, equal]
    case isFalse => exact coherent.own other there here
  apart := coherent.apart

theorem Coherent.decLinks (coherent : Coherent env names cache) (path : Bytes)
    : Coherent env names (cache.decLinks path) where
  pointed := coherent.pointed.decLinks path
  own := by
    intro other there here
    rw [find_decLinks, Option.map_eq_some_iff] at here
    obtain ⟨inode, found, rfl⟩ := here
    have own := coherent.own other inode found
    split <;> exact own
  apart := coherent.apart

theorem Coherent.loaded (coherent : Coherent env names cache) {di : DiskInodeInfo}
    (member : path ∈ names) (lookup : cache.loader.findLatestInode env path true = .ok di)
    (some : di.mtime ≠ 0)
    : Coherent env names (cache.loaded env now path di) := by
  have allocated : Coherent env names (cache.withBlocks di) := coherent.congr rfl rfl
  obtain ⟨own, named⟩ := loadedInode_named now lookup some
  exact allocated.put member named own

theorem Coherent.ensured (coherent : Coherent env names cache) (member : path ∈ names)
    (ensured : Ensured env now cache path result next)
    : Coherent env names next := by
  cases ensured with
  | cached here => exact coherent
  | absent away lookup none => exact coherent
  | loaded away lookup some => exact coherent.loaded member lookup some

theorem Coherent.makeFile (coherent : Coherent env names cache) (mode : UInt32) (dirty : Bool)
    (member : path ∈ names)
    : Coherent env names (cache.makeFile env now path mode dirty) := by
  cases dirty with
  | true =>
      have named : (((Inode.new env now path).setMode now mode).setDirty).Named env := rfl
      exact (coherent.put member named rfl).congr rfl rfl
  | false =>
      have named : ((Inode.new env now path).setMode now mode).Named env := rfl
      exact (coherent.put member named rfl).congr rfl rfl

theorem Coherent.deleted (coherent : Coherent env names cache)
    (found : cache.find path = some inode)
    : Coherent env names (cache.deleted now path inode) := by
  have emptied : Coherent env names (cache.set path (inode.deleteInode now)) :=
    coherent.set found ⟨rfl, rfl⟩
  exact emptied.congr rfl rfl

theorem Coherent.moved {from_ to_ : Bytes} {source : Inode}
    (coherent : Coherent env names cache) (member : to_ ∈ names)
    (found : cache.find from_ = some source)
    : Coherent env names (cache.moved env now from_ to_ source) := by
  have emptied : Coherent env names (cache.set from_ (source.deleteInode now)) :=
    coherent.set found ⟨rfl, rfl⟩
  have copied : (Inode.copyOf env now to_ source).Named env := rfl
  exact (emptied.put member copied rfl).congr rfl rfl

theorem Coherent.ready {middle : BlockCache} (coherent : Coherent env names cache)
    (member : path ∈ names) (ready : Ready env now cache path middle inode)
    : Coherent env names middle := by
  cases ready with
  | cached here found => exact coherent.set found ⟨rfl, rfl⟩
  | loaded away lookup some => exact coherent.loaded member lookup some

theorem Coherent.written {buf : Bytes} {offset : Nat} {state : Writing}
    (coherent : Coherent env names cache) (found : cache.find path = some inode)
    (loop : cache.runLoop now path buf offset inode = .ok state)
    : Coherent env names (cache.written path state) :=
  (coherent.set found (runLoop_sameName loop)).congr rfl rfl

theorem Coherent.flushed (coherent : Coherent env names cache)
    (flush : Flushed env cache result next)
    : Coherent env names next := by
  cases flush with
  | nothing unchanged => exact coherent
  | @flushed index changed filled =>
      have empty (path : Bytes) : (cache.flushed index).find path = none := by
        simp [BlockCache.flushed, find]
      exact {
        pointed := coherent.pointed.flushed (.flushed changed filled)
        own := fun path inode found => by simp [empty] at found
        apart := coherent.apart }

/-- A call from inside the cache that names only known paths and links none to another. -/
structure Plain (names : Set Bytes) (op : Op) : Prop where
  inside : ∀ path, op ≠ .getInodeByPath path
  members : ∀ path ∈ op.paths, path ∈ names
  unlinked : ∀ from_ to_, op = .symlink from_ to_ → from_ = to_

theorem Coherent.effect {op : Op} (coherent : Coherent env names cache) (plain : Plain names op)
    (effect : Effect env now cache op result next)
    : Coherent env names next := by
  have members := plain.members
  cases effect with
  | makeFile path mode dirty =>
      exact coherent.makeFile mode dirty (members path (List.mem_cons_self ..))
  | writeMissing missing => exact coherent
  | @write path buf offset middle inode state ready loop =>
      exact (coherent.ready (members path (List.mem_cons_self ..)) ready).written ready.found loop
  | truncateMissing away => exact coherent
  | @truncate path size inode here found =>
      have resized : Coherent env names (cache.set path (inode.setSize now size)) :=
        coherent.set found ⟨rfl, rfl⟩
      exact resized.congr rfl rfl
  | removeMissing away => exact coherent
  | @remove path inode here noNulls found =>
      have emptied : Coherent env names ((cache.decLinks path).deleted now path inode) :=
        (coherent.decLinks path).deleted found
      exact emptied.congr rfl rfl
  | rmdirMissing away => exact coherent
  | rmdir here found => exact coherent.deleted found
  | renameMissing missing => exact coherent
  | @renameOver from_ to_ first second source ensured target found =>
      have ready := coherent.ensured (members from_ (List.mem_cons_self ..)) ensured
      have member := members to_ (List.mem_cons_of_mem _ (List.mem_singleton_self _))
      exact (ready.ensured member target).moved member found
  | @renameNew from_ to_ first old source ensured target was found =>
      have ready := coherent.ensured (members from_ (List.mem_cons_self ..)) ensured
      have member := members to_ (List.mem_cons_of_mem _ (List.mem_singleton_self _))
      exact (ready.makeFile _ _ member).moved member found
  | symlink from_ to_ =>
      obtain rfl := plain.unlinked from_ to_ rfl
      have link : ((Inode.new env now from_).setMode now (S_IFLNK ||| 0o600)).Named env := rfl
      exact (coherent.put (members from_ (List.mem_cons_self ..)) link rfl).congr rfl rfl
  | @open_ path _ _ ensured => exact coherent.ensured (members path (List.mem_cons_self ..)) ensured
  | @read path _ _ _ _ _ _ ensured found bytes =>
      exact coherent.ensured (members path (List.mem_cons_self ..)) ensured
  | readlink outcome => exact coherent
  | getattr outcome => exact coherent
  | getRefs outcome => exact coherent
  | inCache path => exact coherent
  | @loadFromDisk path _ _ loaded =>
      have member := members path (List.mem_cons_self ..)
      cases loaded with
      | absent lookup none => exact coherent
      | kept here found lookup some newer => exact coherent.congr rfl rfl
      | replaced here found lookup some older => exact coherent.loaded member lookup some
      | loaded away lookup some => exact coherent.loaded member lookup some
  | getInodeByPath path => exact absurd rfl (plain.inside path)
  | flushToDisk flushed => exact coherent.flushed flushed
  | flushToShdwKept small => exact coherent
  | flushToShdw flushed => exact coherent.flushed flushed
  | loadTrees order => exact coherent.congr rfl rfl
  | readdir order path => exact coherent.congr rfl rfl

/-- After every run of plain calls the cache is coherent. -/
theorem Coherent.run {disk : List Image} {order : VisitOrder} {size : Nat} {events : List Event}
    (run : Run (Steps env) (BlockCache.new disk order size) events cache)
    (plain : ∀ event ∈ events, Plain names event.op)
    (apart : Set.InjOn (Util.cryptoHash env) names)
    : Coherent env names cache := by
  refine run.recorded.state_invariant (Coherent.new disk order size apart) ?_
  rintro state event next coherent ⟨member, taken⟩
  exact coherent.effect (plain event member) (step_effect taken)

/-- The paths `/a` and `/b` have different hashes. -/
theorem twoDigests_apart
    : Set.InjOn (Util.cryptoHash Util.twoDigests) {[47, 97], [47, 98]} := by
  have different : Util.cryptoHash Util.twoDigests [47, 97]
      ≠ Util.cryptoHash Util.twoDigests [47, 98] := by decide +kernel
  rintro first (rfl | rfl) second (rfl | rfl) same
  · rfl
  · exact absurd same different
  · exact absurd same.symm different
  · rfl

end BlockCache

end ZippyFS
