import ZippyFS.Cache.Archive
import ZippyFS.Cache.Transparency
import ZippyFS.Lib.Outcomes

/-! The paths in use, read off the calls that were made: a path is live if it was created, written
or renamed to, and not removed or renamed away since. `rename` is compared with a move of a live
path.
-/

namespace ZippyFS

open Runs Outcomes

/-- Whether a path is live after a call. -/
def Event.leavesLive (event : Event) (path : Bytes) (live : Bool) : Bool :=
  match event.op with
  | .makeFile made _ _ => if path = made then true else live
  | .symlink _ link => if path = link then true else live
  | .write written _ _ => if path = written ∧ 0 ≤ event.result then true else live
  | .remove gone | .rmdir gone => if path = gone ∧ event.result = 0 then false else live
  | .rename from_ to_ =>
      if event.result ≠ 0 then live
      else if path = to_ then true
      else if path = from_ then false else live
  | _ => live

/-- Whether a path is live after a turn. -/
def Turn.leavesLive (turn : Turn) (path : Bytes) (live : Bool) : Bool :=
  match turn with
  | .call event => event.leavesLive path live
  | .restart _ _ => live

/-- Whether a path is live after the turns of a run that starts with an empty directory. -/
def live (turns : List Turn) (path : Bytes) : Bool :=
  turns.foldl (fun live turn => turn.leavesLive path live) false

namespace BlockCache

variable {env : Env} {now : Clock} {cache next : BlockCache} {from_ to_ : Bytes} {result : Int}

-----------------------------------------------------------------------------------------
-- The law and the condition
-----------------------------------------------------------------------------------------

/-- The path of an entry of a directory. -/
def entry (dir name : Bytes) : Bytes := dir ++ 47 :: name

/-- A path has the contents that another path had, and is not deleted. -/
def TakesOver (env : Env) (cache : BlockCache) (from_ to_ : Bytes) (next : BlockCache) : Prop :=
  ∃ former, cache.fileState env from_ = .ok (some former)
    ∧ next.fileState env to_ = .ok (some { former with deleted := false })

/-- A path is not visible. -/
def Invisible (env : Env) (cache : BlockCache) (path : Bytes) : Prop :=
  cache.getattr env path = .ok (ENOENT, none)

/-- The target takes over from the source, with all live paths below a directory, and nothing is
visible where the source was.
-/
structure MovesFile (env : Env) (live : Bytes → Bool) (cache : BlockCache) (from_ to_ : Bytes)
    (next : BlockCache)
    : Prop where
  target : TakesOver env cache from_ to_ next
  source : from_ ≠ to_ → Invisible env next from_
  below
    : ∀ former, cache.fileState env from_ = .ok (some former) → isDirMode former.mode = true
      → from_ ≠ to_
      → ∀ name, live (entry from_ name) = true
        → TakesOver env cache (entry from_ name) (entry to_ name) next
          ∧ Invisible env next (entry from_ name)

/-- A rename of a live path succeeds and moves it; one of another path fails and changes nothing.
-/
def RenameLaw (env : Env) (now : Clock) (live : Bytes → Bool) (cache : BlockCache)
    (from_ to_ : Bytes)
    : Prop :=
  if live from_ = true then
    ∃ next, cache.rename env now from_ to_ = .ok (0, next) ∧ MovesFile env live cache from_ to_ next
  else ∃ result < 0, cache.rename env now from_ to_ = .ok (result, cache)

/-- The path is neither cached nor found on disk. -/
def Missing (env : Env) (cache : BlockCache) (path : Bytes) : Prop :=
  cache.inCache path = false ∧ cache.fileState env path = .ok none

/-- A live source is cached or found on disk, and renamed to itself; a source that is not live is
missing.
-/
def RenamesWell (env : Env) (live : Bytes → Bool) (cache : BlockCache) (from_ to_ : Bytes)
    : Prop :=
  if live from_ = true then
    from_ = to_ ∧ ∃ former, cache.fileState env from_ = .ok (some former)
  else Missing env cache from_

-----------------------------------------------------------------------------------------
-- Sources that are missing
-----------------------------------------------------------------------------------------

theorem missing_iff (env : Env) (cache : BlockCache) (path : Bytes)
    : Missing env cache path
      ↔ cache.inCache path = false
        ∧ ∃ di, cache.loader.findLatestInode env path true = .ok di ∧ di.mtime = 0 := by
  unfold Missing
  refine and_congr_right fun away => ?_
  rw [fileState, if_neg (by simp [away])]
  constructor
  · intro none
    obtain ⟨di, lookup, none⟩ := bind_eq_ok.mp none
    by_cases unwritten : di.mtime = 0
    · exact ⟨di, lookup, unwritten⟩
    · rw [if_neg unwritten] at none
      cases none
  · rintro ⟨di, lookup, unwritten⟩
    rw [lookup]
    exact congrArg Except.ok (if_pos unwritten)

/-- A rename fails exactly if its source is missing. -/
theorem rename_fails_iff
    : (∃ result < 0, cache.rename env now from_ to_ = .ok (result, cache))
      ↔ Missing env cache from_ := by
  rw [missing_iff]
  constructor
  · rintro ⟨result, negative, outcome⟩
    cases rename_effect outcome with
    | renameMissing missing =>
        cases missing with
        | absent away lookup none => exact ⟨away, _, lookup, none⟩
    | renameOver => cases negative
    | renameNew => cases negative
  · rintro ⟨away, di, lookup, none⟩
    have missing : Ensured env now cache from_ (-1) cache := .absent away lookup none
    refine ⟨-1, by decide, ?_⟩
    unfold rename
    rw [missing.eq]
    rfl

-----------------------------------------------------------------------------------------
-- Sources that are found
-----------------------------------------------------------------------------------------

/-- A cached path is visible. -/
theorem not_invisible {path : Bytes} (here : cache.inCache path = true)
    : ¬ Invisible env cache path := by
  intro gone
  rw [Invisible, getattr, if_pos here] at gone
  obtain ⟨inode, -, gone⟩ := bind_eq_ok.mp gone
  cases gone

/-- The source of a rename that succeeded is cached. -/
theorem inCache_of_rename (outcome : cache.rename env now from_ to_ = .ok (0, next))
    : next.inCache from_ = true := by
  have kept {middle : BlockCache} {source : Inode} (found : middle.find from_ = some source)
      : (middle.moved env now from_ to_ source).inCache from_ = true := by
    have before : from_ ∈ middle.inodeIdx := mem_of_find found
    have member : from_ ∈ (middle.moved env now from_ to_ source).inodeIdx :=
      Std.ExtTreeMap.mem_insert.mpr (Or.inr before)
    simp [inCache, member]
  generalize same : (0 : Int) = result at outcome
  cases rename_effect outcome with
  | renameMissing => cases same
  | renameOver ensured target found => exact kept found
  | renameNew ensured target was found => exact kept found

/-- A path that is shown can be cached, with the contents that are shown. -/
theorem exists_ensured {path : Bytes} {former : FileState} (now : Clock)
    (shown : cache.fileState env path = .ok (some former))
    : ∃ first source, cache.ensureCached env now path = .ok (0, first)
      ∧ first.inCache path = true ∧ first.find path = some source
      ∧ source.shape.fileState first.heap = former := by
  cases here : cache.inCache path with
  | true =>
      rw [fileState, if_pos here, Except.ok.injEq, Option.map_eq_some_iff] at shown
      obtain ⟨source, found, same⟩ := shown
      exact ⟨cache, source, (Ensured.cached here).eq, here, found, same⟩
  | false =>
      rw [fileState, if_neg (by simp [here])] at shown
      obtain ⟨di, lookup, shown⟩ := bind_eq_ok.mp shown
      by_cases none : di.mtime = 0
      · rw [if_pos none] at shown
        cases shown
      · rw [if_neg none, Except.ok.injEq, Option.some.injEq] at shown
        have ensured : Ensured env now cache path 0 (cache.loaded env now path di) :=
          .loaded here lookup none
        have loaded : (cache.loaded env now path di).fileState env path = .ok (some di.fileState) :=
          fileState_loaded now cache path di
        have cached : (cache.loaded env now path di).inCache path = true :=
          inCache_loaded now cache path di
        rw [fileState, if_pos cached, Except.ok.injEq, Option.map_eq_some_iff] at loaded
        obtain ⟨source, found, same⟩ := loaded
        exact ⟨_, source, ensured.eq, cached, found, same.trans shown⟩

/-- A path that is renamed to itself keeps its contents and is not deleted. -/
theorem rename_self {path : Bytes} {former : FileState} (now : Clock)
    (shown : cache.fileState env path = .ok (some former))
    : ∃ next, cache.rename env now path path = .ok (0, next)
      ∧ next.fileState env path = .ok (some { former with deleted := false }) := by
  obtain ⟨first, source, ensured, here, found, rfl⟩ := exists_ensured now shown
  have again : first.ensureCached env now path = .ok (0, first) := (Ensured.cached here).eq
  have known : first.getInodeByPath path = .ok source := getInodeByPath_eq_ok.mpr found
  refine ⟨first.moved env now path path source, ?_, ?_⟩
  · unfold rename
    rw [ensured, ok_bind]
    dsimp only
    rw [if_neg (by decide), again, ok_bind]
    dsimp only
    rw [known, ok_bind, if_neg (by decide), known, ok_bind]
  · have there : (first.moved env now path path source).find path
        = some (Inode.copyOf env now path source) := find_put_self _ _ _
    have cached : (first.moved env now path path source).inCache path = true := by
      simp [inCache, mem_of_find there]
    rw [fileState, if_pos cached, there]
    rfl

/-- A rename of a shown path moves it exactly if it goes to the same path: the old path stays
cached and so visible.
-/
theorem rename_succeeds_iff (live : Bytes → Bool)
    : (∃ next, cache.rename env now from_ to_ = .ok (0, next)
        ∧ MovesFile env live cache from_ to_ next)
      ↔ from_ = to_ ∧ ∃ former, cache.fileState env from_ = .ok (some former) := by
  constructor
  · rintro ⟨next, outcome, moves⟩
    obtain ⟨former, shown, -⟩ := moves.target
    refine ⟨?_, former, shown⟩
    by_contra different
    exact not_invisible (inCache_of_rename outcome) (moves.source different)
  · rintro ⟨rfl, former, shown⟩
    obtain ⟨next, outcome, kept⟩ := rename_self now shown
    exact ⟨next, outcome, ⟨former, shown, kept⟩, fun different => absurd rfl different,
      fun _ _ _ different => absurd rfl different⟩

/-- In every state that any number of processes reach from an empty directory, a rename does
what it should exactly if its source is live, cached or found on disk, and renamed to itself, or
is not live and missing. The run says whose calls decide what is live; the equivalence itself needs
nothing else of it.
-/
theorem rename_moves_iff {order : VisitOrder} {size : Nat} {turns : List Turn}
    (_ : Run (Turns env) (BlockCache.new [] order size) turns cache)
    : RenameLaw env now (live turns) cache from_ to_
      ↔ RenamesWell env (live turns) cache from_ to_ := by
  unfold RenameLaw RenamesWell
  split
  · exact rename_succeeds_iff (live turns)
  · exact rename_fails_iff

/-- A file that was created is renamed to itself. -/
theorem rename_moves_iff_created
    : RenameLaw Util.twoDigests (.at_ 2)
        (live [.call ⟨.at_ 1, .makeFile [47, 97] 0o100644 true, 0⟩]) withFile [47, 97] [47, 97]
      ↔ RenamesWell Util.twoDigests
        (live [.call ⟨.at_ 1, .makeFile [47, 97] 0o100644 true, 0⟩]) withFile [47, 97]
        [47, 97] := by
  have run : Run (Turns Util.twoDigests) fresh
      [.call ⟨.at_ 1, .makeFile [47, 97] 0o100644 true, 0⟩] withFile := .snoc .nil rfl
  exact rename_moves_iff run

/-- A file that was created is renamed to `/b`, and `/a` is still visible. The file is removed
instead, and the rename succeeds.
-/
theorem rename_leaves_source
    : ¬ RenameLaw Util.twoDigests (.at_ 2)
        (live [.call ⟨.at_ 1, .makeFile [47, 97] 0o100644 true, 0⟩]) withFile [47, 97] [47, 98]
      ∧ ∃ cache,
        Run (Turns Util.twoDigests) fresh
          [.call ⟨.at_ 1, .makeFile [47, 97] 0o100644 true, 0⟩, .call ⟨.at_ 2, .remove [47, 97], 0⟩]
          cache
        ∧ ¬ RenameLaw Util.twoDigests (.at_ 3)
          (live [.call ⟨.at_ 1, .makeFile [47, 97] 0o100644 true, 0⟩,
            .call ⟨.at_ 2, .remove [47, 97], 0⟩]) cache [47, 97] [47, 98] := by
  constructor
  · intro law
    rw [RenameLaw, if_pos (by decide)] at law
    obtain ⟨same, -⟩ := (rename_succeeds_iff _).mp law
    exact absurd same (by decide)
  · have tested : (replay Util.twoDigests fresh
          [.call ⟨.at_ 1, .makeFile [47, 97] 0o100644 true, 0⟩,
            .call ⟨.at_ 2, .remove [47, 97], 0⟩]).toOption.any
        (fun cache => cache.inCache [47, 97]) = true := by
      decide +kernel
    obtain ⟨cache, run, here⟩ := exists_run tested
    refine ⟨cache, run, fun law => ?_⟩
    rw [RenameLaw, if_neg (by decide)] at law
    obtain ⟨away, -⟩ := rename_fails_iff.mp law
    rw [here] at away
    cases away

end BlockCache

end ZippyFS
