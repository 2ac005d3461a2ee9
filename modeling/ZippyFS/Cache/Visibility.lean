import ZippyFS.Cache.Attributes
import ZippyFS.Cache.EveryInode
import ZippyFS.Cache.Namespace
import ZippyFS.Cache.OtherPaths

/-! What `getattr` shows, compared with the calls that were made. One path is followed along a run:
it should be shown exactly while it is live, in the cache or on disk.
-/

namespace ZippyFS

open Runs Outcomes

/-- A call of an operation on files, or a flush with a reload of the files behind it. -/
inductive Action where
  | call (event : Event)
  | sync (result : Int) (order : VisitOrder)

/-- The paths that an action names. -/
def Action.paths : Action → List Bytes
  | call event => event.op.paths
  | sync _ _ => []

/-- Whether a path is live after an action. -/
def Action.leavesLive (action : Action) (path : Bytes) (live : Bool) : Bool :=
  match action with
  | .call event => event.leavesLive path live
  | .sync _ _ => live

/-- A cache, and whether the path that is followed is live. -/
structure Watched where
  cache : BlockCache
  live : Bool

namespace BlockCache

variable {env : Env} {now : Clock} {cache next middle : BlockCache} {path other : Bytes}
  {result : Int} {op : Op} {names : Set Bytes} {state after : Watched}

-----------------------------------------------------------------------------------------
-- The law and the condition
-----------------------------------------------------------------------------------------

/-- An action that was carried out. -/
def Acts (env : Env) (cache : BlockCache) : Action → BlockCache → Prop
  | .call event, next => event.op.onFiles = true ∧ Steps env cache event next
  | .sync result order, next =>
      ∃ middle, cache.flushToDisk env = .ok (result, middle) ∧ next = middle.loadTrees order

/-- An action that was carried out, and whether the path is live after it. -/
structure WatchedActs (env : Env) (path : Bytes) (state : Watched) (action : Action)
    (next : Watched)
    : Prop where
  acts : Acts env state.cache action next.cache
  live : next.live = action.leavesLive path state.live

/-- `getattr` returns 0 if the path is live, and `-ENOENT` otherwise. -/
def SeesLive (env : Env) (path : Bytes) (state : Watched) : Prop :=
  if state.live = true then ∃ stat, state.cache.getattr env path = .ok (0, stat)
  else Invisible env state.cache path

/-- The path is not removed while it is cached, and not renamed to another path while it is
cached or found on disk. When files are loaded anew, a live path is still cached or held by the
first file.
-/
def KeepsName (env : Env) (path : Bytes) (state : Watched) : Action → Prop
  | .call event =>
      match event.op with
      | .remove gone | .rmdir gone => gone = path → path ∉ state.cache.inodeIdx
      | .rename from_ to_ => from_ = path → to_ = path ∨ Missing env state.cache path
      | _ => True
  | .sync result order =>
      ∀ middle, state.cache.flushToDisk env = .ok (result, middle) → state.live = true
        → path ∈ middle.inodeIdx ∨ FirstHolds env (order.visit middle.disk) path

-----------------------------------------------------------------------------------------
-- The index after a call
-----------------------------------------------------------------------------------------

/-- The loader finds the path. -/
def FoundOnDisk (env : Env) (cache : BlockCache) (path : Bytes) : Prop :=
  ∃ di, cache.loader.findLatestInode env path true = .ok di ∧ di.mtime ≠ 0

@[simp] theorem mem_put (cache : BlockCache) (path other : Bytes) (inode : Inode)
    : other ∈ (cache.put path inode).inodeIdx ↔ other = path ∨ other ∈ cache.inodeIdx := by
  unfold put
  rw [Std.ExtTreeMap.mem_insert, Std.LawfulEqCmp.compare_eq_iff_eq, eq_comm]

@[simp] theorem mem_moved (now : Clock) (from_ to_ : Bytes) (source : Inode)
    : other ∈ (cache.moved env now from_ to_ source).inodeIdx
      ↔ other = to_ ∨ other ∈ cache.inodeIdx :=
  mem_put (cache.set from_ (source.deleteInode now)) to_ other _

@[simp] theorem mem_makeFile (now : Clock) (path : Bytes) (mode : UInt32) (dirty : Bool)
    : other ∈ (cache.makeFile env now path mode dirty).inodeIdx
      ↔ other = path ∨ other ∈ cache.inodeIdx :=
  mem_put cache path other _

/-- A path that is new after another was ensured is that one, found on disk. -/
theorem Ensured.of_mem (ensured : Ensured env now cache path result next)
    (member : other ∈ next.inodeIdx)
    : other ∈ cache.inodeIdx ∨ other = path ∧ FoundOnDisk env cache other := by
  cases ensured with
  | cached here => exact Or.inl member
  | absent away lookup none => exact Or.inl member
  | loaded away lookup some =>
      rcases (mem_put (cache.withBlocks _) path other _).mp member with rfl | before
      · exact Or.inr ⟨rfl, _, lookup, some⟩
      · exact Or.inl before

theorem Ensured.mem_of_mem (ensured : Ensured env now cache path result next)
    (member : other ∈ cache.inodeIdx)
    : other ∈ next.inodeIdx := by
  cases ensured with
  | cached here => exact member
  | absent away lookup none => exact member
  | loaded away lookup some => exact (mem_put (cache.withBlocks _) path other _).mpr (Or.inr member)

/-- What a call does to a path in the index: a path stays in it, a new one is live or was found
on disk, and a path that gets live is in it.
-/
structure FollowsIndex (env : Env) (path : Bytes) (cache : BlockCache) (event : Event)
    (next : BlockCache)
    : Prop where
  stays : path ∈ cache.inodeIdx → path ∈ next.inodeIdx
  new
    : ∀ live, path ∈ next.inodeIdx → path ∈ cache.inodeIdx ∨ event.leavesLive path live = true
      ∨ FoundOnDisk env cache path
  gets : event.leavesLive path false = true → path ∈ next.inodeIdx

/-- A call that leaves the index alone. -/
theorem FollowsIndex.of_same {event : Event} (same : next.inodeIdx = cache.inodeIdx)
    (gets : event.leavesLive path false = true → path ∈ cache.inodeIdx)
    : FollowsIndex env path cache event next where
  stays := fun member => same ▸ member
  new := fun _ member => Or.inl (same ▸ member)
  gets := fun live => same ▸ gets live

/-- A call that adds one path, and makes it live. -/
theorem FollowsIndex.of_added {event : Event} {added : Bytes}
    (index : ∀ other, other ∈ next.inodeIdx ↔ other = added ∨ other ∈ cache.inodeIdx)
    (lives : ∀ live, event.leavesLive path live = if path = added then true else live)
    : FollowsIndex env path cache event next where
  stays := fun member => (index path).mpr (Or.inr member)
  new := by
    intro live member
    rcases (index path).mp member with same | before
    · exact Or.inr (Or.inl ((lives live).trans (if_pos same)))
    · exact Or.inl before
  gets := by
    intro live
    rw [lives] at live
    split at live
    case isTrue same => exact (index path).mpr (Or.inl same)
    case isFalse => cases live

/-- A call that only looks a path up. -/
theorem FollowsIndex.of_ensured {event : Event} {looked : Bytes}
    (ensured : Ensured env now cache looked result next)
    (lives : event.leavesLive path false = false)
    : FollowsIndex env path cache event next where
  stays := ensured.mem_of_mem
  new := by
    intro live member
    rcases ensured.of_mem member with before | ⟨-, found⟩
    · exact Or.inl before
    · exact Or.inr (Or.inr found)
  gets := fun live => by simp [lives] at live

/-- A rename that succeeds. -/
theorem FollowsIndex.of_moved {from_ to_ : Bytes}
    (index : ∀ other, other ∈ next.inodeIdx ↔ other = to_ ∨ other ∈ middle.inodeIdx)
    (stays : path ∈ cache.inodeIdx → path ∈ middle.inodeIdx)
    (new : path ∈ middle.inodeIdx → path ∈ cache.inodeIdx ∨ path = to_ ∨ FoundOnDisk env cache path)
    : FollowsIndex env path cache ⟨now, .rename from_ to_, 0⟩ next where
  stays := fun member => (index path).mpr (Or.inr (stays member))
  new := by
    intro live member
    have there : path ∈ cache.inodeIdx ∨ path = to_ ∨ FoundOnDisk env cache path := by
      rcases (index path).mp member with same | before
      · exact Or.inr (Or.inl same)
      · exact new before
    rcases there with before | same | found
    · exact Or.inl before
    · exact Or.inr (Or.inl (by simp [Event.leavesLive, same]))
    · exact Or.inr (Or.inr found)
  gets := by
    intro live
    refine (index path).mpr (Or.inl ?_)
    by_contra different
    simp [Event.leavesLive, different] at live

theorem Effect.followsIndex (onFiles : op.onFiles = true)
    (effect : Effect env now cache op result next)
    : FollowsIndex env path cache ⟨now, op, result⟩ next := by
  cases effect with
  | makeFile made mode dirty =>
      exact .of_added (fun _ => mem_makeFile now made mode dirty) fun _ => rfl
  | writeMissing missing => exact .of_same rfl (by simp [Event.leavesLive])
  | @write written buf offset middle inode state ready loop =>
      have lives (live : Bool) : Event.leavesLive ⟨now, .write written buf offset, buf.length⟩ path
          live = if path = written then true else live := by
        simp [Event.leavesLive]
      cases ready with
      | cached here found =>
          refine .of_same rfl fun live => ?_
          rw [lives] at live
          split at live
          case isTrue same => exact same ▸ mem_of_find found
          case isFalse => cases live
      | loaded away lookup some =>
          exact .of_added (fun _ => mem_put (cache.withBlocks _) written _ _) lives
  | truncateMissing away => exact .of_same rfl (by simp [Event.leavesLive])
  | truncate here found => exact .of_same rfl (by simp [Event.leavesLive])
  | removeMissing away => exact .of_same rfl (by simp [Event.leavesLive])
  | remove here noNulls found => exact .of_same rfl (by simp [Event.leavesLive])
  | rmdirMissing away => exact .of_same rfl (by simp [Event.leavesLive])
  | rmdir here found => exact .of_same rfl (by simp [Event.leavesLive])
  | renameMissing missing => exact .of_same rfl (by simp [Event.leavesLive])
  | @renameOver from_ to_ first second source ensured target found =>
      refine .of_moved (fun _ => mem_moved now from_ to_ source) ?_ ?_
      · exact fun member => target.mem_of_mem (ensured.mem_of_mem member)
      · intro member
        rcases target.of_mem member with before | ⟨same, -⟩
        · exact (ensured.of_mem before).imp_right fun new => Or.inr new.2
        · exact Or.inr (Or.inl same)
  | @renameNew from_ to_ first old source ensured target was found =>
      refine .of_moved (fun _ => mem_moved now from_ to_ source) ?_ ?_
      · exact fun member => (mem_makeFile now to_ old.mode true).mpr
          (Or.inr (ensured.mem_of_mem member))
      · intro member
        rcases (mem_makeFile now to_ old.mode true).mp member with same | before
        · exact Or.inr (Or.inl same)
        · exact (ensured.of_mem before).imp_right fun new => Or.inr new.2
  | open_ ensured => exact .of_ensured ensured (by simp [Event.leavesLive])
  | read ensured found bytes => exact .of_ensured ensured (by simp [Event.leavesLive])
  | _ => cases onFiles

-----------------------------------------------------------------------------------------
-- A path that is followed
-----------------------------------------------------------------------------------------

/-- A record has a modification time, and is one of the path only if the path is live. -/
def Follows (env : Env) (path : Bytes) (live : Bool) (call : AddCall) : Prop :=
  Stamped call.inode ∧ (call.inode.inodeId = Util.cryptoHash env path → live = true)

/-- What is known of a path along a run: only a live path is cached or has records, and a live
path is cached or held by the first file that the loader visits.
-/
structure Followed (env : Env) (names : Set Bytes) (path : Bytes) (state : Watched) : Prop where
  coherent : Coherent env names state.cache
  stamped : EveryInode Stamped state.cache
  backed : Backed env (Follows env path state.live) state.cache
  readable : state.cache.loader.fileToMem = [] ∨ state.cache.loader.mapped = true
  cached : path ∈ state.cache.inodeIdx → state.live = true
  held
    : state.live = true
      → path ∈ state.cache.inodeIdx ∨ FirstHolds env state.cache.loader.fileToMem path

/-- `getattr` is right about a path that was followed. -/
theorem Followed.sees (followed : Followed env names path state) (root : path ≠ [47])
    : SeesLive env path state := by
  unfold SeesLive
  by_cases member : path ∈ state.cache.inodeIdx
  · obtain ⟨inode, found⟩ := followed.coherent.pointed.found member
    rw [if_pos (followed.cached member)]
    exact ⟨_, getattr_cached found⟩
  · obtain ⟨shown, hidden⟩ :=
      followed.backed.loader.getattr_uncached (fun _ follows => follows.1) followed.readable root
        member
    cases alive : state.live with
    | true => exact shown ((followed.held alive).resolve_left member)
    | false =>
        refine hidden fun first => ?_
        obtain ⟨call, ⟨-, lives⟩, same⟩ :=
          followed.backed.loader.of_firstHolds (fun _ follows => follows.1) first
        rw [alive] at lives
        cases lives same

-----------------------------------------------------------------------------------------
-- Calls
-----------------------------------------------------------------------------------------

/-- A path that can be cached is not missing. -/
theorem Ensured.not_missing (ensured : Ensured env now cache path 0 next)
    : ¬ Missing env cache path := by
  rw [missing_iff]
  rintro ⟨away, di, lookup, none⟩
  cases ensured with
  | cached here => simp [here] at away
  | loaded away' lookup' some =>
      rw [Except.ok.inj (lookup'.symm.trans lookup)] at some
      exact some none

/-- A rename that keeps the name leaves a live path live. -/
theorem leavesLive_renamed {from_ to_ : Bytes} {first : BlockCache}
    (keeps : from_ = path → to_ = path ∨ Missing env cache path)
    (ensured : Ensured env now cache from_ 0 first)
    : Event.leavesLive ⟨now, .rename from_ to_, 0⟩ path true = true := by
  by_cases target : path = to_
  · simp [Event.leavesLive, target]
  · have other : path ≠ from_ := by
      rintro rfl
      rcases keeps rfl with rfl | missing
      · exact target rfl
      · exact ensured.not_missing missing
    simp [Event.leavesLive, other]

/-- A call that keeps the name leaves a live path live. -/
theorem KeepsName.leavesLive {event : Event} (keeps : KeepsName env path state (.call event))
    (root : path ≠ [47]) (effect : Effect env event.now state.cache event.op event.result next)
    : event.leavesLive path true = true := by
  obtain ⟨now, op, result⟩ := event
  cases effect with
  | makeFile made mode dirty => simp [Event.leavesLive]
  | removeMissing away => simp [Event.leavesLive]
  | @remove gone inode here noNulls found =>
      have other : path ≠ gone := by
        rintro rfl
        simp [inCache, keeps rfl, root] at here
      simp [Event.leavesLive, other]
  | rmdirMissing away => simp [Event.leavesLive]
  | @rmdir gone inode here found =>
      have other : path ≠ gone := by
        rintro rfl
        exact keeps rfl (mem_of_find found)
      simp [Event.leavesLive, other]
  | renameMissing missing => simp [Event.leavesLive]
  | renameOver ensured target found => exact leavesLive_renamed keeps ensured
  | renameNew ensured target was found => exact leavesLive_renamed keeps ensured
  | _ => simp [Event.leavesLive]

/-- A path that gets live by a call, or was live before one that keeps its name, is live. -/
theorem leavesLive_mono {event : Event} (keeps : event.leavesLive path true = true)
    : ∀ live, event.leavesLive path false = true ∨ live = true
      → event.leavesLive path live = true := by
  rintro (_ | _) (gets | alive)
  · exact gets
  · cases alive
  · exact keeps
  · exact keeps

/-- A call that keeps the name keeps what is known of the path. -/
theorem Followed.call {event : Event} (followed : Followed env names path state)
    (root : path ≠ [47]) (onFiles : event.op.onFiles = true)
    (members : ∀ named ∈ event.op.paths, named ∈ names)
    (keeps : KeepsName env path state (.call event))
    (taken : Steps env state.cache event next)
    : Followed env names path ⟨next, event.leavesLive path state.live⟩ := by
  obtain ⟨coherent, stamped, backed, readable, cached, held⟩ := followed
  have effect := step_effect taken
  have same : SameDisk state.cache next := effect.sameDisk onFiles
  have index : FollowsIndex env path state.cache event next := effect.followsIndex onFiles
  have stays := leavesLive_mono (keeps.leavesLive root effect)
  have lasting (alive : state.live = true) : event.leavesLive path state.live = true :=
    stays _ (Or.inr alive)
  refine ⟨coherent.effect (plain_of_onFiles onFiles members) effect,
    stamped.effect (stamped_lasts env) (stamped_loads env _) effect, ?_, ?_, ?_, ?_⟩
  · exact (backed.congr same).mono fun call follows =>
      ⟨follows.1, fun id => lasting (follows.2 id)⟩
  · rw [same.loader]
    exact readable
  · intro there
    rcases index.new state.live there with before | lives | ⟨di, lookup, some⟩
    · exact lasting (cached before)
    · exact lives
    · obtain ⟨call, ⟨-, follows⟩, id, -⟩ := backed.loader.lookup lookup some
      exact lasting (follows id)
  · intro lives
    rw [same.loader]
    cases alive : state.live with
    | true => exact (held alive).imp_left index.stays
    | false =>
        rw [alive] at lives
        exact Or.inl (index.gets lives)

/-- A call that does not keep the name leaves a path that is shown and not live. -/
theorem not_sees_of_lost {event : Event} (taken : Steps env state.cache event next)
    (loses : ¬ KeepsName env path state (.call event))
    : ¬ SeesLive env path ⟨next, event.leavesLive path state.live⟩ := by
  obtain ⟨now, op, result⟩ := event
  have shown (gone : Event.leavesLive ⟨now, op, result⟩ path state.live = false)
      (here : path ∈ next.inodeIdx)
      : ¬ SeesLive env path ⟨next, Event.leavesLive ⟨now, op, result⟩ path state.live⟩ := by
    rw [SeesLive, gone]
    exact not_invisible (by simp [inCache, here])
  have effect : Effect env now state.cache op result next := step_effect taken
  cases op with
  | remove gone =>
      obtain ⟨rfl, cached⟩ := Classical.not_imp.mp loses
      have member : gone ∈ state.cache.inodeIdx := not_not.mp cached
      have done : result = 0 := by
        cases effect with
        | removeMissing away => simp [inCache, member] at away
        | remove here noNulls found => rfl
      exact shown (by simp [Event.leavesLive, done]) ((effect.followsIndex rfl).stays member)
  | rmdir gone =>
      obtain ⟨rfl, cached⟩ := Classical.not_imp.mp loses
      have member : gone ∈ state.cache.inodeIdx := not_not.mp cached
      have done : result = 0 := by
        cases effect with
        | rmdirMissing away => simp [inCache, member] at away
        | rmdir here found => rfl
      exact shown (by simp [Event.leavesLive, done]) ((effect.followsIndex rfl).stays member)
  | rename from_ to_ =>
      obtain ⟨rfl, moves⟩ := Classical.not_imp.mp loses
      obtain ⟨different, there⟩ := not_or.mp moves
      have gone (done : result = 0)
          : Event.leavesLive ⟨now, .rename from_ to_, result⟩ from_ state.live = false := by
        simp [Event.leavesLive, done, Ne.symm different]
      cases effect with
      | renameMissing missing =>
          exact absurd (rename_fails_iff.mp ⟨-1, by decide, taken⟩) there
      | @renameOver _ _ _ second source ensured target found =>
          exact shown (gone rfl) ((mem_moved now from_ to_ source).mpr (Or.inr (mem_of_find found)))
      | @renameNew _ _ first old source ensured target was found =>
          exact shown (gone rfl) ((mem_moved now from_ to_ source).mpr (Or.inr (mem_of_find found)))
  | _ => exact absurd trivial loses

-----------------------------------------------------------------------------------------
-- Flushes
-----------------------------------------------------------------------------------------

/-- A flush writes records of live paths. -/
theorem Followed.backed_sync {order : VisitOrder} (followed : Followed env names path state)
    (member : path ∈ names) (flush : Flushed env state.cache result middle)
    : Backed env (Follows env path state.live) (middle.loadTrees order) := by
  obtain ⟨coherent, stamped, backed, -, cached, -⟩ := followed
  refine (backed.flushed coherent.pointed (fun _ => coherent.flushFits) ?_ flush).loadTrees order
  intro other inode found
  refine ⟨stamped.of_find found, fun id => cached ?_⟩
  obtain ⟨filed, known⟩ := coherent.idx (mem_of_find found)
  have pointed := (coherent.pointed.of_find found).1
  have own : inode.inodeId = Util.cryptoHash env other :=
    Option.some.inj (pointed.symm.trans filed)
  have same : other = path := coherent.apart known member (own.symm.trans id)
  exact same ▸ mem_of_find found

/-- A flush and a reload keep what is known of a path if a live path is still shown. -/
theorem Followed.sync {order : VisitOrder} (followed : Followed env names path state)
    (member : path ∈ names) (flushed : state.cache.flushToDisk env = .ok (result, middle))
    (keeps
      : state.live = true
        → path ∈ middle.inodeIdx ∨ FirstHolds env (order.visit middle.disk) path)
    : Followed env names path ⟨middle.loadTrees order, state.live⟩ := by
  have flush := flushToDisk_flushed flushed
  refine ⟨(followed.coherent.flushed flush).congr rfl rfl,
    (followed.stamped.flushed flush).congr rfl, followed.backed_sync member flush, Or.inr rfl, ?_,
    keeps⟩
  intro there
  cases flush with
  | nothing unchanged => exact followed.cached there
  | flushed changed filled =>
      have empty : path ∈ (∅ : Std.ExtTreeMap Bytes Bytes) := there
      exact absurd empty Std.ExtTreeMap.not_mem_empty

/-- A flush and a reload that lose a live path leave it unseen. -/
theorem Followed.not_sees_sync {order : VisitOrder} (followed : Followed env names path state)
    (root : path ≠ [47]) (member : path ∈ names)
    (flushed : state.cache.flushToDisk env = .ok (result, middle)) (alive : state.live = true)
    (away : path ∉ middle.inodeIdx)
    (unheld : ¬ FirstHolds env (order.visit middle.disk) path)
    : ¬ SeesLive env path ⟨middle.loadTrees order, state.live⟩ := by
  have flush := flushToDisk_flushed flushed
  have hidden : Invisible env (middle.loadTrees order) path :=
    ((followed.backed_sync member flush).loader.getattr_uncached (fun _ follows => follows.1)
      (Or.inr rfl) root away).2 unheld
  rw [SeesLive, if_pos alive]
  rintro ⟨stat, seen⟩
  obtain ⟨code, -⟩ := Prod.mk.inj (Except.ok.inj (hidden.symm.trans seen))
  cases code

-----------------------------------------------------------------------------------------
-- Runs
-----------------------------------------------------------------------------------------

/-- After an action, `getattr` is right about the path exactly if the action kept its name, and
then the path can be followed on.
-/
theorem Followed.acts {action : Action} (followed : Followed env names path state)
    (root : path ≠ [47]) (member : path ∈ names)
    (members : ∀ named ∈ action.paths, named ∈ names)
    (taken : WatchedActs env path state action after)
    : (SeesLive env path after ↔ KeepsName env path state action)
      ∧ (KeepsName env path state action → Followed env names path after) := by
  obtain ⟨next, live⟩ := after
  obtain ⟨acts, rfl⟩ := taken
  suffices kept : KeepsName env path state action
        → Followed env names path ⟨next, action.leavesLive path state.live⟩ by
    refine ⟨⟨fun sees => ?_, fun keeps => (kept keeps).sees root⟩, kept⟩
    by_contra loses
    cases action with
    | call event => exact not_sees_of_lost acts.2 loses sees
    | sync result order =>
        obtain ⟨middle, flushed, rfl⟩ := acts
        refine loses fun middle' flushed' alive => ?_
        obtain ⟨-, rfl⟩ := Prod.mk.inj (Except.ok.inj (flushed.symm.trans flushed'))
        by_contra unshown
        obtain ⟨away, unheld⟩ := not_or.mp unshown
        exact followed.not_sees_sync root member flushed alive away unheld sees
  intro keeps
  cases action with
  | call event => exact followed.call root acts.1 members keeps acts.2
  | sync result order =>
      obtain ⟨middle, flushed, rfl⟩ := acts
      exact followed.sync member flushed (keeps middle flushed)

/-- A run behind which `getattr` is right about the path every time, and one that always keeps
the name of the path.
-/
def SeesLiveRun (env : Env) (path : Bytes) : Watched → List Action → Watched → Prop :=
  Run fun state action next => WatchedActs env path state action next ∧ SeesLive env path next

def KeepsNameRun (env : Env) (path : Bytes) : Watched → List Action → Watched → Prop :=
  Run fun state action next =>
    WatchedActs env path state action next ∧ KeepsName env path state action

/-- A path can be watched along every run, by induction on it. -/
theorem exists_watched {first : BlockCache} {actions : List Action} (path : Bytes)
    (run : Run (Acts env) first actions cache)
    : ∃ live, Run (WatchedActs env path) ⟨first, false⟩ actions ⟨cache, live⟩ := by
  induction run with
  | nil => exact ⟨false, .nil⟩
  | snoc before last ih =>
      obtain ⟨live, watched⟩ := ih
      exact ⟨_, .snoc watched ⟨last, rfl⟩⟩

/-- The paths that the actions of a run name. -/
def namedBy (actions : List Action) : Set Bytes := {path | ∃ action ∈ actions, path ∈ action.paths}

/-- `getattr` is right along a run exactly if the run keeps the name, by induction on the run. -/
theorem seesLiveRun_iff {start : Watched} {actions : List Action}
    (followed : Followed env names path start) (root : path ≠ [47]) (member : path ∈ names)
    (members : namedBy actions ⊆ names)
    : SeesLiveRun env path start actions state ↔ KeepsNameRun env path start actions state := by
  have inside {action : Action} (listed : action ∈ actions)
      : ∀ named ∈ action.paths, named ∈ names := fun _ named => members ⟨action, listed, named⟩
  constructor
  · intro run
    refine (run.recorded.invariant (P := fun actions state =>
      KeepsNameRun env path start actions state ∧ Followed env names path state)
      ⟨.nil, followed⟩ ?_).1
    rintro before state action next - ⟨kept, followed⟩ ⟨listed, taken, sees⟩
    obtain ⟨decides, follows⟩ := followed.acts root member (inside listed) taken
    exact ⟨.snoc kept ⟨taken, decides.mp sees⟩, follows (decides.mp sees)⟩
  · intro run
    refine (run.recorded.invariant (P := fun actions state =>
      SeesLiveRun env path start actions state ∧ Followed env names path state)
      ⟨.nil, followed⟩ ?_).1
    rintro before state action next - ⟨kept, followed⟩ ⟨listed, taken, keeps⟩
    obtain ⟨decides, follows⟩ := followed.acts root member (inside listed) taken
    exact ⟨.snoc kept ⟨taken, decides.mpr keeps⟩, follows keeps⟩

/-- In every run from an empty directory, `getattr` is right about a path in every state exactly
if every action keeps the name of the path. The paths that are named have different hashes.
-/
theorem getattr_follows_iff {order : VisitOrder} {size : Nat} {actions : List Action}
    (run : Run (Acts env) (BlockCache.new [] order size) actions cache) (root : path ≠ [47])
    (apart : Set.InjOn (Util.cryptoHash env) (insert path (namedBy actions)))
    : ∃ live, Run (WatchedActs env path) ⟨BlockCache.new [] order size, false⟩ actions ⟨cache, live⟩
      ∧ (SeesLiveRun env path ⟨BlockCache.new [] order size, false⟩ actions ⟨cache, live⟩
        ↔ KeepsNameRun env path ⟨BlockCache.new [] order size, false⟩ actions ⟨cache, live⟩) := by
  obtain ⟨live, watched⟩ := exists_watched path run
  have files : (BlockCache.new [] order size).loader.fileToMem = [] :=
    List.perm_nil.mp (order.perm [])
  have start : Followed env (insert path (namedBy actions)) path
      ⟨BlockCache.new [] order size, false⟩ := by
    refine ⟨Coherent.new _ _ _ apart, EveryInode.new _ _ _, Backed.restart (by simp [Archived]) _ _,
      Or.inl files, ?_, fun alive => nomatch alive⟩
    intro there
    have empty : path ∈ (∅ : Std.ExtTreeMap Bytes Bytes) := there
    exact absurd empty Std.ExtTreeMap.not_mem_empty
  exact ⟨live, watched, seesLiveRun_iff start root (Set.mem_insert _ _) (Set.subset_insert _ _)⟩

/-- A run that creates one file. -/
theorem getattr_follows_iff_created
    : ∃ live, Run (WatchedActs Util.twoDigests [47, 97]) ⟨fresh, false⟩
        [.call ⟨.at_ 1, .makeFile [47, 97] 0o100644 true, 0⟩] ⟨withFile, live⟩
      ∧ (SeesLiveRun Util.twoDigests [47, 97] ⟨fresh, false⟩
          [.call ⟨.at_ 1, .makeFile [47, 97] 0o100644 true, 0⟩] ⟨withFile, live⟩
        ↔ KeepsNameRun Util.twoDigests [47, 97] ⟨fresh, false⟩
          [.call ⟨.at_ 1, .makeFile [47, 97] 0o100644 true, 0⟩] ⟨withFile, live⟩) := by
  have run : Run (Acts Util.twoDigests) fresh
      [.call ⟨.at_ 1, .makeFile [47, 97] 0o100644 true, 0⟩] withFile := .snoc .nil ⟨rfl, rfl⟩
  refine getattr_follows_iff run (by decide) (twoDigests_apart.mono ?_)
  rintro path (rfl | ⟨action, member, named⟩)
  · exact Or.inl rfl
  · obtain rfl := List.mem_singleton.mp member
    exact Or.inl (List.mem_singleton.mp named)

/-- A file that was removed is still shown. -/
theorem getattr_shows_removed
    : ∃ cache,
        Run (WatchedActs Util.twoDigests [47, 97]) ⟨fresh, false⟩
          [.call ⟨.at_ 1, .makeFile [47, 97] 0o100644 true, 0⟩,
            .call ⟨.at_ 2, .remove [47, 97], 0⟩] ⟨cache, false⟩
        ∧ cache.inCache [47, 97] = true
        ∧ ¬ SeesLiveRun Util.twoDigests [47, 97] ⟨fresh, false⟩
          [.call ⟨.at_ 1, .makeFile [47, 97] 0o100644 true, 0⟩,
            .call ⟨.at_ 2, .remove [47, 97], 0⟩] ⟨cache, false⟩ := by
  have tested : (replay Util.twoDigests withFile [.call ⟨.at_ 2, .remove [47, 97], 0⟩]).toOption.any
      (fun cache => cache.inCache [47, 97]) = true := by
    decide +kernel
  obtain ⟨cache, removed, here⟩ := exists_step tested
  have created : WatchedActs Util.twoDigests [47, 97] ⟨fresh, false⟩
      (.call ⟨.at_ 1, .makeFile [47, 97] 0o100644 true, 0⟩) ⟨withFile, true⟩ := ⟨⟨rfl, rfl⟩, rfl⟩
  refine ⟨cache, .snoc (.snoc .nil created) ⟨⟨rfl, removed⟩, rfl⟩, here, ?_⟩
  intro sees
  have unseen : SeesLive Util.twoDigests [47, 97] ⟨cache, false⟩ :=
    Run.established [Action.call ⟨.at_ 1, .makeFile [47, 97] 0o100644 true, 0⟩] _ sees
  exact not_invisible here unseen

end BlockCache

end ZippyFS
