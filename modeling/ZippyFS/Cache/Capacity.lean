import ZippyFS.Cache.ChangeFlag

/-! The counter of cached paths. It follows the creations and the removals since the last flush
and not the entries of the cache index, so the two are compared along a run with a tally of
both kept beside the cache.
-/

namespace ZippyFS

open Runs

/-- The creations and the removals since the last flush. -/
structure Tally where
  created : Nat
  removed : Nat

/-- A cache and the tally of its history. -/
structure Tallied where
  cache : BlockCache
  tally : Tally

/-- The number of cached paths. -/
def BlockCache.entries (cache : BlockCache) : Nat := cache.inodeIdx.size

/-- Whether a rename creates its target: its source is cached or on disk, its target neither. -/
def BlockCache.createsTarget (env : Env) (now : Clock) (cache : BlockCache) (from_ to_ : Bytes)
    : Bool :=
  match cache.ensureCached env now from_ with
  | .error _ => false
  | .ok (res, cache) =>
      if res = -1 then false
      else
        match cache.ensureCached env now to_ with
        | .error _ => false
        | .ok (res, _) => res = -1

/-- Whether a call raises the counter. -/
def Event.creates (env : Env) (cache : BlockCache) (event : Event) : Bool :=
  match event.op with
  | .makeFile .. => true
  | .rename from_ to_ => cache.createsTarget env event.now from_ to_
  | _ => false

/-- Whether a call lowers it. -/
def Event.removes (cache : BlockCache) (event : Event) : Bool :=
  match event.op with
  | .remove path => cache.inCache path
  | _ => false

/-- The tally after a call. -/
def Tally.after (env : Env) (tally : Tally) (cache : BlockCache) (event : Event) : Tally :=
  match event.op with
  | .flushToDisk | .flushToShdw _ => if event.result = 0 then ⟨0, 0⟩ else tally
  | _ =>
      { created := tally.created + if event.creates env cache then 1 else 0
        removed := tally.removed + if event.removes cache then 1 else 0 }

/-- A call that returned, and its entry in the tally. -/
structure TalliedSteps (env : Env) (state : Tallied) (event : Event) (next : Tallied)
    : Prop where
  step : Steps env state.cache event next.cache
  tally : next.tally = state.tally.after env state.cache event

/-- The counter is neither lowered at 0 nor raised at its maximum, it is at most the number of
entries, and a flush before a close means that at least `MAX_SIZE` paths are cached.
-/
structure KeepsCount (env : Env) (state : Tallied) (event : Event) (next : Tallied)
    : Prop where
  lowered : event.removes state.cache = true → state.cache.size ≠ 0
  raised : event.creates env state.cache = true → state.cache.size ≠ 2 ^ 64 - 1
  bounded : next.cache.size ≤ next.cache.entries
  flushed
    : event.op = .flushToShdw false → event.result = 0
      → BlockCache.MAX_SIZE ≤ state.cache.entries

/-- Removals follow creations, a path that is cached is created again only while some entry of
the index has no creation that counts for it, and the creations left are fewer than `2 ^ 64`.
-/
structure Balanced (env : Env) (state : Tallied) (event : Event) : Prop where
  removal : event.removes state.cache = true → state.tally.removed < state.tally.created
  creation
    : event.creates env state.cache = true
      → state.tally.created + 1 < state.tally.removed + 2 ^ 64
  remade
    : ∀ path mode dirty, event.op = .makeFile path mode dirty → path ∈ state.cache.inodeIdx
      → state.tally.created < state.tally.removed + state.cache.entries

/-- The counter is what the tally leaves, and at most the number of entries. -/
structure Tallied.Even (state : Tallied) : Prop where
  count : state.cache.size + state.tally.removed = state.tally.created
  bounded : state.cache.size ≤ state.cache.entries
  narrow : state.cache.size < 2 ^ 64

namespace BlockCache

variable {env : Env} {now : Clock} {cache next : BlockCache} {path : Bytes} {result : Int}

-----------------------------------------------------------------------------------------
-- What calls do to the counter and to the index
-----------------------------------------------------------------------------------------

theorem entries_put (cache : BlockCache) (path : Bytes) (inode : Inode)
    : (cache.put path inode).entries
      = if path ∈ cache.inodeIdx then cache.entries else cache.entries + 1 :=
  Std.ExtTreeMap.size_insert

theorem entries_le_put (cache : BlockCache) (path : Bytes) (inode : Inode)
    : cache.entries ≤ (cache.put path inode).entries := by
  rw [entries_put]
  split <;> omega

/-- Loading a path leaves the counter alone and takes no entry away. -/
theorem Ensured.counts (ensured : Ensured env now cache path result next)
    : next.size = cache.size ∧ cache.entries ≤ next.entries := by
  cases ensured with
  | cached here => exact ⟨rfl, le_refl _⟩
  | absent away lookup none => exact ⟨rfl, le_refl _⟩
  | loaded away lookup some => exact ⟨rfl, entries_le_put _ _ _⟩

theorem Ready.counts {inode : Inode} (ready : Ready env now cache path next inode)
    : next.size = cache.size ∧ cache.entries ≤ next.entries := by
  cases ready with
  | cached here found => exact ⟨rfl, le_refl _⟩
  | loaded away lookup some => exact ⟨rfl, entries_le_put _ _ _⟩

theorem Loaded.counts (loaded : Loaded env now cache path result next)
    : next.size = cache.size ∧ cache.entries ≤ next.entries := by
  cases loaded with
  | absent lookup none => exact ⟨rfl, le_refl _⟩
  | kept here found lookup some newer => exact ⟨rfl, le_refl _⟩
  | replaced here found lookup some older => exact ⟨rfl, entries_le_put _ _ _⟩
  | loaded away lookup some => exact ⟨rfl, entries_le_put _ _ _⟩

/-- What a call does to the counter: nothing, one up with a new entry or without one, one down,
or back to 0.
-/
inductive Moves (env : Env) (cache : BlockCache) (event : Event) (next : BlockCache) : Prop
  | kept (creates : event.creates env cache = false) (removes : event.removes cache = false)
    (quiet : ¬ event.Flushes) (size : next.size = cache.size)
    (entries : cache.entries ≤ next.entries)
  | fresh (creates : event.creates env cache = true) (removes : event.removes cache = false)
    (away : ∀ path mode dirty, event.op = .makeFile path mode dirty → path ∉ cache.inodeIdx)
    (size : next.size = (cache.size + 1) % 2 ^ 64) (entries : cache.entries + 1 ≤ next.entries)
  | remade {path : Bytes} {mode : UInt32} {dirty : Bool}
    (made : event.op = .makeFile path mode dirty) (here : path ∈ cache.inodeIdx)
    (size : next.size = (cache.size + 1) % 2 ^ 64) (entries : next.entries = cache.entries)
  | removed {path : Bytes} (gone : event.op = .remove path) (here : cache.inCache path = true)
    (size : next.size = (cache.size + (2 ^ 64 - 1)) % 2 ^ 64)
    (entries : next.entries = cache.entries)
  | flushed (flushes : event.Flushes) (size : next.size = 0)

theorem createsTarget_eq_false {first : BlockCache} {from_ to_ : Bytes} {other : Int}
    (ensured : Ensured env now cache from_ 0 first) (target : Ensured env now first to_ other next)
    (there : other ≠ -1)
    : cache.createsTarget env now from_ to_ = false := by
  rw [createsTarget, ensured.eq]
  simp [target.eq, there]

theorem createsTarget_eq_true {first : BlockCache} {from_ to_ : Bytes}
    (ensured : Ensured env now cache from_ 0 first) (target : Ensured env now first to_ (-1) next)
    : cache.createsTarget env now from_ to_ = true := by
  rw [createsTarget, ensured.eq]
  simp [target.eq]

/-- A flush that writes nothing leaves the cache alone. -/
theorem Flushed.moves {op : Op} (flushed : Flushed env cache result next)
    (flush : op = .flushToDisk ∨ ∃ onClose, op = .flushToShdw onClose)
    : Moves env cache ⟨now, op, result⟩ next := by
  cases flushed with
  | nothing unchanged =>
      rcases flush with rfl | ⟨onClose, rfl⟩
      · exact .kept rfl rfl (by simp [Event.Flushes]) rfl (le_refl _)
      · exact .kept rfl rfl (by simp [Event.Flushes]) rfl (le_refl _)
  | flushed changed filled => exact .flushed ⟨flush, rfl⟩ rfl

/-- What each call does to the counter. -/
theorem Effect.moves {op : Op} (effect : Effect env now cache op result next)
    : Moves env cache ⟨now, op, result⟩ next := by
  cases effect with
  | makeFile path mode dirty =>
      have entries := entries_put cache path (if dirty then
        ((Inode.new env now path).setMode now mode).setDirty
        else (Inode.new env now path).setMode now mode)
      by_cases here : path ∈ cache.inodeIdx
      · rw [if_pos here] at entries
        exact .remade rfl here rfl entries
      · rw [if_neg here] at entries
        refine .fresh rfl rfl ?_ rfl entries.ge
        rintro _ _ _ same
        obtain ⟨rfl, _⟩ := Op.makeFile.inj same
        exact here
  | writeMissing missing => exact .kept rfl rfl (by simp [Event.Flushes]) rfl (le_refl _)
  | write ready loop =>
      exact .kept rfl rfl (by simp [Event.Flushes]) ready.counts.1 ready.counts.2
  | truncateMissing away => exact .kept rfl rfl (by simp [Event.Flushes]) rfl (le_refl _)
  | truncate here found => exact .kept rfl rfl (by simp [Event.Flushes]) rfl (le_refl _)
  | removeMissing away => exact .kept rfl away (by simp [Event.Flushes]) rfl (le_refl _)
  | remove here noNulls found => exact .removed rfl here rfl rfl
  | rmdirMissing away => exact .kept rfl rfl (by simp [Event.Flushes]) rfl (le_refl _)
  | rmdir here found => exact .kept rfl rfl (by simp [Event.Flushes]) rfl (le_refl _)
  | @renameMissing from_ to_ missing =>
      have uncreated : cache.createsTarget env now from_ to_ = false := by
        rw [createsTarget, missing.eq]
        rfl
      exact .kept uncreated rfl (by simp [Event.Flushes]) rfl (le_refl _)
  | renameOver ensured target found =>
      refine .kept (createsTarget_eq_false ensured target (by decide)) rfl (by simp [Event.Flushes])
        (target.counts.1.trans ensured.counts.1) ?_
      exact ensured.counts.2.trans (target.counts.2.trans (entries_le_put _ _ _))
  | @renameNew from_ to_ first old source ensured target was found =>
      refine .fresh (createsTarget_eq_true ensured target) rfl (by simp) ?_ ?_
      · rw [← ensured.counts.1]
        rfl
      · have away : to_ ∉ first.inodeIdx := by
          cases target with
          | absent away lookup none =>
              intro here
              rw [BlockCache.inCache, decide_eq_false_iff_not] at away
              exact away (Or.inl here)
        have made := entries_put first to_ ((Inode.new env now to_).setMode now old.mode).setDirty
        rw [if_neg away] at made
        calc cache.entries + 1
            ≤ first.entries + 1 := Nat.succ_le_succ ensured.counts.2
          _ = (first.makeFile env now to_ old.mode true).entries := made.symm
          _ ≤ ((first.makeFile env now to_ old.mode true).moved env now from_ to_ source).entries :=
              entries_le_put _ _ _
  | symlink from_ to_ => exact .kept rfl rfl (by simp [Event.Flushes]) rfl (entries_le_put _ _ _)
  | open_ ensured => exact .kept rfl rfl (by simp [Event.Flushes]) ensured.counts.1 ensured.counts.2
  | read ensured found bytes =>
      exact .kept rfl rfl (by simp [Event.Flushes]) ensured.counts.1 ensured.counts.2
  | readlink outcome => exact .kept rfl rfl (by simp [Event.Flushes]) rfl (le_refl _)
  | getattr outcome => exact .kept rfl rfl (by simp [Event.Flushes]) rfl (le_refl _)
  | getRefs outcome => exact .kept rfl rfl (by simp [Event.Flushes]) rfl (le_refl _)
  | inCache path => exact .kept rfl rfl (by simp [Event.Flushes]) rfl (le_refl _)
  | loadFromDisk loaded =>
      exact .kept rfl rfl (by simp [Event.Flushes]) loaded.counts.1 loaded.counts.2
  | getInodeByPath path =>
      exact .kept rfl rfl (by simp [Event.Flushes]) rfl Std.ExtTreeMap.size_le_size_insertIfNew
  | flushToDisk flushed => exact flushed.moves (Or.inl rfl)
  | flushToShdwKept small => exact .kept rfl rfl (by simp [Event.Flushes]) rfl (le_refl _)
  | flushToShdw flushed => exact flushed.moves (Or.inr ⟨_, rfl⟩)
  | loadTrees order => exact .kept rfl rfl (by simp [Event.Flushes]) rfl (le_refl _)
  | readdir order path => exact .kept rfl rfl (by simp [Event.Flushes]) rfl (le_refl _)

-----------------------------------------------------------------------------------------
-- What calls do to the tally
-----------------------------------------------------------------------------------------

/-- Without a flush the tally goes up with creations and removals. -/
theorem tally_after {event : Event} (tally : Tally) (cache : BlockCache) (quiet : ¬ event.Flushes)
    : tally.after env cache event
      = { created := tally.created + if event.creates env cache then 1 else 0
          removed := tally.removed + if event.removes cache then 1 else 0 } := by
  obtain ⟨now, op, result⟩ := event
  cases op with
  | flushToDisk =>
      have failed : result ≠ 0 := fun zero => quiet ⟨Or.inl rfl, zero⟩
      simp [Tally.after, failed, Event.creates, Event.removes]
  | flushToShdw onClose =>
      have failed : result ≠ 0 := fun zero => quiet ⟨Or.inr ⟨onClose, rfl⟩, zero⟩
      simp [Tally.after, failed, Event.creates, Event.removes]
  | _ => rfl

/-- A flush that writes a new version starts a new tally. -/
theorem tally_after_flush {event : Event} (tally : Tally) (cache : BlockCache)
    (flushes : event.Flushes)
    : tally.after env cache event = ⟨0, 0⟩ := by
  obtain ⟨now, op, result⟩ := event
  obtain ⟨rfl | ⟨onClose, rfl⟩, rfl⟩ := flushes <;> rfl

/-- A call that creates or removes is no flush. -/
theorem not_flushes (env : Env) {event : Event}
    (counted : event.creates env cache = true ∨ event.removes cache = true)
    : ¬ event.Flushes := by
  obtain ⟨now, op, result⟩ := event
  rintro ⟨rfl | ⟨onClose, rfl⟩, -⟩ <;> simp [Event.creates, Event.removes] at counted

/-- Before a close only a full cache is flushed. -/
theorem flushToShdw_full {event : Event} (taken : Steps env cache event next)
    (early : event.op = .flushToShdw false) (written : event.result = 0)
    : MAX_SIZE ≤ cache.size := by
  by_contra small
  unfold Steps at taken
  rw [early, step, flushToShdw, if_pos ⟨Nat.lt_of_not_le small, rfl⟩, written] at taken
  cases (Prod.mk.inj (Except.ok.inj taken)).1

/-- Nothing was counted in a new cache. -/
theorem even_new (disk : List Image) (order : VisitOrder)
    : Tallied.Even ⟨BlockCache.new disk order 0, ⟨0, 0⟩⟩ :=
  ⟨rfl, Nat.zero_le _, Nat.two_pow_pos 64⟩

-----------------------------------------------------------------------------------------
-- One call
-----------------------------------------------------------------------------------------

section Call

variable {tally : Tally} {event : Event}

/-- A call keeps the counter exactly if it is balanced, and then counter and tally agree again. -/
def Decides (env : Env) (cache : BlockCache) (tally : Tally) (event : Event) (next : BlockCache)
    : Prop :=
  (KeepsCount env ⟨cache, tally⟩ event ⟨next, tally.after env cache event⟩
      ↔ Balanced env ⟨cache, tally⟩ event)
    ∧ (Balanced env ⟨cache, tally⟩ event → Tallied.Even ⟨next, tally.after env cache event⟩)

theorem Decides.kept (even : Tallied.Even ⟨cache, tally⟩)
    (creates : event.creates env cache = false) (removes : event.removes cache = false)
    (quiet : ¬ event.Flushes) (size : next.size = cache.size)
    (entries : cache.entries ≤ next.entries)
    : Decides env cache tally event next := by
  obtain ⟨count, bounded, narrow⟩ := even
  have limit : next.size ≤ next.entries := size.trans_le (bounded.trans entries)
  refine ⟨iff_of_true ?_ ?_, fun _ => ?_⟩
  · exact ⟨fun lowers => by simp [removes] at lowers, fun raises => by simp [creates] at raises,
      limit, fun early written => absurd ⟨Or.inr ⟨_, early⟩, written⟩ quiet⟩
  · exact ⟨fun lowers => by simp [removes] at lowers, fun raises => by simp [creates] at raises,
      fun path mode dirty made => by simp [Event.creates, made] at creates⟩
  · rw [tally_after tally cache quiet, creates, removes]
    exact ⟨by simpa [size] using count, limit, size.trans_lt narrow⟩

theorem Decides.fresh (even : Tallied.Even ⟨cache, tally⟩)
    (creates : event.creates env cache = true) (removes : event.removes cache = false)
    (away : ∀ path mode dirty, event.op = .makeFile path mode dirty → path ∉ cache.inodeIdx)
    (size : next.size = (cache.size + 1) % 2 ^ 64) (entries : cache.entries + 1 ≤ next.entries)
    : Decides env cache tally event next := by
  have quiet := not_flushes env (Or.inl creates)
  obtain ⟨count, bounded, narrow⟩ := even
  dsimp only at count bounded narrow
  refine ⟨⟨fun kept => ?_, fun balanced => ?_⟩, fun balanced => ?_⟩
  · have room := kept.raised creates
    refine ⟨fun lowers => by simp [removes] at lowers, fun _ => ?_,
      fun path mode dirty made here => absurd here (away path mode dirty made)⟩
    dsimp only at room ⊢
    omega
  · have room := balanced.creation creates
    refine ⟨fun lowers => by simp [removes] at lowers, fun _ => ?_, ?_,
      fun early written => absurd ⟨Or.inr ⟨_, early⟩, written⟩ quiet⟩ <;>
      dsimp only at room ⊢ <;> omega
  · have room := balanced.creation creates
    rw [tally_after tally cache quiet, creates, removes]
    refine ⟨?_, ?_, ?_⟩ <;> simp only [if_true, Bool.false_eq_true, if_false] at room ⊢ <;> omega

theorem Decides.remade {mode : UInt32} {dirty : Bool} (even : Tallied.Even ⟨cache, tally⟩)
    (made : event.op = .makeFile path mode dirty) (here : path ∈ cache.inodeIdx)
    (size : next.size = (cache.size + 1) % 2 ^ 64) (entries : next.entries = cache.entries)
    : Decides env cache tally event next := by
  have creates : event.creates env cache = true := by rw [Event.creates, made]
  have removes : event.removes cache = false := by rw [Event.removes, made]
  have quiet := not_flushes env (Or.inl creates)
  obtain ⟨count, bounded, narrow⟩ := even
  dsimp only at count bounded narrow
  refine ⟨⟨fun kept => ?_, fun balanced => ?_⟩, fun balanced => ?_⟩
  · have room := kept.raised creates
    have limit := kept.bounded
    refine ⟨fun lowers => by simp [removes] at lowers, fun _ => ?_, fun _ _ _ _ _ => ?_⟩ <;>
      dsimp only at room limit ⊢ <;> omega
  · have room := balanced.creation creates
    have uncounted := balanced.remade path mode dirty made here
    refine ⟨fun lowers => by simp [removes] at lowers, fun _ => ?_, ?_,
      fun early written => absurd ⟨Or.inr ⟨_, early⟩, written⟩ quiet⟩ <;>
      dsimp only at room uncounted ⊢ <;> omega
  · have room := balanced.creation creates
    have uncounted := balanced.remade path mode dirty made here
    rw [tally_after tally cache quiet, creates, removes]
    refine ⟨?_, ?_, ?_⟩ <;>
      simp only [if_true, Bool.false_eq_true, if_false] at room uncounted ⊢ <;> omega

theorem Decides.removed (even : Tallied.Even ⟨cache, tally⟩)
    (gone : event.op = .remove path) (here : cache.inCache path = true)
    (size : next.size = (cache.size + (2 ^ 64 - 1)) % 2 ^ 64)
    (entries : next.entries = cache.entries)
    : Decides env cache tally event next := by
  have creates : event.creates env cache = false := by rw [Event.creates, gone]
  have removes : event.removes cache = true := by
    rw [Event.removes, gone]
    exact here
  have quiet := not_flushes env (Or.inr removes)
  obtain ⟨count, bounded, narrow⟩ := even
  dsimp only at count bounded narrow
  refine ⟨⟨fun kept => ?_, fun balanced => ?_⟩, fun balanced => ?_⟩
  · have some := kept.lowered removes
    refine ⟨fun _ => ?_, fun raises => by simp [creates] at raises,
      fun path mode dirty made => by simp [gone] at made⟩
    dsimp only at some ⊢
    omega
  · have left := balanced.removal removes
    refine ⟨fun _ => ?_, fun raises => by simp [creates] at raises, ?_,
      fun early written => absurd ⟨Or.inr ⟨_, early⟩, written⟩ quiet⟩ <;>
      dsimp only at left ⊢ <;> omega
  · have left := balanced.removal removes
    rw [tally_after tally cache quiet, creates, removes]
    refine ⟨?_, ?_, ?_⟩ <;> simp only [if_true, Bool.false_eq_true, if_false] at left ⊢ <;> omega

theorem Decides.flushed (even : Tallied.Even ⟨cache, tally⟩) (flushes : event.Flushes)
    (taken : Steps env cache event next) (size : next.size = 0)
    : Decides env cache tally event next := by
  have creates : event.creates env cache = false := by
    by_contra counted
    exact not_flushes env (Or.inl (by simpa using counted)) flushes
  have removes : event.removes cache = false := by
    by_contra counted
    exact not_flushes env (Or.inr (by simpa using counted)) flushes
  have start : next.size ≤ next.entries := size.trans_le (Nat.zero_le _)
  refine ⟨iff_of_true ?_ ?_, fun _ => ?_⟩
  · exact ⟨fun lowers => by simp [removes] at lowers, fun raises => by simp [creates] at raises,
      start, fun early written => (flushToShdw_full taken early written).trans even.bounded⟩
  · exact ⟨fun lowers => by simp [removes] at lowers, fun raises => by simp [creates] at raises,
      fun path mode dirty made => by simp [Event.creates, made] at creates⟩
  · rw [tally_after_flush tally cache flushes]
    exact ⟨size, start, size.trans_lt (Nat.two_pow_pos 64)⟩

/-- Every call decides, by cases on what it does to the counter. -/
theorem Decides.of_steps (even : Tallied.Even ⟨cache, tally⟩) (taken : Steps env cache event next)
    : Decides env cache tally event next := by
  have moves : Moves env cache event next := (step_effect taken).moves
  cases moves with
  | kept creates removes quiet size entries => exact .kept even creates removes quiet size entries
  | fresh creates removes away size entries => exact .fresh even creates removes away size entries
  | remade made here size entries => exact .remade even made here size entries
  | removed gone here size entries => exact .removed even gone here size entries
  | flushed flushes size => exact .flushed even flushes taken size

end Call

-----------------------------------------------------------------------------------------
-- Runs
-----------------------------------------------------------------------------------------

/-- A run of which every call keeps the counter, and one of which every call is balanced. -/
def KeepsCountRun (env : Env) : Tallied → List Event → Tallied → Prop :=
  Run fun state event next => TalliedSteps env state event next ∧ KeepsCount env state event next

def BalancedRun (env : Env) : Tallied → List Event → Tallied → Prop :=
  Run fun state event next => TalliedSteps env state event next ∧ Balanced env state event

/-- Every run can be tallied, by induction on it. -/
theorem exists_tally {first : BlockCache} {events : List Event} (tally : Tally)
    (run : Run (Steps env) first events cache)
    : ∃ tally', Run (TalliedSteps env) ⟨first, tally⟩ events ⟨cache, tally'⟩ := by
  induction run with
  | nil => exact ⟨tally, .nil⟩
  | snoc before last ih =>
      obtain ⟨tally', before'⟩ := ih
      exact ⟨_, .snoc before' ⟨last, rfl⟩⟩

theorem decides_of_tallied {state after : Tallied} {event : Event} (even : state.Even)
    (taken : TalliedSteps env state event after)
    : (KeepsCount env state event after ↔ Balanced env state event)
      ∧ (Balanced env state event → after.Even) := by
  obtain ⟨next, tally⟩ := after
  obtain ⟨stepped, rfl⟩ := taken
  exact Decides.of_steps even stepped

/-- The counter is kept along a run exactly if every call is balanced, by induction on the run:
up to then counter and tally agree.
-/
theorem keepsCountRun_iff {first state : Tallied} {events : List Event} (even : first.Even)
    : KeepsCountRun env first events state ↔ BalancedRun env first events state := by
  constructor
  · intro run
    refine (run.invariant (P := fun events state => BalancedRun env first events state ∧ state.Even)
      ⟨.nil, even⟩ ?_).1
    rintro events state event next - ⟨before, even⟩ ⟨taken, kept⟩
    obtain ⟨decides, after⟩ := decides_of_tallied even taken
    exact ⟨.snoc before ⟨taken, decides.mp kept⟩, after (decides.mp kept)⟩
  · intro run
    refine (run.invariant (P := fun events state => KeepsCountRun env first events state
      ∧ state.Even) ⟨.nil, even⟩ ?_).1
    rintro events state event next - ⟨before, even⟩ ⟨taken, balanced⟩
    obtain ⟨decides, after⟩ := decides_of_tallied even taken
    exact ⟨.snoc before ⟨taken, decides.mpr balanced⟩, after balanced⟩

/-- In a run from an empty cache and a counter of 0 the counter never wraps and never exceeds the
number of entries, exactly if every call is balanced.
-/
theorem counter_kept_iff {disk : List Image} {order : VisitOrder} {events : List Event}
    (run : Run (Steps env) (BlockCache.new disk order 0) events cache)
    : ∃ tally, Run (TalliedSteps env) ⟨BlockCache.new disk order 0, ⟨0, 0⟩⟩ events ⟨cache, tally⟩
      ∧ (KeepsCountRun env ⟨BlockCache.new disk order 0, ⟨0, 0⟩⟩ events ⟨cache, tally⟩
        ↔ BalancedRun env ⟨BlockCache.new disk order 0, ⟨0, 0⟩⟩ events ⟨cache, tally⟩) := by
  obtain ⟨tally, tallied⟩ := exists_tally ⟨0, 0⟩ run
  exact ⟨tally, tallied, keepsCountRun_iff (even_new disk order)⟩

/-- A run that creates a file and removes it. -/
theorem counter_kept_iff_removed
    : ∃ cache tally,
        Run (TalliedSteps Util.twoDigests) ⟨fresh, ⟨0, 0⟩⟩
          [⟨.at_ 1, .makeFile [47, 97] 0o100644 true, 0⟩, ⟨.at_ 2, .remove [47, 97], 0⟩]
          ⟨cache, tally⟩
        ∧ (KeepsCountRun Util.twoDigests ⟨fresh, ⟨0, 0⟩⟩
            [⟨.at_ 1, .makeFile [47, 97] 0o100644 true, 0⟩, ⟨.at_ 2, .remove [47, 97], 0⟩]
            ⟨cache, tally⟩
          ↔ BalancedRun Util.twoDigests ⟨fresh, ⟨0, 0⟩⟩
            [⟨.at_ 1, .makeFile [47, 97] 0o100644 true, 0⟩, ⟨.at_ 2, .remove [47, 97], 0⟩]
            ⟨cache, tally⟩) := by
  obtain ⟨cache, removed⟩ := withFile_removed
  have run : Run (Steps Util.twoDigests) fresh
      [⟨.at_ 1, .makeFile [47, 97] 0o100644 true, 0⟩, ⟨.at_ 2, .remove [47, 97], 0⟩] cache :=
    .snoc (.snoc .nil rfl) removed
  exact ⟨cache, counter_kept_iff run⟩

/-- A file that is removed twice is counted down twice. -/
theorem counter_wraps
    : ∃ cache,
        Run (Steps Util.twoDigests) fresh
          [⟨.at_ 1, .makeFile [47, 97] 0o100644 true, 0⟩, ⟨.at_ 2, .remove [47, 97], 0⟩,
            ⟨.at_ 3, .remove [47, 97], 0⟩] cache
        ∧ cache.size = 2 ^ 64 - 1 ∧ cache.entries = 1 := by
  have counts : ((withFile.remove (.at_ 2) [47, 97]).toOption.bind (fun once =>
        (once.2.remove (.at_ 3) [47, 97]).toOption.map (fun twice =>
          (once.1, twice.1, twice.2.size, twice.2.entries))))
      = some (0, 0, 2 ^ 64 - 1, 1) := by
    decide +kernel
  cases once : withFile.remove (.at_ 2) [47, 97] with
  | error fault => simp [once, Except.toOption] at counts
  | ok first =>
      cases twice : first.2.remove (.at_ 3) [47, 97] with
      | error fault => simp [once, twice, Except.toOption] at counts
      | ok second =>
          simp only [once, twice, Except.toOption, Option.bind_some, Option.map_some,
            Option.some.injEq, Prod.mk.injEq] at counts
          obtain ⟨result, result', size, entries⟩ := counts
          have made : Run (Steps Util.twoDigests) fresh
              [⟨.at_ 1, .makeFile [47, 97] 0o100644 true, 0⟩] withFile := .snoc .nil rfl
          have removed : Steps Util.twoDigests withFile ⟨.at_ 2, .remove [47, 97], 0⟩ first.2 := by
            rw [Steps, step, once, ← result]
          have again : Steps Util.twoDigests first.2 ⟨.at_ 3, .remove [47, 97], 0⟩ second.2 := by
            rw [Steps, step, twice, ← result']
          exact ⟨second.2, .snoc (.snoc made removed) again, size, entries⟩

end BlockCache

end ZippyFS
