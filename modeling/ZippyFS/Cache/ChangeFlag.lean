import ZippyFS.Cache.Flush

/-! The flag `has_changed_`. Every change that succeeds raises it and nothing lowers it again,
so a flush that follows a flush writes a new version even if nothing has changed in between.
-/

namespace ZippyFS

open Runs

/-- The operations that change files. -/
def Op.mutates : Op → Bool
  | makeFile .. | write .. | truncate .. | remove _ | rmdir _ | rename .. | symlink .. => true
  | open_ _ | read .. | readlink .. | getattr _ | getRefs _ | inCache _ | loadFromDisk _
  | getInodeByPath _ | flushToDisk | flushToShdw _ | loadTrees _ | readdir .. => false

/-- A change that succeeded. -/
def Event.Changes (event : Event) : Prop := event.op.mutates = true ∧ 0 ≤ event.result

/-- A flush that wrote a new version. -/
def Event.Flushes (event : Event) : Prop :=
  (event.op = .flushToDisk ∨ ∃ onClose, event.op = .flushToShdw onClose) ∧ event.result = 0

/-- Some change succeeded and no flush wrote a new version after it. -/
def ChangedSinceFlush (events : List Event) : Prop :=
  ∃ before event after, events = before ++ event :: after ∧ event.Changes
    ∧ ∀ later ∈ after, ¬ later.Flushes

namespace BlockCache

variable {env : Env} {now : Clock} {cache next first : BlockCache} {path : Bytes}
  {result : Int} {events : List Event}

/-- Reading never creates a new version: the flag is raised exactly when something has changed
since the last flush, and otherwise a flush writes nothing.
-/
structure FlagLaw (env : Env) (events : List Event) (cache : BlockCache) : Prop where
  flag : cache.hasChanged = true ↔ ChangedSinceFlush events
  quiet : ¬ ChangedSinceFlush events → cache.flushToDisk env = .ok (-1, cache)

theorem Ensured.hasChanged (ensured : Ensured env now cache path result next)
    : next.hasChanged = cache.hasChanged := by
  cases ensured <;> rfl

theorem Loaded.hasChanged (loaded : Loaded env now cache path result next)
    : next.hasChanged = cache.hasChanged := by
  cases loaded <;> rfl

theorem Flushed.hasChanged (flushed : Flushed env cache result next)
    : next.hasChanged = cache.hasChanged := by
  cases flushed <;> rfl

/-- A call raises the flag if it is a change that succeeds, and leaves it alone otherwise. -/
theorem Effect.hasChanged {op : Op} (effect : Effect env now cache op result next)
    : next.hasChanged = true
      ↔ cache.hasChanged = true ∨ Event.Changes ⟨now, op, result⟩ := by
  unfold Event.Changes
  cases effect with
  | makeFile path mode dirty => simp [BlockCache.makeFile, Op.mutates]
  | writeMissing missing => simp [Op.mutates]
  | write ready loop => simp [written, Op.mutates]
  | truncateMissing away => simp [Op.mutates]
  | truncate here found => simp [Op.mutates]
  | removeMissing away => simp [Op.mutates]
  | remove here noNulls found => simp [deleted, Op.mutates]
  | rmdirMissing away => simp [Op.mutates]
  | rmdir here found => simp [deleted, Op.mutates]
  | renameMissing missing => simp [Op.mutates]
  | renameOver ensured target found => simp [moved, Op.mutates]
  | renameNew ensured target was found => simp [moved, Op.mutates]
  | symlink from_ to_ => simp [BlockCache.symlink, Op.mutates]
  | open_ ensured => simp [ensured.hasChanged, Op.mutates]
  | read ensured found bytes => simp [ensured.hasChanged, Op.mutates]
  | readlink outcome => simp [Op.mutates]
  | getattr outcome => simp [Op.mutates]
  | getRefs outcome => simp [Op.mutates]
  | inCache path => simp [Op.mutates]
  | loadFromDisk loaded => simp [loaded.hasChanged, Op.mutates]
  | getInodeByPath path => simp [indexed, Op.mutates]
  | flushToDisk flushed => simp [flushed.hasChanged, Op.mutates]
  | flushToShdwKept small => simp [Op.mutates]
  | flushToShdw flushed => simp [flushed.hasChanged, Op.mutates]
  | loadTrees order => simp [BlockCache.loadTrees, Op.mutates]
  | readdir order path => simp [BlockCache.loadTrees, Op.mutates]

/-- A flush that writes a new version saw the flag. -/
theorem Effect.flushes {op : Op} (effect : Effect env now cache op result next)
    (flushes : Event.Flushes ⟨now, op, result⟩)
    : cache.hasChanged = true := by
  obtain ⟨rfl | ⟨onClose, rfl⟩, rfl⟩ := flushes
  · cases effect with
    | flushToDisk flushed =>
        cases flushed with
        | flushed changed filled => exact changed
  · cases effect with
    | flushToShdw flushed =>
        cases flushed with
        | flushed changed filled => exact changed

/-- The flag is raised once a change has succeeded, by induction on the run. -/
theorem hasChanged_run (unchanged : first.hasChanged = false)
    (run : Run (Steps env) first events cache)
    : cache.hasChanged = true ↔ ∃ event ∈ events, event.Changes := by
  refine run.invariant (P := fun events cache =>
    cache.hasChanged = true ↔ ∃ event ∈ events, event.Changes) (by simp [unchanged]) ?_
  intro events cache event next _ before taken
  rw [(step_effect taken).hasChanged, before]
  simp only [List.mem_append, List.mem_singleton, or_and_right, exists_or, exists_eq_left]

/-- A run with a flush that wrote a new version has raised the flag, by induction on it. -/
theorem hasChanged_of_flushes (run : Run (Steps env) first events cache) {event : Event}
    (member : event ∈ events) (flushes : event.Flushes)
    : cache.hasChanged = true := by
  revert event
  refine run.invariant (P := fun events cache => ∀ {event : Event}, event ∈ events
    → event.Flushes → cache.hasChanged = true) (by simp) ?_
  intro events cache event next _ before taken other member flushes
  have effect := step_effect taken
  refine effect.hasChanged.mpr (Or.inl ?_)
  rcases List.mem_append.mp member with earlier | last
  · exact before earlier flushes
  · rw [List.mem_singleton.mp last] at flushes
    exact effect.flushes flushes

/-- Without flushes, a change is a change since the last flush. -/
theorem changedSinceFlush_of_changes (unflushed : ∀ event ∈ events, ¬ event.Flushes)
    {event : Event} (member : event ∈ events) (changes : event.Changes)
    : ChangedSinceFlush events := by
  obtain ⟨before, after, split⟩ := List.append_of_mem member
  exact ⟨before, event, after, split, changes, fun later there =>
    unflushed later (by simp [split, there])⟩

/-- After every run the law holds if and only if no flush has written a new version yet, or
something has changed since the last one that did.
-/
theorem flagLaw_iff {disk : List Image} {order : VisitOrder} {size : Nat}
    (run : Run (Steps env) (BlockCache.new disk order size) events cache)
    : FlagLaw env events cache
      ↔ (∀ event ∈ events, ¬ event.Flushes) ∨ ChangedSinceFlush events := by
  have raised := hasChanged_run rfl run
  constructor
  · intro law
    by_cases unflushed : ∀ event ∈ events, ¬ event.Flushes
    · exact Or.inl unflushed
    · push Not at unflushed
      obtain ⟨event, member, flushes⟩ := unflushed
      exact Or.inr (law.flag.mp (hasChanged_of_flushes run member flushes))
  · intro condition
    have flag : cache.hasChanged = true ↔ ChangedSinceFlush events := by
      rw [raised]
      constructor
      · rintro ⟨event, member, changes⟩
        rcases condition with unflushed | changed
        · exact changedSinceFlush_of_changes unflushed member changes
        · exact changed
      · rintro ⟨before, event, after, split, changes, _⟩
        exact ⟨event, by simp [split], changes⟩
    refine ⟨flag, fun quiet => ?_⟩
    rw [← flag, Bool.not_eq_true] at quiet
    simp [flushToDisk, quiet]

/-- Before the first flush the law holds. -/
theorem flagLaw_iff_created
    : FlagLaw Util.twoDigests [⟨.at_ 1, .makeFile [47, 97] 0o100644 true, 0⟩] withFile := by
  have run : Run (Steps Util.twoDigests) fresh
      [⟨.at_ 1, .makeFile [47, 97] 0o100644 true, 0⟩] withFile := .snoc .nil rfl
  refine (flagLaw_iff run).mpr (Or.inl ?_)
  simp [Event.Flushes]

/-- After a file was created and flushed, the flag is still raised, and nothing has changed. -/
theorem flagLaw_flushed
    : ∃ cache,
        Run (Steps Util.twoDigests) fresh
          [⟨.at_ 1, .makeFile [47, 97] 0o100644 true, 0⟩, ⟨.at_ 2, .flushToDisk, 0⟩] cache
        ∧ ¬ FlagLaw Util.twoDigests
          [⟨.at_ 1, .makeFile [47, 97] 0o100644 true, 0⟩, ⟨.at_ 2, .flushToDisk, 0⟩] cache := by
  obtain ⟨index, outcome⟩ := flush_withFile
  refine ⟨withFile.flushed index, .snoc (.snoc .nil rfl) outcome, ?_⟩
  intro law
  obtain ⟨before, event, after, split, changes, quiet⟩ := law.flag.mp rfl
  have last : (⟨.at_ 2, .flushToDisk, 0⟩ : Event) ∈ after := by
    rcases before with _ | ⟨made, _ | ⟨flush, rest⟩⟩
    · obtain ⟨rfl, rfl⟩ := List.cons.inj split
      exact List.mem_singleton_self _
    · obtain ⟨_, tail⟩ := List.cons.inj split
      obtain ⟨rfl, _⟩ := List.cons.inj tail
      simp [Event.Changes, Op.mutates] at changes
    · have lengths := congrArg List.length split
      simp at lengths
  exact quiet _ last ⟨Or.inl rfl, rfl⟩

end BlockCache

end ZippyFS
