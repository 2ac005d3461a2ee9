import Mathlib.Data.List.Induction
import Mathlib.Data.List.Nodup
import Mathlib.Order.Lattice

/-! Scans that keep the newest item seen so far. Whether an equally new item replaces the
one kept is a parameter; without equal times it makes no difference.
-/

namespace NewestWins

variable {A T : Type} {time : A → T} {items : List A}

section Order

variable [LinearOrder T]

/-- An item that no other is newer than. -/
structure IsNewest (time : A → T) (items : List A) (item : A) : Prop where
  member : item ∈ items
  latest : ∀ other ∈ items, time other ≤ time item

/-- Items with different times have at most one newest. -/
theorem IsNewest.unique {first second : A} (distinct : (items.map time).Nodup)
    (one : IsNewest time items first) (two : IsNewest time items second)
    : first = second :=
  List.inj_on_of_nodup_map distinct one.member two.member
    (le_antisymm (two.latest first one.member) (one.latest second two.member))

/-- A newest item is also newest among fewer items. -/
theorem IsNewest.restrict {item : A} {part : List A} (newest : IsNewest time items item)
    (member : item ∈ part) (fewer : part ⊆ items)
    : IsNewest time part item :=
  ⟨member, fun other inside => newest.latest other (fewer inside)⟩

/-- An item that is newer than all others is the only newest one. -/
theorem isNewest_iff_of_latest {item : A} (member : item ∈ items)
    (older : ∀ other ∈ items, other = item ∨ time other < time item) (other : A)
    : IsNewest time items other ↔ other = item := by
  constructor
  · intro newest
    exact (older other newest.member).resolve_right (newest.latest item member).not_gt
  · rintro rfl
    refine ⟨member, fun old inside => ?_⟩
    rcases older old inside with rfl | before
    · exact le_refl _
    · exact before.le

end Order

/-- Keep an item if there is none yet or if it replaces the one kept. -/
def keep (replaces : T → T → Prop) [DecidableRel replaces] (time : A → T) (best : Option A)
    (item : A)
    : Option A :=
  match best with
  | none => some item
  | some old => if replaces (time old) (time item) then some item else some old

/-- The item kept after a scan. -/
def scan (replaces : T → T → Prop) [DecidableRel replaces] (time : A → T) (items : List A)
    : Option A :=
  items.foldl (keep replaces time) none

@[simp] theorem scan_nil (replaces : T → T → Prop) [DecidableRel replaces] (time : A → T)
    : scan replaces time ([] : List A) = none := rfl

@[simp] theorem scan_concat (replaces : T → T → Prop) [DecidableRel replaces] (item : A)
    : scan replaces time (items ++ [item])
      = keep replaces time (scan replaces time items) item := by
  simp [scan]

section Scan

variable [LinearOrder T]

/-- Only items at least as new replace others, and only items at most as new do not. -/
structure Newer (replaces : T → T → Prop) : Prop where
  replaced : ∀ old new, replaces old new → old ≤ new
  kept : ∀ old new, ¬ replaces old new → new ≤ old

theorem newer_lt : Newer (fun old new : T => old < new) :=
  ⟨fun _ _ => le_of_lt, fun _ _ => not_lt.mp⟩

theorem newer_le : Newer (fun old new : T => old ≤ new) :=
  ⟨fun _ _ => id, fun _ _ => le_of_not_ge⟩

variable {replaces : T → T → Prop} [DecidableRel replaces]

/-- A scan over items keeps one of them, by induction from the end. -/
theorem scan_spec (rule : Newer replaces) (time : A → T) (items : List A)
    : (items = [] ∧ scan replaces time items = none)
      ∨ ∃ item, scan replaces time items = some item ∧ IsNewest time items item := by
  induction items using List.reverseRecOn with
  | nil => exact Or.inl ⟨rfl, rfl⟩
  | append_singleton items item ih =>
      refine Or.inr ?_
      rw [scan_concat]
      rcases ih with ⟨rfl, empty⟩ | ⟨old, found, newest⟩
      · rw [empty]
        exact ⟨item, rfl, by simp, by simp⟩
      · rw [found, keep]
        by_cases wins : replaces (time old) (time item)
        · rw [if_pos wins]
          refine ⟨item, rfl, by simp, ?_⟩
          intro other inside
          rcases List.mem_append.mp inside with before | here
          · exact (newest.latest other before).trans (rule.replaced _ _ wins)
          · rw [List.mem_singleton.mp here]
        · rw [if_neg wins]
          refine ⟨old, rfl, by simp [newest.member], ?_⟩
          intro other inside
          rcases List.mem_append.mp inside with before | here
          · exact newest.latest other before
          · rw [List.mem_singleton.mp here]
            exact rule.kept _ _ wins

/-- A scan ends with the newest item, when no two times are equal. -/
theorem scan_eq_some_iff (rule : Newer replaces) (distinct : (items.map time).Nodup) (item : A)
    : scan replaces time items = some item ↔ IsNewest time items item := by
  rcases scan_spec rule time items with ⟨rfl, _⟩ | ⟨kept, found, newest⟩
  · rw [scan_nil]
    exact iff_of_false (by simp) (fun newest => by simpa using newest.member)
  · rw [found, Option.some.injEq]
    constructor
    · rintro rfl
      exact newest
    · exact fun other => newest.unique distinct other

/-- Some item is newest, unless there is none. -/
theorem exists_isNewest (time : A → T) (nonempty : items ≠ [])
    : ∃ item, IsNewest time items item := by
  rcases scan_spec newer_le time items with ⟨empty, _⟩ | ⟨item, _, newest⟩
  · exact absurd empty nonempty
  · exact ⟨item, newest⟩

/-- A newest item that comes last is kept, where equally new items replace others. -/
theorem scan_concat_newest {item : A} (newest : IsNewest time (items ++ [item]) item)
    : scan (fun old new : T => old ≤ new) time (items ++ [item]) = some item := by
  rw [scan_concat]
  rcases scan_spec newer_le time items with ⟨-, empty⟩ | ⟨old, found, isNewest⟩
  · rw [empty]
    rfl
  · have before := newest.latest old (List.mem_append_left _ isNewest.member)
    rw [found, keep, if_pos before]

/-- All newest items look the same. -/
def Undisputed {B : Type} (time : A → T) (look : A → B) (items : List A) : Prop :=
  ∀ one two, IsNewest time items one → IsNewest time items two → look one = look two

/-- A newest item is newest in any order. -/
theorem IsNewest.perm {part : List A} {item : A} (newest : IsNewest time items item)
    (same : part.Perm items)
    : IsNewest time part item :=
  newest.restrict (same.mem_iff.mpr newest.member) same.subset

/-- Without a dispute the kept item looks as every newest one does, whatever the order. -/
theorem Undisputed.scan_look {B : Type} {look : A → B} {part : List A} {value : B}
    (undisputed : Undisputed time look items) (rule : Newer replaces) (same : part.Perm items)
    : (scan replaces time part).map look = some value
      ↔ ∃ item, IsNewest time items item ∧ look item = value := by
  rcases scan_spec rule time part with ⟨rfl, empty⟩ | ⟨kept, found, newest⟩
  · rw [empty]
    refine iff_of_false (by simp) ?_
    rintro ⟨item, newest, -⟩
    exact absurd (same.mem_iff.mpr newest.member) (by simp)
  · rw [found, Option.map_some, Option.some.injEq]
    have isNewest := newest.perm same.symm
    constructor
    · intro looks
      exact ⟨kept, isNewest, looks⟩
    · rintro ⟨item, other, rfl⟩
      exact undisputed kept item isNewest other

end Scan

end NewestWins
