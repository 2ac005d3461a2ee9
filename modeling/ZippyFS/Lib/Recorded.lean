import Mathlib.Tactic.Common

/-! Computations that record events and may fail. Forgetting the events gives the plain
computation; what holds of all events follows the structure of the computation.
-/

/-- The events of a computation, in order, and its outcome. Events before a failure count. -/
structure Recorded (E F α : Type) where
  events : List E
  outcome : Except F α

namespace Recorded

variable {E F α β S X : Type}

/-- A plain computation records nothing. -/
def plain (outcome : Except F α) : Recorded E F α := ⟨[], outcome⟩

/-- One event, with the value it yields. -/
def event (happened : E) (value : α) : Recorded E F α := ⟨[happened], .ok value⟩

instance : Monad (Recorded E F) where
  pure value := plain (.ok value)
  bind first rest :=
    match first.outcome with
    | .ok value => ⟨first.events ++ (rest value).events, (rest value).outcome⟩
    | .error fault => ⟨first.events, .error fault⟩

-----------------------------------------------------------------------------------------
-- Forgetting the events
-----------------------------------------------------------------------------------------

@[simp] theorem outcome_plain (outcome : Except F α)
    : (plain outcome : Recorded E F α).outcome = outcome := rfl

@[simp] theorem outcome_event (happened : E) (value : α)
    : (event happened value : Recorded E F α).outcome = .ok value := rfl

@[simp] theorem outcome_pure (value : α)
    : (pure value : Recorded E F α).outcome = .ok value := rfl

@[simp] theorem outcome_bind (first : Recorded E F α) (rest : α → Recorded E F β)
    : (first >>= rest).outcome = first.outcome >>= fun value => (rest value).outcome := by
  cases first with
  | mk events outcome =>
      cases outcome with
      | error fault => rfl
      | ok value => rfl

/-- Computations in a row are as plain as their parts. -/
theorem outcome_bind_eq {first : Recorded E F α} {rest : α → Recorded E F β}
    {plainly : Except F α} {after : α → Except F β} (head : first.outcome = plainly)
    (tail : ∀ value, (rest value).outcome = after value)
    : (first >>= rest).outcome = plainly >>= after := by
  rw [outcome_bind, head]
  exact congrArg (plainly >>= ·) (funext tail)

/-- A loop whose rounds succeed is a plain loop, by induction on its rounds. -/
theorem outcome_foldlM {round : S → X → Recorded E F S} {plainly : S → X → S}
    (same : ∀ state element, (round state element).outcome = .ok (plainly state element))
    (elements : List X) (state : S)
    : (elements.foldlM round state).outcome = .ok (elements.foldl plainly state) := by
  induction elements generalizing state with
  | nil => rfl
  | cons element rest ih =>
      rw [List.foldlM_cons, outcome_bind, same]
      exact ih _

-----------------------------------------------------------------------------------------
-- What holds of all events
-----------------------------------------------------------------------------------------

/-- All recorded events have a property. -/
def All (P : E → Prop) (run : Recorded E F α) : Prop := ∀ happened ∈ run.events, P happened

variable {P : E → Prop}

@[simp] theorem all_plain (outcome : Except F α) : (plain outcome : Recorded E F α).All P := by
  simp [All, plain]

@[simp] theorem all_pure (value : α) : (pure value : Recorded E F α).All P :=
  all_plain (.ok value)

@[simp] theorem all_event {happened : E} {value : α}
    : (event happened value : Recorded E F α).All P ↔ P happened := by
  simp [All, event]

/-- The events of two computations in a row. -/
theorem all_bind_iff {first : Recorded E F α} {rest : α → Recorded E F β}
    : (first >>= rest).All P
      ↔ first.All P ∧ ∀ value, first.outcome = .ok value → (rest value).All P := by
  cases first with
  | mk events outcome =>
      cases outcome with
      | error fault =>
          have stopped : ((⟨events, .error fault⟩ : Recorded E F α) >>= rest).events = events := rfl
          simp [All, stopped]
      | ok value =>
          have joined : ((⟨events, .ok value⟩ : Recorded E F α) >>= rest).events
              = events ++ (rest value).events := rfl
          simp [All, joined, or_imp, forall_and]

/-- The same after a computation with a known outcome. -/
theorem all_bind_ok {first : Recorded E F α} {rest : α → Recorded E F β} {value : α}
    (known : first.outcome = .ok value)
    : (first >>= rest).All P ↔ first.All P ∧ (rest value).All P := by
  rw [all_bind_iff, known]
  simp

/-- An event, then the rest. -/
@[simp] theorem all_event_bind {happened : E} {value : α} {rest : α → Recorded E F β}
    : ((event happened value : Recorded E F α) >>= rest).All P
      ↔ P happened ∧ (rest value).All P := by
  rw [all_bind_ok (outcome_event happened value), all_event]

/-- A plain computation, then the rest. -/
@[simp] theorem all_plain_bind {value : α} {rest : α → Recorded E F β}
    : ((plain (.ok value) : Recorded E F α) >>= rest).All P ↔ (rest value).All P := by
  rw [all_bind_ok (outcome_plain (.ok value)), and_iff_right (all_plain _)]

@[simp] theorem all_pure_bind {value : α} {rest : α → Recorded E F β}
    : ((pure value : Recorded E F α) >>= rest).All P ↔ (rest value).All P :=
  all_plain_bind

/-- A loop whose rounds succeed, and whose events depend on the element only, by induction on
its rounds.
-/
theorem all_foldlM {round : S → X → Recorded E F S} {Q : X → Prop}
    (ends : ∀ state element, ∃ next, (round state element).outcome = .ok next)
    (events : ∀ state element, (round state element).All P ↔ Q element)
    (elements : List X) (state : S)
    : (elements.foldlM round state).All P ↔ ∀ element ∈ elements, Q element := by
  induction elements generalizing state with
  | nil => simp
  | cons element rest ih =>
      obtain ⟨next, known⟩ := ends state element
      rw [List.foldlM_cons, all_bind_ok known, events, ih, List.forall_mem_cons]

/-- Steps may be grouped as one likes: a failure ends both groupings with the same events. -/
theorem lawful : LawfulMonad (Recorded E F) := by
  refine LawfulMonad.mk' _ ?idMap (fun value rest => rfl) ?assoc
  case idMap =>
    rintro α ⟨events, fault | value⟩
    · rfl
    · exact congrArg (fun all => Recorded.mk all _) (List.append_nil events)
  case assoc =>
    rintro α β γ ⟨events, fault | value⟩ second third
    · rfl
    · dsimp only [bind]
      cases (second value).outcome with
      | error fault => rfl
      | ok other => exact congrArg (fun all => Recorded.mk all _) (List.append_assoc ..)

/-- The last round of a loop comes after all others. -/
theorem all_foldlM_concat {round : S → X → Recorded E F S} {elements : List X} {last : X}
    {state : S}
    : ((elements ++ [last]).foldlM round state).All P
      ↔ (elements.foldlM round state).All P
        ∧ ∀ middle, (elements.foldlM round state).outcome = .ok middle
          → (round middle last).All P := by
  have grouping : LawfulMonad (Recorded E F) := lawful
  rw [List.foldlM_append]
  simp only [List.foldlM_cons, List.foldlM_nil, bind_pure]
  exact all_bind_iff

end Recorded
