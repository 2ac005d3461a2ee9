import Mathlib.Data.List.Induction
import Mathlib.Tactic.Common

/-! Runs of a transition system, and the induction that carries an invariant along a run. -/

namespace Runs

variable {S E : Type}

/-- From `start`, the events lead to a state; the last event comes last. -/
inductive Run (step : S → E → S → Prop) (start : S) : List E → S → Prop
  | nil : Run step start [] start
  | snoc {events : List E} {state next : S} {event : E} (before : Run step start events state)
    (last : step state event next)
    : Run step start (events ++ [event]) next

section Run

variable {step : S → E → S → Prop} {start state : S} {events : List E}

/-- What holds initially and is preserved by every step holds after every run. -/
theorem Run.invariant {P : List E → S → Prop} (run : Run step start events state)
    (initial : P [] start)
    (preserved
      : ∀ events state event next, Run step start events state → P events state
        → step state event next → P (events ++ [event]) next)
    : P events state := by
  induction run with
  | nil => exact initial
  | snoc before last ih => exact preserved _ _ _ _ before ih last

/-- The same for properties of the state alone. -/
theorem Run.state_invariant {P : S → Prop} (run : Run step start events state)
    (initial : P start) (preserved : ∀ state event next, P state → step state event next → P next)
    : P state :=
  run.invariant (P := fun _ state => P state) initial
    (fun _ state event next _ holds last => preserved state event next holds last)

/-- Steps that can be computed one after the other are a run, by induction on the events. -/
theorem Run.of_foldlM {next : S → E → Option S} (done : events.foldlM next start = some state)
    : Run (fun state event after => next state event = some after) start events state := by
  induction events using List.reverseRecOn generalizing state with
  | nil => exact Option.some.inj done ▸ .nil
  | append_singleton events event ih =>
      rw [List.foldlM_append, Option.bind_eq_bind, Option.bind_eq_some_iff] at done
      obtain ⟨middle, before, last⟩ := done
      exact .snoc (ih before) (by simpa using last)

/-- A run that is not empty ends with a step. -/
theorem Run.split_last {event : E} {next : S} (run : Run step start (events ++ [event]) next)
    : ∃ state, Run step start events state ∧ step state event next := by
  generalize split : events ++ [event] = whole at run
  cases run with
  | nil => exact absurd split (by simp)
  | snoc before last =>
      obtain ⟨rfl, same⟩ := List.append_inj' split rfl
      obtain rfl := List.singleton_inj.mp same
      exact ⟨_, before, last⟩

/-- What every step of a run establishes holds at its end. -/
theorem Run.established {P : S → Prop} (events : List E) (event : E) {next : S}
    (run
      : Run (fun state event next => step state event next ∧ P next) start (events ++ [event]) next)
    : P next := by
  obtain ⟨_, _, _, holds⟩ := run.split_last
  exact holds

/-- A run goes on from where another ended, by induction on the second. -/
theorem Run.append {more : List E} {final : S} (run : Run step start events state)
    (continued : Run step state more final)
    : Run step start (events ++ more) final := by
  induction continued with
  | nil => rwa [List.append_nil]
  | snoc _ last ih =>
      rw [← List.append_assoc]
      exact .snoc ih last

/-- A run over two histories passes a state between them, by induction on the second. -/
theorem Run.split_append {more : List E} {final : S} (run : Run step start (events ++ more) final)
    : ∃ middle, Run step start events middle ∧ Run step middle more final := by
  induction more using List.reverseRecOn generalizing final with
  | nil => exact ⟨final, by simpa using run, .nil⟩
  | append_singleton more event ih =>
      rw [← List.append_assoc] at run
      obtain ⟨state, before, last⟩ := run.split_last
      obtain ⟨middle, first, second⟩ := ih before
      exact ⟨middle, first, .snoc second last⟩

/-- A run in which an event occurs takes its step somewhere. -/
theorem Run.split_mem {event : E} {final : S} (run : Run step start events final)
    (member : event ∈ events)
    : ∃ before after state next, events = before ++ event :: after ∧ Run step start before state
        ∧ step state event next ∧ Run step next after final := by
  obtain ⟨before, after, rfl⟩ := List.append_of_mem member
  rw [← List.singleton_append, ← List.append_assoc] at run
  obtain ⟨next, first, rest⟩ := run.split_append
  obtain ⟨state, earlier, taken⟩ := first.split_last
  exact ⟨before, after, state, next, rfl, earlier, taken, rest⟩

/-- A run of guarded steps is a run. -/
theorem Run.weaken {other : S → E → S → Prop} (run : Run step start events state)
    (weaker : ∀ state event next, step state event next → other state event next)
    : Run other start events state := by
  induction run with
  | nil => exact .nil
  | snoc before last ih => exact .snoc ih (weaker _ _ _ last)

/-- The steps of a run are the steps of its events. -/
theorem Run.recorded (run : Run step start events state)
    : Run (fun state event next => event ∈ events ∧ step state event next) start events state := by
  induction run with
  | nil => exact .nil
  | snoc before last ih =>
      refine .snoc (ih.weaken ?_) ⟨by simp, last⟩
      rintro state event next ⟨member, taken⟩
      exact ⟨List.mem_append_left _ member, taken⟩

/-- A run without events goes nowhere. -/
theorem Run.eq_start (run : Run step start [] state) : state = start := by
  generalize empty : [] = events at run
  cases run with
  | nil => rfl
  | snoc before last => exact absurd empty (by simp)

/-- What one system does another can follow, if it follows the events that matter to it and the
others leave them related.
-/
theorem Run.projected {T : Type} {other : T → E → T → Prop} {keep : E → Bool} {R : S → T → Prop}
    {begin : T} (run : Run step start events state) (initial : R start begin)
    (kept
      : ∀ state event next left, event ∈ events → keep event = true → R state left
        → step state event next → ∃ after, other left event after ∧ R next after)
    (dropped
      : ∀ state event next left, event ∈ events → keep event = false → R state left
        → step state event next → R next left)
    : ∃ left, Run other begin (events.filter keep) left ∧ R state left := by
  refine run.recorded.invariant
    (P := fun events state => ∃ left, Run other begin (events.filter keep) left ∧ R state left)
    ⟨begin, .nil, initial⟩ ?_
  rintro earlier state event next - ⟨left, before, related⟩ ⟨member, taken⟩
  rw [List.filter_append]
  cases matters : keep event with
  | true =>
      obtain ⟨after, last, still⟩ := kept state event next left member matters related taken
      rw [List.filter_cons_of_pos matters, List.filter_nil]
      exact ⟨after, .snoc before last, still⟩
  | false =>
      rw [List.filter_cons_of_neg (by simp [matters]), List.filter_nil, List.append_nil]
      exact ⟨left, before, dropped state event next left member matters related taken⟩

/-- A system that follows every event of another. -/
theorem Run.simulated {T : Type} {other : T → E → T → Prop} {R : S → T → Prop} {begin : T}
    (run : Run step start events state) (initial : R start begin)
    (follow
      : ∀ state event next left, event ∈ events → R state left → step state event next
        → ∃ after, other left event after ∧ R next after)
    : ∃ left, Run other begin events left ∧ R state left := by
  have every : events.filter (fun _ => true) = events := List.filter_eq_self.mpr fun _ _ => rfl
  rw [← every]
  exact run.projected initial
    (fun state event next left member _ => follow state event next left member)
    (fun _ _ _ _ _ never => by cases never)

/-- Two systems that share the events out between them are followed by one that takes them all,
by induction on the events.
-/
theorem Run.merged {T U : Type} {one : T → E → T → Prop} {two : U → E → U → Prop}
    {keep : E → Bool} {R : T → U → S → Prop} {first left : T} {second right : U}
    (taken : Run one first (events.filter keep) left)
    (others : Run two second (events.filter (fun event => !keep event)) right)
    (initial : R first second start)
    (kept
      : ∀ left right state event next, event ∈ events → keep event = true → R left right state
        → one left event next → ∃ after, step state event after ∧ R next right after)
    (rest
      : ∀ left right state event next, event ∈ events → keep event = false → R left right state
        → two right event next → ∃ after, step state event after ∧ R left next after)
    : ∃ state, Run step start events state ∧ R left right state := by
  induction events using List.reverseRecOn generalizing left right with
  | nil =>
      obtain rfl := Run.eq_start taken
      obtain rfl := Run.eq_start others
      exact ⟨start, .nil, initial⟩
  | append_singleton events event ih =>
      have last : event ∈ events ++ [event] := List.mem_append_right _ (List.mem_singleton_self _)
      have ih {left : T} {right : U} (taken : Run one first (events.filter keep) left)
          (others : Run two second (events.filter (fun event => !keep event)) right) :=
        ih taken others
          (fun left right state event next member =>
            kept left right state event next (List.mem_append_left _ member))
          (fun left right state event next member =>
            rest left right state event next (List.mem_append_left _ member))
      rw [List.filter_append] at taken others
      cases matters : keep event with
      | true =>
          rw [List.filter_cons_of_pos matters, List.filter_nil] at taken
          rw [List.filter_cons_of_neg (by simp [matters]), List.filter_nil, List.append_nil]
            at others
          obtain ⟨middle, before, moved⟩ := taken.split_last
          obtain ⟨state, run, related⟩ := ih before others
          obtain ⟨after, made, still⟩ := kept _ _ _ _ _ last matters related moved
          exact ⟨after, .snoc run made, still⟩
      | false =>
          rw [List.filter_cons_of_neg (by simp [matters]), List.filter_nil, List.append_nil]
            at taken
          rw [List.filter_cons_of_pos (by simp [matters]), List.filter_nil] at others
          obtain ⟨middle, before, moved⟩ := others.split_last
          obtain ⟨state, run, related⟩ := ih taken before
          obtain ⟨after, made, still⟩ := rest _ _ _ _ _ last matters related moved
          exact ⟨after, .snoc run made, still⟩

end Run

end Runs
