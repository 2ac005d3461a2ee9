import Mathlib.Tactic.Common

/-! Computations that can fail in several ways: those that never fail in one of them, and pairs
that fail alike or return related values.
-/

namespace Outcomes

variable {E A B : Type} {bad : E}

/-- The computation does not fail in this way. -/
def Never (bad : E) (outcome : Except E A) : Prop := outcome ≠ .error bad

/-- Nothing runs after a failure. -/
theorem error_bind (error : E) (rest : A → Except E B)
    : (Except.error error >>= rest) = .error error :=
  rfl

/-- The rest runs on the value that was returned. -/
theorem ok_bind (value : A) (rest : A → Except E B) : (Except.ok value >>= rest) = rest value :=
  rfl

theorem Never.ok (value : A) : Never bad (.ok value) := fun same => by cases same

theorem Never.error {other : E} (different : other ≠ bad) : Never bad (.error other : Except E A) :=
  fun same => different (Except.error.inj same)

/-- A sequence does not fail if neither part does; the second part runs on what the first one
returned.
-/
theorem Never.bind {first : Except E A} {rest : A → Except E B} (head : Never bad first)
    (tail : ∀ value, first = .ok value → Never bad (rest value))
    : Never bad (first >>= rest) := by
  cases first with
  | error other => exact fun same => head (by rw [Except.error.inj same])
  | ok value => exact tail value rfl

/-- What comes after cannot fail, so the first part decides. -/
theorem Never.bind_iff {first : Except E A} {rest : A → Except E B}
    (tail : ∀ value, Never bad (rest value))
    : Never bad (first >>= rest) ↔ Never bad first := by
  constructor
  · rintro whole rfl
    exact whole rfl
  · exact fun head => head.bind fun value _ => tail value

/-- A choice does not fail if neither branch does. -/
theorem Never.ite {condition : Prop} [Decidable condition] {yes no : Except E A}
    (left : condition → Never bad yes) (right : ¬ condition → Never bad no)
    : Never bad (if condition then yes else no) := by
  split
  · exact left ‹_›
  · exact right ‹_›

/-- A loop over a list does not fail if its body does not, by induction on the list. -/
theorem Never.foldlM {body : B → A → Except E B} {values : List A} {start : B}
    (round : ∀ state value, value ∈ values → Never bad (body state value))
    : Never bad (values.foldlM body start) := by
  induction values generalizing start with
  | nil => exact .ok start
  | cons head rest ih =>
      rw [List.foldlM_cons]
      exact (round start head (List.mem_cons_self ..)).bind fun state _ =>
        ih fun state value member => round state value (List.mem_cons_of_mem _ member)

section Returns

variable {P : A → Prop} {Q : B → Prop}

/-- If the computation returns, its value has a property. -/
def Returns (P : A → Prop) (outcome : Except E A) : Prop := ∀ value, outcome = .ok value → P value

theorem Returns.ok {value : A} (holds : P value) : Returns P (.ok value : Except E A) :=
  fun _ same => Except.ok.inj same ▸ holds

theorem Returns.error (error : E) : Returns P (.error error : Except E A) :=
  fun _ same => nomatch same

/-- A sequence returns what its last part returns. -/
theorem Returns.bind {first : Except E A} {rest : A → Except E B} (head : Returns P first)
    (tail : ∀ value, P value → Returns Q (rest value))
    : Returns Q (first >>= rest) := by
  cases first with
  | error other => exact .error other
  | ok value => exact tail value (head value rfl)

theorem Returns.ite {condition : Prop} [Decidable condition] {yes no : Except E A}
    (left : condition → Returns P yes) (right : ¬ condition → Returns P no)
    : Returns P (if condition then yes else no) := by
  split
  · exact left ‹_›
  · exact right ‹_›

end Returns

section Related

variable {C D : Type} {R : A → C → Prop} {S : B → D → Prop}

/-- Both computations fail in the same way, or both return and the values are related. -/
inductive Related (R : A → C → Prop) : Except E A → Except E C → Prop
  | error (fault : E) : Related R (.error fault) (.error fault)
  | ok {left : A} {right : C} (related : R left right) : Related R (.ok left) (.ok right)

theorem Related.of_eq {outcome : Except E A} {R : A → A → Prop} (self : ∀ value, R value value)
    : Related R outcome outcome := by
  cases outcome with
  | error fault => exact .error fault
  | ok value => exact .ok (self value)

/-- Sequences are related if their parts are. -/
theorem Related.bind {left : Except E A} {right : Except E C} {after : A → Except E B}
    {after' : C → Except E D} (head : Related R left right)
    (tail : ∀ value value', R value value' → Related S (after value) (after' value'))
    : Related S (left >>= after) (right >>= after') := by
  cases head with
  | error fault => exact .error fault
  | ok related => exact tail _ _ related

/-- Related values are those that were returned. -/
theorem Related.recorded {left : Except E A} {right : Except E C} (related : Related R left right)
    : Related (fun value value' => left = .ok value ∧ R value value') left right := by
  cases related with
  | error fault => exact .error fault
  | ok related => exact .ok ⟨rfl, related⟩

theorem Related.mono {R' : A → C → Prop} {left : Except E A} {right : Except E C}
    (related : Related R left right) (weaker : ∀ value value', R value value' → R' value value')
    : Related R' left right := by
  cases related with
  | error fault => exact .error fault
  | ok related => exact .ok (weaker _ _ related)

theorem Related.trans {R' : C → D → Prop} {R'' : A → D → Prop} {left : Except E A}
    {middle : Except E C} {right : Except E D} (first : Related R left middle)
    (second : Related R' middle right)
    (both : ∀ one two three, R one two → R' two three → R'' one three)
    : Related R'' left right := by
  cases first with
  | error fault =>
      cases second with
      | error fault => exact .error fault
  | ok related =>
      cases second with
      | ok related' => exact .ok (both _ _ _ related related')

/-- If one computation returns, so does the other. -/
theorem Related.of_ok {left : A} {right : Except E C} (related : Related R (.ok left) right)
    : ∃ value, right = .ok value ∧ R left value := by
  cases related with
  | ok related => exact ⟨_, rfl, related⟩

theorem Related.of_ok_right {left : Except E A} {right : C} (related : Related R left (.ok right))
    : ∃ value, left = .ok value ∧ R value right := by
  cases related with
  | ok related => exact ⟨_, rfl, related⟩

/-- Choices under one condition are related if their branches are. -/
theorem Related.ite {condition : Prop} [Decidable condition] {yes no : Except E A}
    {yes' no' : Except E C} (left : condition → Related R yes yes')
    (right : ¬ condition → Related R no no')
    : Related R (if condition then yes else no) (if condition then yes' else no') := by
  split
  · exact left ‹_›
  · exact right ‹_›

/-- A computation that returns is related to nothing that returns an unrelated value. -/
theorem Related.ok_inj {left : A} {right : C}
    (related : Related R (.ok left : Except E A) (.ok right))
    : R left right := by
  cases related with
  | ok related => exact related

end Related

end Outcomes
