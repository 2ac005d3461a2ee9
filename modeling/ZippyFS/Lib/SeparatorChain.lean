import Mathlib.Order.WithBot
import Mathlib.Data.List.Basic
import Mathlib.Tactic.Common

/-! Separator chains: the keys of an inner search-tree node cut its key span into the
adjacent spans of its children. A lower bound belongs to its span, an upper bound does not.
-/

namespace SearchTree

/-- The height of a node and the keys its subtree may hold. -/
structure Span (K : Type) where
  height : Nat
  low : WithBot K
  high : WithTop K

/-- The key lies in the span. -/
def Span.Holds {K : Type} [LT K] [LE K] (span : Span K) (key : K) : Prop :=
  span.low ≤ key ∧ (key : WithTop K) < span.high

section Chain

variable {A K : Type}

/-- `Chain spans height low keys children high` says that the children's spans, as `spans`
lists them, are the consecutive pieces into which `keys` cut the span from `low` to `high`.
-/
def Chain (spans : A → Option (Span K)) (height : Nat)
    : WithBot K → List K → List A → WithTop K → Prop
  | low, [], [child], high => spans child = some ⟨height, low, high⟩
  | low, key :: keys, child :: children, high =>
      spans child = some ⟨height, low, key⟩
      ∧ Chain spans height key keys children high
  | _, _, _, _ => False

variable {spans : A → Option (Span K)} {height : Nat}

/-- There is one child more than there are separators, by induction on the separators. -/
theorem Chain.length {low : WithBot K} {keys : List K} {children : List A}
    {high : WithTop K} (chain : Chain spans height low keys children high)
    : children.length = keys.length + 1 := by
  induction keys generalizing low children with
  | nil =>
      match children, chain with
      | [_], _ => rfl
  | cons key keys ih =>
      match children, chain with
      | _ :: rest, ⟨_, tail⟩ => simp [ih tail]

/-- Splitting at a separator splits the chain, by induction on the left part. -/
theorem chain_append_iff {low : WithBot K} {middle : K} {high : WithTop K}
    {leftKeys rightKeys : List K} {leftChildren rightChildren : List A}
    (sizes : leftChildren.length = leftKeys.length + 1)
    : Chain spans height low (leftKeys ++ middle :: rightKeys)
          (leftChildren ++ rightChildren) high
      ↔ Chain spans height low leftKeys leftChildren middle
        ∧ Chain spans height middle rightKeys rightChildren high := by
  induction leftKeys generalizing low leftChildren with
  | nil =>
      match leftChildren, sizes with
      | [_], _ => simp [Chain]
  | cons key keys ih =>
      match leftChildren, sizes with
      | child :: rest, sizes =>
          have shorter : rest.length = keys.length + 1 := by simpa using sizes
          simp only [List.cons_append, Chain, ih shorter, and_assoc]

/-- A chain depends only on the spans of its children. -/
theorem Chain.congr {low : WithBot K} {keys : List K} {children : List A}
    {high : WithTop K} {other : A → Option (Span K)}
    (chain : Chain spans height low keys children high)
    (same : ∀ child ∈ children, other child = spans child)
    : Chain other height low keys children high := by
  induction keys generalizing low children with
  | nil =>
      match children, chain with
      | [child], chain => exact (same child (by simp)).trans chain
  | cons key keys ih =>
      match children, chain with
      | child :: rest, ⟨head, tail⟩ =>
          refine ⟨(same child (by simp)).trans head, ih tail ?_⟩
          intro next member
          exact same next (by simp [member])

/-- Every child has a span of the chain's height. -/
theorem Chain.child_span {low : WithBot K} {keys : List K} {children : List A}
    {high : WithTop K} (chain : Chain spans height low keys children high) {child : A}
    (member : child ∈ children)
    : ∃ span, spans child = some span ∧ span.height = height := by
  induction keys generalizing low children with
  | nil =>
      match children, chain with
      | [first], chain =>
          have same : child = first := by simpa using member
          exact ⟨_, same ▸ chain, rfl⟩
  | cons key keys ih =>
      match children, chain with
      | first :: rest, ⟨head, tail⟩ =>
          rcases List.mem_cons.mp member with same | later
          · exact ⟨_, same ▸ head, rfl⟩
          · exact ih tail later

/-- Neighbouring children of a chain meet at the separator between them. -/
theorem Chain.neighbours {height : Nat} {low : WithBot K} {keys : List K}
    {children : List A} {high : WithTop K}
    (chain : Chain spans height low keys children high) {index : Nat} {separator : K}
    {left right : A} (middle : keys[index]? = some separator)
    (first : children[index]? = some left) (second : children[index + 1]? = some right)
    : (∃ start, spans left = some ⟨height, start, separator⟩)
      ∧ ∃ stop, spans right = some ⟨height, separator, stop⟩ := by
  induction keys generalizing low children index with
  | nil => simp at middle
  | cons key keys ih =>
      match children, chain with
      | child :: rest, ⟨head, tail⟩ =>
          cases index with
          | zero =>
              obtain rfl : key = separator := by simpa using middle
              obtain rfl : child = left := by simpa using first
              refine ⟨⟨low, head⟩, ?_⟩
              match rest, keys, tail with
              | [only], [], tail =>
                  obtain rfl : only = right := by simpa using second
                  exact ⟨high, tail⟩
              | next :: _, later :: _, ⟨tail, _⟩ =>
                  obtain rfl : next = right := by simpa using second
                  exact ⟨later, tail⟩
          | succ index =>
              exact ih tail (by simpa using middle) (by simpa using first)
                (by simpa using second)

variable [LinearOrder K]

/-- The child index that a search for `key` takes: the number of separators not above it. -/
def route (keys : List K) (key : K) : Nat :=
  (keys.takeWhile (· ≤ key)).length

/-- A separator lies left of the route exactly if the key does not lie below it. -/
theorem route_le_iff {keys : List K} {key : K} (sorted : keys.Pairwise (· < ·)) {index : Nat}
    (inside : index < keys.length)
    : keys[index] ≤ key ↔ index < route keys key := by
  induction keys generalizing index with
  | nil => simp at inside
  | cons first rest ih =>
      obtain ⟨least, tailSorted⟩ := List.pairwise_cons.mp sorted
      by_cases passed : first ≤ key
      · cases index with
        | zero => simp [route, passed]
        | succ index =>
            have short : index < rest.length := by simpa using inside
            simpa [route, passed] using ih tailSorted short
      · have none : route (first :: rest) key = 0 := by simp [route, passed]
        rw [none]
        refine iff_of_false ?_ (by omega)
        cases index with
        | zero => exact passed
        | succ index =>
            intro smaller
            have short : index < rest.length := by simpa using inside
            exact passed ((least rest[index] (List.getElem_mem short)).le.trans smaller)

/-- The route leads to a child whose span holds the key, by induction on the separators. -/
theorem Chain.route_child {low : WithBot K} {keys : List K} {children : List A}
    {high : WithTop K} {key : K} (chain : Chain spans height low keys children high)
    (above : low ≤ key) (below : (key : WithTop K) < high)
    : ∃ child span, children[route keys key]? = some child
        ∧ spans child = some span ∧ span.height = height ∧ span.Holds key := by
  induction keys generalizing low children with
  | nil =>
      match children, chain with
      | [child], chain => exact ⟨child, _, rfl, chain, rfl, above, below⟩
  | cons separator keys ih =>
      match children, chain with
      | child :: rest, ⟨head, tail⟩ =>
          by_cases passed : separator ≤ key
          · obtain ⟨found, span, at_, known, level, holds⟩ :=
              ih tail (WithBot.coe_le_coe.mpr passed)
            refine ⟨found, span, ?_, known, level, holds⟩
            simpa [route, passed] using at_
          · refine ⟨child, _, ?_, head, rfl, above, ?_⟩
            · simp [route, passed]
            · exact WithTop.coe_lt_coe.mpr (not_le.mp passed)

/-- All children of a chain with increasing separators start at or above its low end. -/
theorem Chain.low_le {low : WithBot K} {keys : List K} {children : List A}
    {high : WithTop K} (chain : Chain spans height low keys children high)
    (sorted : keys.Pairwise (· < ·)) (above : ∀ key ∈ keys, low < key)
    {child : A} {span : Span K} (member : child ∈ children)
    (known : spans child = some span)
    : low ≤ span.low := by
  induction keys generalizing low children with
  | nil =>
      match children, chain with
      | [first], chain =>
          have same : child = first := by simpa using member
          subst same
          have equal := Option.some.inj (known.symm.trans chain)
          simp [equal]
  | cons key keys ih =>
      match children, chain with
      | first :: rest, ⟨head, tail⟩ =>
          rcases List.mem_cons.mp member with same | later
          · subst same
            have equal := Option.some.inj (known.symm.trans head)
            simp [equal]
          · obtain ⟨least, tailSorted⟩ := List.pairwise_cons.mp sorted
            have start : low ≤ (key : WithBot K) := le_of_lt (above key (by simp))
            refine start.trans (ih tail tailSorted ?_ later)
            intro next member
            exact WithBot.coe_lt_coe.mpr (least next member)

/-- All children of a chain end at or below its high end. -/
theorem Chain.le_high {low : WithBot K} {keys : List K} {children : List A}
    {high : WithTop K} (chain : Chain spans height low keys children high)
    (below : ∀ key ∈ keys, (key : WithTop K) < high) {child : A} {span : Span K}
    (member : child ∈ children) (known : spans child = some span)
    : span.high ≤ high := by
  induction keys generalizing low children with
  | nil =>
      match children, chain with
      | [first], chain =>
          have same : child = first := by simpa using member
          subst same
          have equal := Option.some.inj (known.symm.trans chain)
          simp [equal]
  | cons key keys ih =>
      match children, chain with
      | first :: rest, ⟨head, tail⟩ =>
          rcases List.mem_cons.mp member with same | later
          · subst same
            have equal := Option.some.inj (known.symm.trans head)
            subst equal
            exact le_of_lt (below key (by simp))
          · exact ih tail (fun next inside => below next (by simp [inside])) later

/-- Only the routed child's span holds the key, by induction on the separators. -/
theorem Chain.route_unique {low : WithBot K} {keys : List K} {children : List A}
    {high : WithTop K} {key : K} (chain : Chain spans height low keys children high)
    (sorted : keys.Pairwise (· < ·)) (above : ∀ key ∈ keys, low < key)
    {child : A} {span : Span K} (member : child ∈ children)
    (known : spans child = some span) (holds : span.Holds key)
    : children[route keys key]? = some child := by
  induction keys generalizing low children with
  | nil =>
      match children, chain with
      | [first], chain =>
          have same : child = first := by simpa using member
          simp [route, same]
  | cons separator keys ih =>
      match children, chain with
      | first :: rest, ⟨head, tail⟩ =>
          obtain ⟨least, tailSorted⟩ := List.pairwise_cons.mp sorted
          have tailAbove : ∀ next ∈ keys, (separator : WithBot K) < next :=
            fun next member => WithBot.coe_lt_coe.mpr (least next member)
          rcases List.mem_cons.mp member with same | later
          · subst same
            have equal := Option.some.inj (known.symm.trans head)
            subst equal
            have before : key < separator := WithTop.coe_lt_coe.mp holds.2
            simp [route, not_le.mpr before]
          · have start := tail.low_le tailSorted tailAbove later known
            have passed : separator ≤ key := WithBot.coe_le_coe.mp (start.trans holds.1)
            simpa [route, passed] using ih tail tailSorted tailAbove later

/-- Children of a chain with increasing separators are distinct: their spans differ. -/
theorem Chain.nodup {low : WithBot K} {keys : List K} {children : List A}
    {high : WithTop K} (chain : Chain spans height low keys children high)
    (sorted : keys.Pairwise (· < ·)) (above : ∀ key ∈ keys, low < key)
    : children.Nodup := by
  induction keys generalizing low children with
  | nil =>
      match children, chain with
      | [_], _ => simp
  | cons key keys ih =>
      match children, chain with
      | first :: rest, ⟨head, tail⟩ =>
          obtain ⟨least, tailSorted⟩ := List.pairwise_cons.mp sorted
          have tailAbove : ∀ next ∈ keys, (key : WithBot K) < next :=
            fun next member => WithBot.coe_lt_coe.mpr (least next member)
          refine List.nodup_cons.mpr ⟨?_, ih tail tailSorted tailAbove⟩
          intro again
          have start := tail.low_le tailSorted tailAbove again head
          exact absurd (above key (by simp)) (not_lt.mpr start)

/-- A child can be cut in two at a separator inside its span: the separator enters between
the ones at or below the child's span and the ones at or above it, and the second half
follows the child. Witness: induction on the separators; the siblings keep their spans.
-/
theorem Chain.settle {low : WithBot K} {keys : List K} {children : List A}
    {high : WithTop K} {next : A → Option (Span K)} {left right : A} {separator : K}
    {span : Span K} (chain : Chain spans height low keys children high)
    (sorted : keys.Pairwise (· < ·)) (above : ∀ key ∈ keys, low < key)
    (member : left ∈ children) (known : spans left = some span)
    (start : span.low < separator) (stop : (separator : WithTop K) < span.high)
    (leftNext : next left = some { span with high := separator })
    (rightNext : next right = some { span with low := separator })
    (same : ∀ child ∈ children, child ≠ left → next child = spans child)
    : ∃ lowKeys highKeys before after,
        keys = lowKeys ++ highKeys
        ∧ children = before ++ left :: after
        ∧ before.length = lowKeys.length
        ∧ (∀ key ∈ lowKeys, key < separator)
        ∧ (∀ key ∈ highKeys, separator < key)
        ∧ Chain next height low (lowKeys ++ separator :: highKeys)
            (before ++ left :: right :: after) high := by
  induction keys generalizing low children with
  | nil =>
      match children, chain with
      | [first], chain =>
          have equal : left = first := by simpa using member
          subst equal
          obtain rfl := Option.some.inj (known.symm.trans chain)
          exact ⟨[], [], [], [], rfl, rfl, rfl, by simp, by simp, leftNext, rightNext⟩
  | cons key keys ih =>
      match children, chain with
      | first :: rest, ⟨head, tail⟩ =>
          obtain ⟨least, tailSorted⟩ := List.pairwise_cons.mp sorted
          have tailAbove : ∀ next ∈ keys, (key : WithBot K) < next :=
            fun next member => WithBot.coe_lt_coe.mpr (least next member)
          have whole : Chain spans height low (key :: keys) (first :: rest) high :=
            ⟨head, tail⟩
          have distinct := whole.nodup sorted above
          by_cases here : left = first
          · subst here
            obtain rfl := Option.some.inj (known.symm.trans head)
            have before : separator < key := WithTop.coe_lt_coe.mp stop
            refine ⟨[], key :: keys, [], rest, rfl, rfl, rfl, by simp, ?_, leftNext,
              rightNext, ?_⟩
            · intro other inside
              rcases List.mem_cons.mp inside with equal | later
              · exact equal ▸ before
              · exact before.trans (least other later)
            · apply tail.congr
              intro child inside
              refine same child (by simp [inside]) ?_
              rintro rfl
              exact (List.nodup_cons.mp distinct).1 inside
          · have later : left ∈ rest := (List.mem_cons.mp member).resolve_left here
            have floor := tail.low_le tailSorted tailAbove later known
            have passed : key < separator :=
              WithBot.coe_lt_coe.mp (lt_of_le_of_lt floor start)
            obtain ⟨lowKeys, highKeys, before, after, keysEq, childrenEq, sizes, under,
              exceeds, settled⟩ := ih tail tailSorted tailAbove later
                (fun child inside => same child (by simp [inside]))
            refine ⟨key :: lowKeys, highKeys, first :: before, after, ?_, ?_, ?_, ?_,
              exceeds, ?_, settled⟩
            · simp [keysEq]
            · simp [childrenEq]
            · simp [sizes]
            · intro other inside
              rcases List.mem_cons.mp inside with equal | more
              · exact equal ▸ passed
              · exact under other more
            · exact (same first (by simp) (Ne.symm here)).trans head

end Chain

end SearchTree
