/-!
# Interval index

Which intervals overlap a given one? Intervals are inserted one by one; building sorts them by their low ends and
arranges them in a balanced tree, each node of which knows the greatest high end below it, so that a query can skip
whole subtrees. Until it is built, an index answers by looking at every interval.
-/

namespace SpanLayout

/-- The numbers from `low` to `high`, both included, with something attached. -/
structure Interval (α : Type) where
  low : Nat
  high : Nat
  data : α
deriving Repr

/-- Whether an interval has a number in common with the one from `low` to `high`. -/
def Interval.overlaps {α : Type} (low high : Nat) (i : Interval α) : Bool :=
  decide (i.low ≤ high) && decide (low ≤ i.high)

/-- A tree of intervals; `top` is the greatest high end in it. -/
inductive IntervalTree (α : Type) where
  | leaf
  | node (left : IntervalTree α) (i : Interval α) (right : IntervalTree α) (top : Nat)
deriving Repr

namespace IntervalTree

variable {α : Type}

/-- The greatest high end in a tree. -/
def top : IntervalTree α → Nat
  | leaf => 0
  | node _ _ _ t => t

theorem halves_lt {is after : List (Interval α)} {i : Interval α} (h : is.drop (is.length / 2) = i :: after) :
    (is.take (is.length / 2)).length < is.length ∧ after.length < is.length := by
  have hd : is.length - is.length / 2 = after.length + 1 := by
    rw [← List.length_drop, h, List.length_cons]
  constructor
  · rw [List.length_take]
    omega
  · omega

/-- A balanced tree of the intervals of a list, in their order. -/
def ofList (is : List (Interval α)) : IntervalTree α :=
  match h : is.drop (is.length / 2) with
  | [] => leaf
  | i :: after =>
    have := (halves_lt h).1
    have := (halves_lt h).2
    let left := ofList (is.take (is.length / 2))
    let right := ofList after
    node left i right (max i.high (max left.top right.top))
termination_by is.length

/-- What is attached to the intervals that overlap the one from `low` to `high`. -/
def query (low high : Nat) : IntervalTree α → List α
  | leaf => []
  | node left i right t =>
    if t < low then []
    else
      left.query low high ++
        -- Everything to the right starts at or after `i`.
        if high < i.low then []
        else (if low ≤ i.high then [i.data] else []) ++ right.query low high

end IntervalTree

/-- Intervals, and the tree of them unless one was inserted since it was built. -/
structure IntervalIndex (α : Type) where
  entries : List (Interval α)
  tree : Option (IntervalTree α)
deriving Repr

namespace IntervalIndex

variable {α : Type}

/-- The index without intervals. -/
def empty : IntervalIndex α := ⟨[], some .leaf⟩

/-- Inserts an interval. -/
def insert (x : IntervalIndex α) (i : Interval α) : IntervalIndex α := ⟨x.entries ++ [i], none⟩

/-- Sorts the intervals by their low ends, equal ones in the order of insertion, and builds the tree. -/
def build (x : IntervalIndex α) : IntervalIndex α :=
  let sorted := x.entries.mergeSort fun a b => a.low ≤ b.low
  ⟨sorted, some (.ofList sorted)⟩

/-- How many intervals were inserted. -/
def size (x : IntervalIndex α) : Nat := x.entries.length

/-- What is attached to the intervals that overlap the one from `low` to `high`. -/
def query (x : IntervalIndex α) (low high : Nat) : List α :=
  match x.tree with
  | some t => t.query low high
  | none => (x.entries.filter (·.overlaps low high)).map (·.data)

end IntervalIndex

end SpanLayout
