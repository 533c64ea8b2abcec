/-!
# Cycles

A depth-first search for edges that close a cycle in a graph whose nodes are the numbers below `n`. A node is open
while it is on the stack, together with the successors that have not been looked at; it is closed once it has left it.
-/

namespace SpanLayout.Cycle

/-- A search under way. -/
structure Search where
  /-- Open nodes, the latest first, each with the successors still to be looked at. -/
  stack : List (Nat × List Nat)
  closed : List Nat
  /-- The sources of the edges that lead to an open node, in the order they were found. -/
  found : List Nat
deriving Repr

namespace Search

/-- The nodes on the stack. -/
def openNodes (s : Search) : List Nat := s.stack.map (·.1)

/-- Whether a node has been reached. -/
def reached (s : Search) (v : Nat) : Bool := decide (v ∈ s.openNodes) || decide (v ∈ s.closed)

theorem reached_iff {s : Search} {v : Nat} : s.reached v = true ↔ v ∈ s.openNodes ∨ v ∈ s.closed := by
  simp [reached]

/-- The sum of `f` over a list. -/
def total {α : Type} (f : α → Nat) : List α → Nat
  | [] => 0
  | a :: l => f a + total f l

@[simp] theorem total_nil {α : Type} (f : α → Nat) : total f [] = 0 := rfl

@[simp] theorem total_cons {α : Type} (f : α → Nat) (a : α) (l : List α) : total f (a :: l) = f a + total f l := rfl

/-- How many steps a search can still take: one for every node that is not closed, and one for every edge that has not
been looked at. -/
def work (n : Nat) (succ : Nat → List Nat) (s : Search) : Nat :=
  total (fun v => (succ v).length + 1) ((List.range n).filter fun v => !s.reached v) +
    total (fun p => p.2.length + 1) s.stack

theorem total_filter_ne_le (p : Nat → Bool) (f : Nat → Nat) (d : Nat) (l : List Nat) :
    total f (l.filter fun v => p v && decide (v ≠ d)) ≤ total f (l.filter p) := by
  induction l with
  | nil => exact Nat.le_refl _
  | cons a l ih =>
    cases ha : p a with
    | false => simpa [ha] using ih
    | true =>
      by_cases had : a = d
      · rw [List.filter_cons_of_pos ha, List.filter_cons_of_neg (by simp [had])]
        exact Nat.le_trans ih (Nat.le_add_left _ _)
      · rw [List.filter_cons_of_pos ha, List.filter_cons_of_pos (by simp [ha, had])]
        exact Nat.add_le_add_left ih _

theorem total_filter_ne_add_le {p : Nat → Bool} {f : Nat → Nat} {d : Nat} {l : List Nat} (hd : d ∈ l)
    (hp : p d = true) : total f (l.filter fun v => p v && decide (v ≠ d)) + f d ≤ total f (l.filter p) := by
  induction l with
  | nil => simp at hd
  | cons a l ih =>
    by_cases had : a = d
    · subst had
      have := total_filter_ne_le p f a l
      rw [List.filter_cons_of_pos hp, List.filter_cons_of_neg (by simp), total_cons]
      omega
    · have hl : d ∈ l := (List.mem_cons.mp hd).resolve_left (Ne.symm had)
      have := ih hl
      cases ha : p a with
      | false => simpa [ha] using this
      | true =>
        rw [List.filter_cons_of_pos ha, List.filter_cons_of_pos (by simp [ha, had]), total_cons, total_cons]
        omega

theorem work_close (n : Nat) (succ : Nat → List Nat) {s : Search} {v : Nat} {stack : List (Nat × List Nat)}
    (h : s.stack = (v, []) :: stack) :
    work n succ { s with stack, closed := v :: s.closed } < work n succ s := by
  have same : ∀ w, reached { s with stack, closed := v :: s.closed } w = s.reached w := by
    intro w
    rw [Bool.eq_iff_iff, reached_iff, reached_iff, openNodes, openNodes, h]
    simp only [List.map_cons, List.mem_cons]
    constructor
    · rintro (h | h | h)
      · exact .inl (.inr h)
      · exact .inl (.inl h)
      · exact .inr h
    · rintro ((h | h) | h)
      · exact .inr (.inl h)
      · exact .inl h
      · exact .inr (.inr h)
  unfold work
  simp only [same, h, total_cons, List.length_nil]
  omega

theorem work_skip (n : Nat) (succ : Nat → List Nat) {s : Search} {v d : Nat} {ds : List Nat}
    {stack : List (Nat × List Nat)} (h : s.stack = (v, d :: ds) :: stack) (found : List Nat) :
    work n succ ⟨(v, ds) :: stack, s.closed, found⟩ < work n succ s := by
  unfold work reached openNodes
  simp only [h, List.map_cons, total_cons, List.length_cons]
  omega

theorem work_open {n : Nat} (succ : Nat → List Nat) {s : Search} {v d : Nat} {ds : List Nat}
    {stack : List (Nat × List Nat)} (h : s.stack = (v, d :: ds) :: stack) (ho : d ∉ s.openNodes)
    (hd : d < n ∧ d ∉ s.closed) :
    work n succ { s with stack := (d, succ d) :: (v, ds) :: stack } < work n succ s := by
  have fewer : ∀ w, (!reached { s with stack := (d, succ d) :: (v, ds) :: stack } w) =
      (!s.reached w && decide (w ≠ d)) := by
    intro w
    rw [Bool.eq_iff_iff]
    simp only [Bool.not_eq_true', Bool.and_eq_true, decide_eq_true_eq, ← Bool.not_eq_true, reached_iff]
    rw [openNodes, openNodes, h]
    simp only [List.map_cons, List.mem_cons, not_or]
    constructor
    · rintro ⟨⟨hd, hn⟩, hc⟩
      exact ⟨⟨hn, hc⟩, hd⟩
    · rintro ⟨⟨hn, hc⟩, hd⟩
      exact ⟨⟨hd, hn⟩, hc⟩
  have hr : (!s.reached d) = true := by simp [reached, ho, hd.2]
  have := total_filter_ne_add_le (p := fun w => !s.reached w) (f := fun v => (succ v).length + 1)
    (List.mem_range.mpr hd.1) hr
  unfold work
  simp only [fewer, h, total_cons, List.length_cons] at this ⊢
  omega

end Search

/-- Searches until the stack is empty. -/
def search (n : Nat) (succ : Nat → List Nat) (s : Search) : Search :=
  match h : s.stack with
  | [] => s
  | (v, []) :: stack =>
    have := Search.work_close n succ h
    search n succ { s with stack, closed := v :: s.closed }
  | (v, d :: ds) :: stack =>
    have := Search.work_skip n succ h (s.found ++ [v])
    have := Search.work_skip n succ h s.found
    if ho : d ∈ s.openNodes then search n succ { s with stack := (v, ds) :: stack, found := s.found ++ [v] }
    else if hd : d < n ∧ d ∉ s.closed then
      have := Search.work_open succ h ho hd
      search n succ { s with stack := (d, succ d) :: (v, ds) :: stack }
    else search n succ { s with stack := (v, ds) :: stack }
termination_by s.work n succ

/-- Searches from every node in turn that has not been reached. -/
def searchAll (n : Nat) (succ : Nat → List Nat) (s : Search) (starts : List Nat) : Search :=
  starts.foldl (fun s v => if s.reached v then s else search n succ { s with stack := [(v, succ v)] }) s

/-- The sources of the edges that close a cycle, as a search from the nodes of `starts` in turn comes upon them. -/
def closingEdges (n : Nat) (succ : Nat → List Nat) (starts : List Nat) : List Nat :=
  (searchAll n succ ⟨[], [], []⟩ starts).found

end SpanLayout.Cycle
