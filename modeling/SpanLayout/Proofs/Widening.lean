import SpanLayout.Proofs.Tail.Parts

/-!
# Widening LEB128 fields

A field is told of one value after another. Whatever it is told, it is wide enough for the value afterwards, it never
gets narrower, and it gets wider whenever the value has left its window. -/

namespace SpanLayout.Leb128

namespace Field

/-! ## Fields -/

/-- A field that was made for a value and has gone through any operations since, whether they succeeded or not. -/
inductive Made : Field → Prop
  | fresh (value : Expr) (isSigned : Bool) : Made { value, isSigned }
  | finalize {f : Field} (symbols : SymbolTable) (info : FragmentInfo) (diags : Diagnostics) :
    Made f → Made (f.finalize symbols info diags).state.1
  | measure {f : Field} : Made f → Made f.measure.state.1
  | expand {f : Field} (info : FragmentInfo) (new : Int64) : Made f → Made (f.expand info new.toInt).state

theorem len_finalize (symbols : SymbolTable) (info : FragmentInfo) (diags : Diagnostics) (f : Field) :
    (f.finalize symbols info diags).state.1.len = f.len := by
  unfold finalize
  split
  · rfl
  · dsimp only
    split
    · rfl
    · split
      · split <;> rfl
      · rfl

theorem len_measure_le (f : Field) (h : f.len ≤ maxLen) : f.measure.state.1.len ≤ maxLen := by
  unfold measure
  split
  · rename_i v hv
    have hword := Expr.const_word hv
    exact size_le_maxLen f.isSigned hword.1 hword.2
  · exact h

theorem len_expand_le (info : FragmentInfo) (new : Int) (f : Field) (h : f.len ≤ maxLen) :
    (f.expand info new).state.len ≤ maxLen := by
  unfold expand
  split
  · exact h
  · exact Nat.min_le_right _ _

theorem Made.len_le {f : Field} (h : f.Made) : f.len ≤ maxLen := by
  induction h with
  | fresh value isSigned => exact Nat.le_add_left 1 9
  | finalize symbols info diags _ ih => rwa [len_finalize]
  | measure _ ih => exact len_measure_le _ ih
  | expand info new _ ih => exact len_expand_le info _ _ ih

/-! ## Telling a field of values -/

/-- A field is told that the value of a span was `old` and is `new`. -/
structure Change where
  info : FragmentInfo
  id : Int
  old : Int64
  new : Int64
deriving DecidableEq, Repr

/-- Expands a field for one change after another, up to the first failure. -/
def expandAll : List Change → Field → Attempt Error Field (List Expansion)
  | [], f => .done f []
  | c :: cs, f =>
    (Directive.expand c.info c.id c.old.toInt c.new.toInt f).andThen fun g x => (expandAll cs g).mapResult (x :: ·)

/-- What a field of `len` bytes answers when it is told of `v`. -/
structure Answers (signed : Bool) (len : Nat) (v : Int64) (x : Expansion) : Prop where
  window : x.window = some (Leb128.window signed x.len)
  holds : (Leb128.window signed x.len).contains v.toInt = true
  keeps : len ≤ x.len
  bounded : x.len ≤ maxLen
  grows : (Leb128.window signed len).contains v.toInt = false → len < x.len

/-- The answers to one change after another: each field is as wide as the answer before said. -/
inductive AnswersAll (signed : Bool) : Nat → List Change → List Expansion → Prop
  | nil (len : Nat) : AnswersAll signed len [] []
  | cons {len : Nat} {c : Change} {cs : List Change} {x : Expansion} {xs : List Expansion} :
    Answers signed len c.new x → AnswersAll signed x.len cs xs → AnswersAll signed len (c :: cs) (x :: xs)

theorem expand_answers {f : Field} (hf : f.len ≤ maxLen) (info : FragmentInfo) {v : Int64}
    (hv : v.toInt ≠ unknownValue) :
    ∃ x, f.expand info v.toInt = .done { f with len := x.len } x ∧ Answers f.isSigned f.len v x := by
  have hmax := size_le_maxLen f.isSigned v.le_toInt v.toInt_lt
  have hholds := contains_window_widened f.isSigned f.len v.le_toInt v.toInt_lt
  have hexpand : f.expand info v.toInt =
      let len := min (max f.len (size f.isSigned v.toInt)) maxLen
      .done { f with len } ⟨len, some (Leb128.window f.isSigned len)⟩ := if_neg hv
  have hkeeps : f.len ≤ min (max f.len (size f.isSigned v.toInt)) maxLen := by omega
  have hbounded : min (max f.len (size f.isSigned v.toInt)) maxLen ≤ maxLen := Nat.min_le_right _ _
  generalize min (max f.len (size f.isSigned v.toInt)) maxLen = len at *
  refine ⟨⟨len, some (Leb128.window f.isSigned len)⟩, hexpand, rfl, hholds, hkeeps, hbounded, fun hout => ?_⟩
  -- A width that had not changed would hold the value by now.
  refine Nat.lt_of_le_of_ne hkeeps fun (heq : f.len = len) => ?_
  rw [← heq, hout] at hholds
  cases hholds

theorem expandAll_answers {f : Field} (hf : f.len ≤ maxLen) (cs : List Change)
    (hcs : ∀ c ∈ cs, c.new.toInt ≠ unknownValue) :
    ∃ xs, expandAll cs f = .done { f with len := (xs.map Expansion.len).getLastD f.len } xs ∧
      AnswersAll f.isSigned f.len cs xs := by
  induction cs generalizing f with
  | nil => exact ⟨[], rfl, .nil _⟩
  | cons c cs ih =>
    obtain ⟨x, hx, ha⟩ := expand_answers hf c.info (hcs c List.mem_cons_self)
    obtain ⟨xs, hxs, has⟩ := ih (f := { f with len := x.len }) ha.bounded fun d hd => hcs d (List.mem_cons_of_mem c hd)
    refine ⟨x :: xs, ?_, .cons ha has⟩
    rw [expandAll]
    dsimp only [Directive.expand]
    rw [hx, Attempt.andThen]
    dsimp only [Attempt.done]
    rw [hxs, List.map_cons, List.getLastD_cons]
    rfl

namespace AnswersAll

variable {signed : Bool} {len : Nat} {cs : List Change} {xs : List Expansion}

theorem length_eq (h : AnswersAll signed len cs xs) : xs.length = cs.length := by
  induction h with
  | nil => rfl
  | cons _ _ ih => rw [List.length_cons, List.length_cons, ih]

theorem answer_at (h : AnswersAll signed len cs xs) {i : Nat} {c : Change} {x : Expansion} (hc : cs[i]? = some c)
    (hx : xs[i]? = some x) : ∃ n, (len :: xs.map Expansion.len)[i]? = some n ∧ Answers signed n c.new x := by
  induction h generalizing i with
  | nil => cases hc
  | @cons len d cs y ys ha _ ih =>
    cases i with
    | zero =>
      obtain rfl := Option.some.inj hc
      obtain rfl := Option.some.inj hx
      exact ⟨len, rfl, ha⟩
    | succ i => exact ih hc hx

theorem sorted (h : AnswersAll signed len cs xs) : (len :: xs.map Expansion.len).Pairwise (· ≤ ·) := by
  induction h with
  | nil => exact List.pairwise_singleton _ _
  | @cons len c cs x xs ha _ ih =>
    rw [List.map_cons]
    refine List.pairwise_cons.2 ⟨fun n hn => ?_, ih⟩
    rcases List.mem_cons.1 hn with rfl | hn
    · exact ha.keeps
    · exact Nat.le_trans ha.keeps ((List.pairwise_cons.1 ih).1 n hn)

end AnswersAll

/-- A window holds exactly the words of no more bytes than its width. So a field that is told of known values takes them
all: each answer's window holds the value, the widths go up from the field's own to at most ten, and they go up at every
value outside the window that the field had. -/
theorem expandAll_fits (signed : Bool) :
    (∀ (v : Int64) (len : Nat), 1 ≤ len → len ≤ 10 →
      ((window signed len).contains v.toInt = true ↔ size signed v.toInt ≤ len)) ∧
    ∀ f : Field, f.Made → f.isSigned = signed →
    ∀ cs : List Change, (∀ c ∈ cs, c.new.toInt ≠ unknownValue) →
    ∃ g xs, expandAll cs f = .done g xs ∧ g.len = (xs.map Expansion.len).getLastD f.len ∧ xs.length = cs.length ∧
      (f.len :: xs.map Expansion.len).Pairwise (· ≤ ·) ∧
      ∀ (i : Nat) c x, cs[i]? = some c → xs[i]? = some x →
        ∃ len, (f.len :: xs.map Expansion.len)[i]? = some len ∧ x.window = some (window signed x.len) ∧
          (window signed x.len).contains c.new.toInt = true ∧ len ≤ x.len ∧ x.len ≤ 10 ∧
          ((window signed len).contains c.new.toInt = false → len < x.len) := by
  refine ⟨fun v len h1 h10 => contains_window_iff h1 h10 v.le_toInt v.toInt_lt, ?_⟩
  rintro f hf rfl cs hcs
  obtain ⟨xs, hrun, hall⟩ := expandAll_answers hf.len_le cs hcs
  refine ⟨_, xs, hrun, rfl, hall.length_eq, hall.sorted, fun i c x hc hx => ?_⟩
  obtain ⟨len, hlen, ha⟩ := hall.answer_at hc hx
  exact ⟨len, hlen, ha.window, ha.holds, ha.keeps, ha.bounded, ha.grows⟩

/-- A field told of 5, of 300 and of -1, which as an unsigned word takes all ten bytes. -/
theorem expandAll_fits_negative :
    let info : FragmentInfo := ⟨⟨0, 0⟩, 0, 0, 1, 0, .unknown⟩
    let cs : List Change := [⟨info, 1, 0, 5⟩, ⟨info, 1, 5, 300⟩, ⟨info, 1, 300, -1⟩]
    Made { value := .const 5, isSigned := false } ∧ (∀ c ∈ cs, c.new.toInt ≠ unknownValue) ∧
    ∃ g xs, expandAll cs { value := .const 5, isSigned := false } = .done g xs ∧ xs.map Expansion.len = [1, 2, 10] ∧
      (1 :: xs.map Expansion.len).Pairwise (· ≤ ·) := by
  intro info cs
  have hmade := Made.fresh (.const 5) false
  have hcs : ∀ c ∈ cs, c.new.toInt ≠ unknownValue := by decide
  refine ⟨hmade, hcs, ?_⟩
  obtain ⟨g, xs, hrun, -, -, hsorted, -⟩ := (expandAll_fits false).2 _ hmade rfl cs hcs
  refine ⟨g, xs, hrun, ?_, hsorted⟩
  have hlens : ((expandAll cs { value := .const 5, isSigned := false }).result.toOption.map
      (List.map Expansion.len)) = some [1, 2, 10] := by decide +kernel
  rw [hrun] at hlens
  exact Option.some.inj hlens

end Field

end SpanLayout.Leb128
