import SpanLayout.Proofs.Expr.Normal

/-!
# Differences of two locations

The normal form of a difference of two locations of one section, with a constant added, has one distance, and its value
is that distance plus the constant, as long as these are words.
-/

namespace SpanLayout.Expr

/-- The terms of a difference. -/
def differenceTerms (a b : Location) (reversed : Bool) : List Expr :=
  if reversed then [.neg (.loc b), .loc a] else [.loc a, .neg (.loc b)]

/-- The expression is `a - b + c` in normal form, with its terms in one order or the other. -/
def IsDifference (a b : Location) (c : Int64) (e : Expr) : Prop :=
  ∃ reversed, e = (Expr.sum (differenceTerms a b reversed ++ [.const c])).simplify

variable {a b : Location} {c : Int64} {e : Expr}

theorem simplify_difference (a b : Location) (c : Int64) (reversed : Bool) :
    (Expr.sum (differenceTerms a b reversed ++ [.const c])).simplify =
      sumWith (cancel (differenceTerms a b reversed)) c := by
  cases reversed <;>
    simp [differenceTerms, simplify, simplifyAll, negate, addAll, addends, isConst, constantPart]

theorem cancel_difference (hab : a ≠ b) (reversed : Bool) :
    cancel (differenceTerms a b reversed) = differenceTerms a b reversed := by
  cases reversed <;> simp [differenceTerms, cancel, addTerm, opposite?, hab, Ne.symm hab]

theorem IsDifference.const_of_eq (h : e.IsDifference a a c) : e = .const c := by
  obtain ⟨reversed, rfl⟩ := h
  rw [simplify_difference]
  cases reversed <;> simp [differenceTerms, cancel, addTerm, opposite?, sumWith]

theorem IsDifference.eq_sum (h : e.IsDifference a b c) (hab : a ≠ b) :
    ∃ reversed, e = .sum (differenceTerms a b reversed ++ if c = 0 then [] else [.const c]) := by
  obtain ⟨reversed, rfl⟩ := h
  refine ⟨reversed, ?_⟩
  rw [simplify_difference, cancel_difference hab]
  by_cases hc : c = 0 <;> cases reversed <;> simp [sumWith, differenceTerms, hc]

theorem IsDifference.mapLoc (h : e.IsDifference a b c) (f : Location → Location) :
    (e.mapLoc f).simplify.IsDifference (f a) (f b) c := by
  by_cases hab : a = b
  · subst hab
    rw [h.const_of_eq]
    exact ⟨false, (IsDifference.const_of_eq ⟨false, rfl⟩).symm⟩
  · obtain ⟨reversed, rfl⟩ := h
    refine ⟨reversed, ?_⟩
    rw [simplify_difference, cancel_difference hab, mapLoc_sumWith, simplify_difference]
    have hterms : (differenceTerms a b reversed).map (Expr.mapLoc f) = differenceTerms (f a) (f b) reversed := by
      cases reversed <;> rfl
    rw [hterms]
    refine simplify_sumWith ?_ ?_ <;> cases reversed <;> simp [differenceTerms, simplify, negate, addends, isConst]

theorem IsDifference.distances (h : e.IsDifference a b c) (hab : a ≠ b)
    (hs : b.fragment.sectionIndex = a.fragment.sectionIndex) :
    e.distances = (if c = 0 then .slot 0 else .sum [.slot 0, .const c], [⟨b, a⟩]) := by
  obtain ⟨reversed, rfl⟩ := h.eq_sum hab
  have hsec : b.sameSection a = true := by simp [Location.sameSection, hs]
  by_cases hc : c = 0 <;> cases reversed <;>
    simp [Expr.distances, differenceTerms, extract, extractAll, pairSum, pairTerms, subtracted, hsec, hc,
      dropSubtracted]

theorem IsDifference.eval (h : e.IsDifference a b c) (hab : a ≠ b)
    (hs : b.fragment.sectionIndex = a.fragment.sectionIndex) {slot : Nat → Option Int} {x : Int}
    (hslot : slot 0 = some x)
    (hl : -wordBound ≤ x) (hh : x < wordBound) : e.distances.1.eval (.ofSlots slot) = checked (x + c.toInt) := by
  rw [h.distances hab hs]
  by_cases hc : c = 0
  · simp [hc, Expr.eval, Env.ofSlots, hslot, checked_eq hl hh]
  · simp only [hc, if_false, Expr.eval, evalFrom, Env.ofSlots, hslot, Option.bind_some, Int.zero_add, checked_eq hl hh]
    cases checked (x + c.toInt) <;> rfl

end SpanLayout.Expr
