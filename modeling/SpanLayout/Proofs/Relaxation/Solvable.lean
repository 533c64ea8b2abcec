import SpanLayout.Proofs.Relaxation.Candidates

/-!
# Solutions

A solution is a candidate in which every value fits the form that depends on it, and every repetition has as many copies
as its count says. Suppose that what fits a form in some candidate fits it in all smaller ones. A relaxation gives a
fragment another form for a value in a layout below the solution, so the form that the fragment has in the solution is
large enough for that value. That is why the relaxation never goes beyond the solution.
-/

namespace SpanLayout

/-! ## Layouts -/

namespace Sections

/-- `tt` has the forms of `ss` or larger ones, and no fewer copies of anything. -/
def Beneath (ss tt : Sections Empty) : Prop := ss.Related Fragment.Beneath tt

/-- A layout of the fragments of `ss` in forms that can be chosen for them, where all paddings are right. -/
structure Candidate (ss x : Sections Empty) : Prop where
  forms : ss.Related Fragment.Candidate x
  padded : x.Padded
  refs : x.RefsMatch

/-- The value that is asked for is known in the layout `x`, and lies in the window of the form that asks for it. -/
def Satisfies (x : Sections Empty) (q : SpanRequest) : Prop :=
  ∃ v, x.valueOf? q.value = some v ∧ v ≠ unknownValue ∧ q.window.contains v = true

instance (x : Sections Empty) (q : SpanRequest) : Decidable (x.Satisfies q) :=
  decidable_of_iff ((x.valueOf? q.value).any fun v => decide (v ≠ unknownValue) && q.window.contains v) <| by
    simp [Satisfies, Option.any_eq_true]

/-- A candidate in which every value fits the form that depends on it, and every repetition has as many copies as its
count says. No section is as large as a word can be, and no value is taken from a place that is out of reach of words.
-/
structure SolvedBy (ss goal : Sections Empty) : Prop where
  candidate : ss.Candidate goal
  values : ∀ r g, goal.fragment? r = some g → ∀ q ∈ g.requests, goal.Satisfies q
  counts : ∀ r g count body n, goal.fragment? r = some g → g.tail = some (.times count body n) →
    goal.valueOf? (.ofExpr count) = some (n : Int) ∧ (n : Int) < unknownValue
  small : ∀ k, goal.length k < 2 ^ 63 - 1
  words : ∀ r f, ss.fragment? r = some f → ∀ q ∈ f.requests ++ f.countRequests, ∀ e, q.value.abs = some e →
    ∀ l ∈ e.locs, goal.position l < 2 ^ 63

/-- What fits a form in some candidate fits it in all smaller ones, and counts are no greater there. No repetition
stands in another, and no branch is longer in its short form than in its long one. -/
structure FitsBelow (ss : Sections Empty) : Prop where
  flat : ss.Flat
  lengthens : ss.Lengthens
  values : ∀ x y, ss.Candidate x → ss.Candidate y → x.Beneath y → (∀ k, y.length k < 2 ^ 63 - 1) →
    ∀ r g, y.fragment? r = some g → ∀ q ∈ g.requests, y.Satisfies q → x.Satisfies q
  counts : ∀ x y, ss.Candidate x → ss.Candidate y → x.Beneath y → (∀ k, y.length k < 2 ^ 63 - 1) →
    ∀ r g count body n, y.fragment? r = some g → g.tail = some (.times count body n) →
      y.valueOf? (.ofExpr count) = some (n : Int) → ∃ m ≤ n, x.valueOf? (.ofExpr count) = some ((m : Nat) : Int)

/-- The forms of `goal` are large enough for the values that they have in `x`. -/
structure Suits (goal x : Sections Empty) : Prop where
  values : ∀ r g, goal.fragment? r = some g → ∀ q ∈ g.requests, x.Satisfies q
  counts : ∀ r g count body n, goal.fragment? r = some g → g.tail = some (.times count body n) →
    ∃ m ≤ n, x.valueOf? (.ofExpr count) = some ((m : Nat) : Int) ∧ (m : Int) < unknownValue

variable {ss base tt goal : Sections Empty}

theorem Beneath.atMost (h : ss.Beneath tt) : ss.AtMost tt := Related.imp h fun _ _ => Fragment.Beneath.atMost

theorem Beneath.refl_left (h : ss.Beneath tt) : ss.Beneath ss := by
  refine related_self fun r f hf => ?_
  obtain ⟨g, -, hfg⟩ := Related.exists_right h hf
  exact hfg.refl_left

theorem Repadded.beneath_right (h : tt.Repadded goal) (hb : ss.Beneath tt) : ss.Beneath goal :=
  Related.comp hb h fun _ _ _ hfg hgk => hgk.beneath_right hfg

theorem Repadded.beneath_left (h : ss.Repadded tt) (hb : ss.Beneath goal) : tt.Beneath goal :=
  Related.comp (Related.swap (S := fun g f => f.Repadded g) h fun _ _ => id) hb fun _ _ _ hfg hgk =>
    hfg.beneath_left hgk

theorem Candidate.between {x y z : Sections Empty} (hx : ss.Candidate x) (hxy : x.Beneath y) (hyz : y.Beneath z)
    (hz : ss.Candidate z) (hpad : y.Padded) (hrefs : y.RefsMatch) : ss.Candidate y := by
  refine ⟨fun r => ?_, hpad, hrefs⟩
  rcases hx.forms r with ⟨hf, hg⟩ | ⟨f, g, hf, hg, hfg⟩
  · rcases hxy r with ⟨-, hk⟩ | ⟨_, _, hg', -⟩
    · exact .inl ⟨hf, hk⟩
    · cases hg.symm.trans hg'
  · obtain ⟨k, hk, hgk⟩ := Related.exists_right hxy hg
    obtain ⟨l, hl, hkl⟩ := Related.exists_right hyz hk
    exact .inr ⟨f, k, hf, hk, hfg.between hgk hkl (hz.forms.of_both hf hl)⟩

theorem Candidate.lengthens {x : Sections Empty} (h : ss.Candidate x) (hl : ss.Lengthens) {r : FragmentRef}
    {g : Fragment (Tail Empty)} (hg : x.fragment? r = some g) : ∀ p ∈ g.parts, p.tail.all Tail.ownLengthens = true := by
  obtain ⟨f, hf, hfg⟩ := h.forms.exists_left hg
  exact hfg.ownLengthens (hl r f hf)

theorem SolvedBy.suits (h : ss.SolvedBy goal) (hfits : ss.FitsBelow) {x : Sections Empty} (hx : ss.Candidate x)
    (hle : x.Beneath goal) : goal.Suits x := by
  constructor
  · intro r g hg q hq
    exact hfits.values x goal hx h.candidate hle h.small r g hg q hq (h.values r g hg q hq)
  · intro r g count body n hg ht
    obtain ⟨hvalue, hlt⟩ := h.counts r g count body n hg ht
    obtain ⟨m, hm, hvalue'⟩ := hfits.counts x goal hx h.candidate hle h.small r g count body n hg ht hvalue
    exact ⟨m, hm, hvalue', by omega⟩

end Sections

/-! ## Measuring -/

theorem Fragment.candidate_withIndex {f g : Fragment (Tail Empty)} {index : Nat} :
    ({ f with index } : Fragment (Tail Empty)).Candidate g ↔ f.Candidate g := by
  constructor <;> intro h <;> cases h with
  | plain h => exact .plain ⟨h.fixed, h.tail, h.fits⟩
  | copies hf hg hfixed hparts hcount hfits => exact .copies hf hg hfixed hparts hcount hfits

theorem Relaxation.refsMatch_of_sound {s : Relaxation Empty} (h : s.plan.Sound) : s.sections.RefsMatch := by
  intro r f hf
  exact h.ref r f.frame (by simp [plan, Sections.frame?, hf])

/-- Measuring reports nothing where there is a solution, and finds the smallest candidate. -/
theorem Sections.SolvedBy.surveyed {ss goal : Sections Empty} (h : ss.SolvedBy goal) (hr : ss.RefsMatch)
    (hs : ss.Steady)
    (hsized : ss.Sized) (hl : ss.Lengthens) (config : Config) {diags : Diagnostics} (hd : diags.hasErrors = false) :
    (ss.surveyed config diags).diags = diags ∧ ss.Candidate (ss.surveyed config diags).sections ∧
      (ss.surveyed config diags).sections.Beneath goal := by
  have hforms : ss.Related (fun f g => f.Candidate g ∧ f.Workable ∧
      ∀ count body n, g.tail = some (.times count body n) → (n : Int) ≠ unknownValue) goal := by
    intro r
    rcases h.candidate.forms r with hn | ⟨f, g, hf, hg, hfg⟩
    · exact .inl hn
    · refine .inr ⟨f, g, hf, hg, hfg, ⟨hs r f hf, hsized r f hf, hl r f hf⟩, fun count body n ht => ?_⟩
      exact Int.ne_of_lt (h.counts r g count body n hg ht).2
  obtain ⟨hdiags, hcandidate, hbeneath, hpadded⟩ := hforms.surveyed (D := Fragment.Candidate) (B := Fragment.Beneath)
    (fun _ _ => Fragment.Beneath.atMost) (by
      rintro f g ⟨hfg, hf, hknown⟩ index m n hpad hmn hb
      have hindex : ({ f with index } : Fragment (Tail Empty)).Candidate g := Fragment.candidate_withIndex.mpr hfg
      obtain ⟨k, requests, hk, hoffset, hfk, hkg, hpadded⟩ := hindex.measureAt
        ⟨hf.steady, hf.sized.of_tail rfl, hf.lengthens⟩ hknown hpad hmn hb
      exact ⟨k, requests, hk, hoffset, Fragment.candidate_withIndex.mp hfk, hkg, hpadded⟩)
    h.candidate.padded (fun k => Nat.lt_of_lt_of_le (h.small k) (by decide)) config diags
  refine ⟨hdiags, ⟨hcandidate, hpadded, ?_⟩, hbeneath⟩
  exact Relaxation.refsMatch_of_sound (watching_surveyed hr (by rwa [hdiags])).sound

end SpanLayout
