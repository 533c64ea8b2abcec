import SpanLayout.Proofs.Relaxation.Step
import SpanLayout.Proofs.Tail.Measure

/-!
# Numbering and measuring

The survey at the beginning of a relaxation numbers the fragments in their order and asks each of them for its spans.
What it finds out is a sound plan.
-/

namespace SpanLayout

/-- Every fragment is called by its place. -/
def Sections.RefsMatch {κ : Type} (ss : Sections κ) : Prop := ∀ r f, ss.fragment? r = some f → f.ref = r

instance {κ : Type} (ss : Sections κ) : Decidable ss.RefsMatch :=
  inferInstanceAs (Decidable (∀ r f, ss.fragment? r = some f → f.ref = r))

namespace Relaxation

/-- Fragment `f` gets the given number, and measuring it gives `g` and the spans `requests`. -/
def Measured (index : Nat) (f g : Fragment (Tail Empty)) (requests : List SpanRequest) : Prop :=
  ∃ offset, ({ f with index } : Fragment (Tail Empty)).measureAt offset = .done (g, requests) ()

theorem Measured.frame {index : Nat} {f g : Fragment (Tail Empty)} {requests : List SpanRequest}
    (h : Measured index f g requests) : g.frame = { f.frame with index } := by
  obtain ⟨offset, h⟩ := h
  have hf := Fragment.frame_measureAt offset { f with index }
  rw [h] at hf
  exact hf

theorem Measured.requests_of_setsOffset {index : Nat} {f g : Fragment (Tail Empty)} {requests : List SpanRequest}
    (h : Measured index f g requests) (hs : f.setsOffset = true) : requests = [] := by
  obtain ⟨offset, h⟩ := h
  have hf : (({ f with index } : Fragment (Tail Empty)).measureAt offset).state.2 = [] := by
    apply Fragment.requests_of_setsOffset
    exact hs
  rw [h] at hf
  exact hf

theorem Measured.steadyInside {index : Nat} {f g : Fragment (Tail Empty)} {requests : List SpanRequest}
    (h : Measured index f g requests) (hs : f.steadyInside = true) : g.steadyInside = true := by
  obtain ⟨offset, h⟩ := h
  have hf : (({ f with index } : Fragment (Tail Empty)).measureAt offset).state.1.steadyInside = true :=
    Fragment.steadyInside_measureAt offset hs
  rw [h] at hf
  exact hf

theorem Measured.flat {index : Nat} {f g : Fragment (Tail Empty)} {requests : List SpanRequest}
    (h : Measured index f g requests) : g.flat = f.flat := by
  obtain ⟨offset, h⟩ := h
  have hf : (({ f with index } : Fragment (Tail Empty)).measureAt offset).state.1.flat = f.flat :=
    Fragment.flat_measureAt offset { f with index }
  rw [h] at hf
  exact hf

theorem Measured.requests {index : Nat} {f g : Fragment (Tail Empty)} {requests : List SpanRequest}
    (h : Measured index f g requests) (hf : f.flat = true) :
    g.requests = f.requests ∧ requests = f.requests ++ f.countRequests := by
  obtain ⟨offset, h⟩ := h
  have hsame : ({ f with index } : Fragment (Tail Empty)).requests = f.requests := Fragment.requests_congr rfl rfl rfl
  have hm := Fragment.measureAt_requests (f := { f with index }) hf h
  rw [hsame] at hm
  exact hm

theorem Measured.tame {index : Nat} {f g : Fragment (Tail Empty)} {requests : List SpanRequest}
    (h : Measured index f g requests) (hf : f.flat = true) (hp : f.tail.all (Tail.throughout Tail.ownModest) = true)
    {q : SpanRequest} (hq : q ∈ requests) (hid : 0 < q.id) : q.window.contains unknownValue = false := by
  obtain ⟨offset, h⟩ := h
  exact Fragment.measureAt_tame (f := { f with index }) hf hp h hq hid

/-! ## The fragments of a section -/

theorem hasErrors_surveyFragments {κ : Type} [Directive κ] (index offset setters : Nat) {diags : Diagnostics}
    (h : diags.hasErrors = true) (fs : List (Fragment (Tail κ))) :
    (surveyFragments index offset setters diags fs).diags.hasErrors = true := by
  induction fs generalizing index offset setters diags with
  | nil => exact h
  | cons f fs ih => exact ih _ _ _ (Diagnostics.hasErrors_reportFailure h _)

/-- The name of a fragment, if it follows its offset. -/
def setterOf (f : Fragment (Tail Empty)) : List FragmentRef := if f.setsOffset then [f.ref] else []

theorem mem_setterOf {f : Fragment (Tail Empty)} {r : FragmentRef} :
    r ∈ setterOf f ↔ f.setsOffset = true ∧ f.ref = r := by
  unfold setterOf
  split
  · rename_i h
    rw [List.mem_singleton]
    exact ⟨fun hr => ⟨h, hr.symm⟩, fun hr => hr.2.symm⟩
  · rename_i h
    simp [h]

theorem surveyFragments_cons {index offset setters : Nat} {diags : Diagnostics} {f : Fragment (Tail Empty)}
    {fs : List (Fragment (Tail Empty))}
    (h : (surveyFragments index offset setters diags (f :: fs)).diags.hasErrors = false) :
    ∃ g requests, Measured index f g requests ∧ g.offset = offset ∧
      surveyFragments index offset setters diags (f :: fs) =
        let rest := surveyFragments (index + 1) (offset + g.totalLen) (setters + (setterOf f).length) diags fs
        ⟨g :: rest.measured, requests.map (fun r => ⟨f.ref, index, f.source, r, setters⟩) ++ rest.seeds,
          setterOf f ++ rest.setters, rest.diags⟩ := by
  have hframe := Fragment.frame_measureAt offset { f with index }
  have hoffset := Fragment.offset_measureAt offset { f with index }
  cases hm : ({ f with index } : Fragment (Tail Empty)).measureAt offset with
  | mk state result =>
    obtain ⟨g, requests⟩ := state
    rw [hm] at hframe hoffset
    cases result with
    | error e =>
      obtain ⟨c, rfl, -⟩ := Fragment.measureAt_error offset { f with index } e (by rw [hm])
      rw [surveyFragments, hm] at h
      exact absurd (h.symm.trans (hasErrors_surveyFragments _ _ _ (Diagnostics.hasErrors_report_one diags c) fs))
        (by decide)
    | ok u =>
      refine ⟨g, requests, ⟨offset, hm⟩, hoffset, ?_⟩
      have hr : g.ref = f.ref := congrArg Frame.ref hframe
      have hs : g.setsOffset = f.setsOffset := congrArg Frame.setsOffset hframe
      have hp : g.source = f.source := congrArg Frame.source hframe
      have hn : g.nextOffset = offset + g.totalLen := by rw [Fragment.nextOffset, show g.offset = offset from hoffset]
      rw [surveyFragments, hm]
      simp only [hr, hs, hp, hn, Except.isOk, Except.toBool, Bool.true_and, if_true, Diagnostics.reportFailure,
        setterOf]
      split <;> rfl

/-- Setters stand in their order, and each span knows how many of them, counted from `start`, stand before it. -/
structure Ordered (start : Nat) (setters : List FragmentRef) (seeds : List Seed) : Prop where
  sorted : setters.Pairwise FragmentRef.Before
  seeds : ∀ seed ∈ seeds, ∃ before after, setters = before ++ after ∧ seed.settersBefore = start + before.length ∧
    (∀ r ∈ before, r.Before seed.ref) ∧ ∀ r ∈ after, seed.ref.Before r

theorem Ordered.append {start : Nat} {setters setters' : List FragmentRef} {seeds seeds' : List Seed}
    (h : Ordered start setters seeds) (h' : Ordered (start + setters.length) setters' seeds')
    (hs : ∀ r ∈ setters, (∀ r' ∈ setters', r.Before r') ∧ ∀ seed ∈ seeds', r.Before seed.ref)
    (hq : ∀ seed ∈ seeds, ∀ r' ∈ setters', seed.ref.Before r') :
    Ordered start (setters ++ setters') (seeds ++ seeds') := by
  refine ⟨List.pairwise_append.mpr ⟨h.sorted, h'.sorted, fun r hr r' hr' => (hs r hr).1 r' hr'⟩, fun seed hseed => ?_⟩
  rcases List.mem_append.mp hseed with hseed | hseed
  · obtain ⟨before, after, rfl, hn, hb, ha⟩ := h.seeds seed hseed
    refine ⟨before, after ++ setters', by rw [List.append_assoc], hn, hb, fun r hr => ?_⟩
    rcases List.mem_append.mp hr with hr | hr
    · exact ha r hr
    · exact hq seed hseed r hr
  · obtain ⟨before, after, rfl, hn, hb, ha⟩ := h'.seeds seed hseed
    refine ⟨setters ++ before, after, by rw [List.append_assoc], by rw [hn, List.length_append]; omega,
      fun r hr => ?_, ha⟩
    rcases List.mem_append.mp hr with hr | hr
    · exact (hs r hr).2 seed hseed
    · exact hb r hr

/-- The fragments of a list are called by their places in section `k`, from number `j` on. -/
def RefsFrom {κ : Type} (k j : Nat) (fs : List (Fragment (Tail κ))) : Prop :=
  ∀ (i : Nat) (f : Fragment (Tail κ)), fs[i]? = some f → f.ref = ⟨k, j + i⟩

theorem refsFrom_cons {κ : Type} {k j : Nat} {f : Fragment (Tail κ)} {fs : List (Fragment (Tail κ))}
    (h : RefsFrom k j (f :: fs)) : f.ref = ⟨k, j⟩ ∧ RefsFrom k (j + 1) fs := by
  refine ⟨h 0 f rfl, fun i g hi => ?_⟩
  rw [h (i + 1) g (by simpa using hi)]
  congr 1
  omega

/-- What a survey finds among fragments, whatever it reports: the fragments with their numbers, and spans and setters
that are called after fragments. -/
theorem origins_surveyFragments {κ : Type} [Directive κ] (index offset setters : Nat) (diags : Diagnostics)
    (fs : List (Fragment (Tail κ))) :
    let x := surveyFragments index offset setters diags fs
    (∀ (i : Nat) (g : Fragment (Tail κ)), x.measured[i]? = some g → ∃ f at_, fs[i]? = some f ∧
        g = (({ f with index := index + i } : Fragment (Tail κ)).measureAt at_).state.1) ∧
      (∀ seed ∈ x.seeds, ∃ (i : Nat) (f : Fragment (Tail κ)), fs[i]? = some f ∧ seed.ref = f.ref ∧
        seed.index = index + i) ∧
      ∀ r ∈ x.setters, ∃ (i : Nat) (f : Fragment (Tail κ)), fs[i]? = some f ∧ f.ref = r := by
  induction fs generalizing index offset setters diags with
  | nil => simp [surveyFragments]
  | cons f fs ih =>
    have href : (({ f with index } : Fragment (Tail κ)).measureAt offset).state.1.ref = f.ref := by
      obtain ⟨tail, tailLen, h⟩ := ({ f with index } : Fragment (Tail κ)).measureAt_state offset
      rw [h]
    rw [surveyFragments]
    dsimp only
    obtain ⟨hmeasured, hseeds, hsetters⟩ := ih (index + 1) _ _ _
    generalize surveyFragments (index + 1) _ _ _ fs = rest at hmeasured hseeds hsetters ⊢
    refine ⟨?_, ?_, ?_⟩
    · intro i g hg
      cases i with
      | zero => exact ⟨f, offset, rfl, (Option.some.inj hg).symm⟩
      | succ i =>
        rw [← Nat.add_assoc, Nat.add_right_comm]
        exact hmeasured i g hg
    · intro seed hseed
      rcases List.mem_append.mp hseed with hseed | hseed
      · obtain ⟨q, -, rfl⟩ := List.mem_map.mp hseed
        exact ⟨0, f, rfl, href, rfl⟩
      · obtain ⟨i, g, hg, hr, hi⟩ := hseeds seed hseed
        exact ⟨i + 1, g, hg, hr, by omega⟩
    · intro r hr
      obtain rfl | hr : r = f.ref ∨ r ∈ rest.setters := by
        split at hr
        · rw [List.mem_cons, href] at hr
          exact hr
        · exact .inr hr
      · exact ⟨0, f, rfl, rfl⟩
      · obtain ⟨i, g, hg, hr⟩ := hsetters r hr
        exact ⟨i + 1, g, hg, hr⟩

theorem refs_surveyFragments {κ : Type} [Directive κ] {index offset setters k j : Nat} {diags : Diagnostics}
    {fs : List (Fragment (Tail κ))} (hr : RefsFrom k j fs) {r : FragmentRef}
    (hm : r ∈ (surveyFragments index offset setters diags fs).setters ++
      (surveyFragments index offset setters diags fs).seeds.map (·.ref)) : r.sectionIndex = k ∧ j ≤ r.index := by
  obtain ⟨-, hseeds, hsetters⟩ := origins_surveyFragments index offset setters diags fs
  obtain ⟨i, f, hf, rfl⟩ : ∃ (i : Nat) (f : Fragment (Tail κ)), fs[i]? = some f ∧ f.ref = r := by
    rcases List.mem_append.mp hm with hm | hm
    · exact hsetters r hm
    · obtain ⟨seed, hseed, rfl⟩ := List.mem_map.mp hm
      obtain ⟨i, f, hf, href, -⟩ := hseeds seed hseed
      exact ⟨i, f, hf, href.symm⟩
  rw [hr i f hf]
  exact ⟨rfl, Nat.le_add_right j i⟩

section

variable {index offset setters k j : Nat} {diags : Diagnostics} {fs : List (Fragment (Tail Empty))}

theorem mem_setters_surveyFragments (h : (surveyFragments index offset setters diags fs).diags.hasErrors = false)
    (r : FragmentRef) :
    r ∈ (surveyFragments index offset setters diags fs).setters ↔ ∃ f ∈ fs, f.setsOffset = true ∧ f.ref = r := by
  induction fs generalizing index offset setters with
  | nil => simp [surveyFragments]
  | cons f fs ih =>
    obtain ⟨g, requests, -, -, he⟩ := surveyFragments_cons h
    rw [he] at h ⊢
    rw [List.mem_append, mem_setterOf, ih h]
    constructor
    · rintro (hf | ⟨f', hf', hs⟩)
      · exact ⟨f, List.mem_cons_self, hf⟩
      · exact ⟨f', List.mem_cons_of_mem f hf', hs⟩
    · rintro ⟨f', hf', hs⟩
      rcases List.mem_cons.mp hf' with rfl | hf'
      · exact .inl hs
      · exact .inr ⟨f', hf', hs⟩

theorem mem_seeds_surveyFragments (h : (surveyFragments index offset setters diags fs).diags.hasErrors = false)
    {seed : Seed} (hs : seed ∈ (surveyFragments index offset setters diags fs).seeds) :
    ∃ (i : Nat) (f g : Fragment (Tail Empty)) (requests : List SpanRequest), fs[i]? = some f ∧
      (surveyFragments index offset setters diags fs).measured[i]? = some g ∧ Measured (index + i) f g requests ∧
      seed.request ∈ requests ∧ seed.ref = f.ref ∧ seed.index = index + i := by
  induction fs generalizing index offset setters with
  | nil => simp [surveyFragments] at hs
  | cons f fs ih =>
    obtain ⟨g, requests, hm, -, he⟩ := surveyFragments_cons h
    rw [he] at h hs ⊢
    rcases List.mem_append.mp hs with hs | hs
    · obtain ⟨r, hr, rfl⟩ := List.mem_map.mp hs
      exact ⟨0, f, g, requests, rfl, rfl, hm, hr, rfl, rfl⟩
    · obtain ⟨i, f', g', requests', hf, hg, hm', hr, href, hindex⟩ := ih h hs
      refine ⟨i + 1, f', g', requests', by simpa using hf, by simpa using hg, ?_, hr, href, by omega⟩
      rwa [show index + (i + 1) = index + 1 + i by omega]

theorem measured_surveyFragments (h : (surveyFragments index offset setters diags fs).diags.hasErrors = false)
    {i : Nat} {f : Fragment (Tail Empty)} (hf : fs[i]? = some f) :
    ∃ (g : Fragment (Tail Empty)) (requests : List SpanRequest),
      (surveyFragments index offset setters diags fs).measured[i]? = some g ∧ Measured (index + i) f g requests ∧
      ∀ r ∈ requests, ∃ seed ∈ (surveyFragments index offset setters diags fs).seeds,
        seed.request = r ∧ seed.ref = f.ref := by
  induction fs generalizing index offset setters i with
  | nil => simp at hf
  | cons f' fs ih =>
    obtain ⟨g, requests, hm, -, he⟩ := surveyFragments_cons h
    rw [he] at h ⊢
    cases i with
    | zero =>
      obtain rfl : f' = f := by simpa using hf
      refine ⟨g, requests, rfl, hm, fun r hr => ⟨_, List.mem_append_left _ (List.mem_map_of_mem hr), rfl, rfl⟩⟩
    | succ i =>
      obtain ⟨g', requests', hg, hm', hseeds⟩ := ih h (by simpa using hf)
      refine ⟨g', requests', by simpa using hg, ?_, fun r hr => ?_⟩
      · rwa [show index + (i + 1) = index + 1 + i by omega]
      · obtain ⟨seed, hseed, hr⟩ := hseeds r hr
        exact ⟨seed, List.mem_append_right _ hseed, hr⟩

theorem length_surveyFragments {κ : Type} [Directive κ] (index offset setters : Nat) (diags : Diagnostics)
    (fs : List (Fragment (Tail κ))) : (surveyFragments index offset setters diags fs).measured.length = fs.length := by
  induction fs generalizing index offset setters diags with
  | nil => rfl
  | cons f fs ih =>
    rw [surveyFragments]
    simp [ih]

theorem placed_surveyFragments (h : (surveyFragments index offset setters diags fs).diags.hasErrors = false) :
    (surveyFragments index offset setters diags fs).measured =
      Fragment.placeFrom offset (surveyFragments index offset setters diags fs).measured := by
  induction fs generalizing index offset setters with
  | nil => rfl
  | cons f fs ih =>
    obtain ⟨g, requests, -, ho, he⟩ := surveyFragments_cons h
    rw [he] at h ⊢
    subst ho
    exact congrArg (g :: ·) (ih h)

theorem ordered_surveyFragments (h : (surveyFragments index offset setters diags fs).diags.hasErrors = false)
    (hr : RefsFrom k j fs) :
    Ordered setters (surveyFragments index offset setters diags fs).setters
      (surveyFragments index offset setters diags fs).seeds := by
  induction fs generalizing index offset setters j with
  | nil => exact ⟨.nil, nofun⟩
  | cons f fs ih =>
    obtain ⟨g, requests, hm, -, he⟩ := surveyFragments_cons h
    obtain ⟨hf, hfs⟩ := refsFrom_cons hr
    rw [he] at h ⊢
    have hlater : ∀ r : FragmentRef, r.sectionIndex = k → j + 1 ≤ r.index → f.ref.Before r := by
      intro r hk hi
      rw [hf]
      exact .inr ⟨hk.symm, hi⟩
    refine Ordered.append ⟨?_, fun seed hseed => ?_⟩ (ih h hfs) (fun r hr => ?_) fun seed hseed r hr => ?_
    · unfold setterOf
      split <;> simp
    · -- A fragment that asks for spans is not a setter itself.
      obtain ⟨q, hq, rfl⟩ := List.mem_map.mp hseed
      have hs : f.setsOffset ≠ true := fun hs => by
        rw [hm.requests_of_setsOffset hs] at hq
        exact nomatch hq
      exact ⟨[], [], by simp [setterOf, hs], rfl, nofun, nofun⟩
    · obtain ⟨-, rfl⟩ := mem_setterOf.mp hr
      refine ⟨fun r' hr' => ?_, fun seed hseed => ?_⟩
      · obtain ⟨hk, hi⟩ := refs_surveyFragments hfs (List.mem_append_left _ hr')
        exact hlater r' hk hi
      · obtain ⟨hk, hi⟩ := refs_surveyFragments hfs (List.mem_append_right _ (List.mem_map_of_mem hseed))
        exact hlater seed.ref hk hi
    · obtain ⟨q, -, rfl⟩ := List.mem_map.mp hseed
      obtain ⟨hk, hi⟩ := refs_surveyFragments hfs (List.mem_append_left _ hr)
      exact hlater r hk hi

end

/-! ## All sections -/

theorem hasErrors_surveySections {κ : Type} [Directive κ] (index setters : Nat) {diags : Diagnostics}
    (h : diags.hasErrors = true) (ss : Sections κ) :
    (surveySections index setters diags ss).diags.hasErrors = true := by
  induction ss generalizing index setters diags with
  | nil => exact h
  | cons s ss ih => exact ih _ _ (hasErrors_surveyFragments index 0 setters h s.block.fragments)

theorem hasErrors_surveySections_cons {κ : Type} [Directive κ] {index setters : Nat} {diags : Diagnostics}
    {s : Section κ} {ss : Sections κ} (h : (surveySections index setters diags (s :: ss)).diags.hasErrors = false) :
    (surveyFragments index 0 setters diags s.block.fragments).diags.hasErrors = false := by
  by_contra he
  rw [Bool.not_eq_false] at he
  exact absurd (h.symm.trans (hasErrors_surveySections _ _ he ss)) (by decide)

/-- The number of the fragment called `r` in the whole object. -/
def number {κ : Type} (ss : Sections κ) (r : FragmentRef) : Nat :=
  ((ss.take r.sectionIndex).map (·.block.fragments.length)).sum + r.index

theorem number_lt_iff {κ : Type} {ss : Sections κ} {r r' : FragmentRef} {f f' : Fragment (Tail κ)}
    (hf : ss.fragment? r = some f) (hf' : ss.fragment? r' = some f') : number ss r < number ss r' ↔ r.Before r' := by
  have hlt : ∀ {r r' : FragmentRef} {f : Fragment (Tail κ)}, ss.fragment? r = some f →
      r.sectionIndex < r'.sectionIndex → number ss r < number ss r' := by
    intro r r' f hf hk
    obtain ⟨s, hs, hi⟩ := Option.bind_eq_some_iff.mp hf
    have hlen := (List.getElem?_eq_some_iff.mp hi).1
    obtain ⟨rest, hrest⟩ := List.take_prefix_take_left (l := ss) (Nat.succ_le_of_lt hk)
    unfold number
    rw [← hrest, Nat.succ_eq_add_one, List.take_add_one, hs]
    simp only [Option.toList_some, List.map_append, List.sum_append, List.map_cons, List.sum_cons]
    omega
  rcases Nat.lt_trichotomy r.sectionIndex r'.sectionIndex with hk | hk | hk
  · have := hlt hf hk
    unfold FragmentRef.Before
    omega
  · unfold FragmentRef.Before number
    rw [hk]
    omega
  · have := hlt hf' hk
    unfold FragmentRef.Before
    omega

theorem number_succ {κ : Type} (s : Section κ) (ss : Sections κ) (k i : Nat) :
    number (s :: ss) ⟨k + 1, i⟩ = s.block.fragments.length + number ss ⟨k, i⟩ := by
  simp [number, Nat.add_assoc]

theorem origins_surveySections {κ : Type} [Directive κ] (index setters : Nat) (diags : Diagnostics) (ss : Sections κ) :
    let x := surveySections index setters diags ss
    (∀ r g, Sections.fragment? x.measured r = some g → ∃ f at_, ss.fragment? r = some f ∧
        g = (({ f with index := index + number ss r } : Fragment (Tail κ)).measureAt at_).state.1) ∧
      (∀ seed ∈ x.seeds, ∃ r f, ss.fragment? r = some f ∧ seed.ref = f.ref ∧ seed.index = index + number ss r) ∧
      ∀ r ∈ x.setters, ∃ r' f, ss.fragment? r' = some f ∧ f.ref = r := by
  induction ss generalizing index setters diags with
  | nil => simp [surveySections, Sections.fragment?]
  | cons s ss ih =>
    obtain ⟨hfirst, hseeds, hsetters⟩ := origins_surveyFragments index 0 setters diags s.block.fragments
    rw [surveySections]
    dsimp only
    rw [length_surveyFragments]
    obtain ⟨hmeasured, hseeds', hsetters'⟩ := ih (index + s.block.fragments.length) _ _
    refine ⟨?_, ?_, ?_⟩
    · rintro ⟨k, i⟩ g hg
      cases k with
      | zero =>
        obtain ⟨f, at_, hf, rfl⟩ := hfirst i g hg
        exact ⟨f, at_, hf, by simp [number]⟩
      | succ k =>
        rw [number_succ, ← Nat.add_assoc]
        exact hmeasured ⟨k, i⟩ g hg
    · intro seed hseed
      rcases List.mem_append.mp hseed with hseed | hseed
      · obtain ⟨i, f, hf, href, hi⟩ := hseeds seed hseed
        exact ⟨⟨0, i⟩, f, hf, href, by simpa [number] using hi⟩
      · obtain ⟨r, f, hf, href, hi⟩ := hseeds' seed hseed
        refine ⟨⟨r.sectionIndex + 1, r.index⟩, f, hf, href, ?_⟩
        rw [number_succ, ← Nat.add_assoc]
        exact hi
    · intro r hr
      rcases List.mem_append.mp hr with hr | hr
      · obtain ⟨i, f, hf, href⟩ := hsetters r hr
        exact ⟨⟨0, i⟩, f, hf, href⟩
      · obtain ⟨r', f, hf, href⟩ := hsetters' r hr
        exact ⟨⟨r'.sectionIndex + 1, r'.index⟩, f, hf, href⟩

section

variable {index setters k : Nat} {diags : Diagnostics} {ss : Sections Empty}

theorem mem_setters_surveySections (h : (surveySections index setters diags ss).diags.hasErrors = false)
    (r : FragmentRef) :
    r ∈ (surveySections index setters diags ss).setters ↔
      ∃ r' f, ss.fragment? r' = some f ∧ f.setsOffset = true ∧ f.ref = r := by
  induction ss generalizing index setters diags with
  | nil => simp [surveySections, Sections.fragment?]
  | cons s ss ih =>
    have hs := hasErrors_surveySections_cons h
    rw [surveySections]
    dsimp only
    rw [List.mem_append, mem_setters_surveyFragments hs, ih h]
    constructor
    · rintro (⟨f, hf, hset⟩ | ⟨r', f, hf, hset⟩)
      · obtain ⟨i, hi⟩ := List.mem_iff_getElem?.mp hf
        exact ⟨⟨0, i⟩, f, hi, hset⟩
      · exact ⟨⟨r'.sectionIndex + 1, r'.index⟩, f, hf, hset⟩
    · rintro ⟨⟨k, i⟩, f, hf, hset⟩
      cases k with
      | zero => exact .inl ⟨f, List.mem_of_getElem? hf, hset⟩
      | succ k => exact .inr ⟨⟨k, i⟩, f, hf, hset⟩

theorem mem_seeds_surveySections (h : (surveySections index setters diags ss).diags.hasErrors = false)
    {seed : Seed} (hs : seed ∈ (surveySections index setters diags ss).seeds) :
    ∃ r f g requests, ss.fragment? r = some f ∧
      Sections.fragment? (surveySections index setters diags ss).measured r = some g ∧
      Measured (index + number ss r) f g requests ∧
      seed.request ∈ requests ∧ seed.ref = f.ref ∧ seed.index = index + number ss r := by
  induction ss generalizing index setters diags with
  | nil => simp [surveySections] at hs
  | cons s ss ih =>
    have hd := hasErrors_surveySections_cons h
    rw [surveySections] at hs ⊢
    rcases List.mem_append.mp hs with hs | hs
    · obtain ⟨i, f, g, requests, hf, hg, hm, hq, href, hindex⟩ := mem_seeds_surveyFragments hd hs
      exact ⟨⟨0, i⟩, f, g, requests, hf, hg, by simpa [number] using hm, hq, href, by simpa [number] using hindex⟩
    · obtain ⟨r, f, g, requests, hf, hg, hm, hq, href, hindex⟩ := ih h hs
      rw [length_surveyFragments, Nat.add_assoc] at hm hindex
      refine ⟨⟨r.sectionIndex + 1, r.index⟩, f, g, requests, hf, hg, ?_, hq, href, ?_⟩
      · rwa [number_succ]
      · rwa [number_succ]

theorem measured_surveySections (h : (surveySections index setters diags ss).diags.hasErrors = false)
    {r : FragmentRef} {f : Fragment (Tail Empty)} (hf : ss.fragment? r = some f) :
    ∃ g requests, Sections.fragment? (surveySections index setters diags ss).measured r = some g ∧
      Measured (index + number ss r) f g requests ∧
      ∀ q ∈ requests, ∃ seed ∈ (surveySections index setters diags ss).seeds, seed.request = q ∧ seed.ref = f.ref := by
  induction ss generalizing index setters diags r with
  | nil => simp [Sections.fragment?] at hf
  | cons s ss ih =>
    have hd := hasErrors_surveySections_cons h
    rw [surveySections]
    obtain ⟨k, i⟩ := r
    cases k with
    | zero =>
      obtain ⟨g, requests, hg, hm, hq⟩ := measured_surveyFragments hd hf
      refine ⟨g, requests, hg, by simpa [number] using hm, fun q hq' => ?_⟩
      obtain ⟨seed, hseed, hr⟩ := hq q hq'
      exact ⟨seed, List.mem_append_left _ hseed, hr⟩
    | succ k =>
      obtain ⟨g, requests, hg, hm, hq⟩ := ih (r := ⟨k, i⟩) h hf
      rw [length_surveyFragments, Nat.add_assoc] at hm
      refine ⟨g, requests, hg, by rwa [number_succ], fun q hq' => ?_⟩
      obtain ⟨seed, hseed, hr⟩ := hq q hq'
      exact ⟨seed, List.mem_append_right _ hseed, hr⟩

theorem length_fragmentsOf_surveySections {κ : Type} [Directive κ] (index setters : Nat) (diags : Diagnostics)
    (ss : Sections κ) (k : Nat) :
    (Sections.fragmentsOf (surveySections index setters diags ss).measured k).length = (ss.fragmentsOf k).length := by
  induction ss generalizing index setters diags k with
  | nil => rfl
  | cons s ss ih =>
    rw [surveySections]
    cases k with
    | zero => exact length_surveyFragments ..
    | succ k => exact ih _ _ _ k

theorem frame?_surveySections (h : (surveySections index setters diags ss).diags.hasErrors = false)
    (r : FragmentRef) :
    Sections.frame? (surveySections index setters diags ss).measured r =
      (ss.frame? r).map fun a => { a with index := index + number ss r } := by
  unfold Sections.frame?
  cases hf : ss.fragment? r with
  | none =>
    have hlen := length_fragmentsOf_surveySections index setters diags ss r.sectionIndex
    rw [Sections.fragment?_eq, List.getElem?_eq_none_iff] at hf
    rw [Sections.fragment?_eq, List.getElem?_eq_none (by omega)]
    rfl
  | some f =>
    obtain ⟨g, requests, hg, hm, -⟩ := measured_surveySections h hf
    rw [hg, Option.map_some, Option.map_some, Option.map_some, hm.frame]

theorem placed_surveySections (h : (surveySections index setters diags ss).diags.hasErrors = false) :
    Sections.Placed (surveySections index setters diags ss).measured := by
  apply Sections.placed_of_eq_placeFrom
  intro k
  induction ss generalizing index setters diags k with
  | nil => rfl
  | cons s ss ih =>
    have hd := hasErrors_surveySections_cons h
    rw [surveySections]
    cases k with
    | zero => exact placed_surveyFragments hd
    | succ k => exact ih h k

theorem ordered_surveySections (h : (surveySections index setters diags ss).diags.hasErrors = false)
    (hr : ∀ r f, ss.fragment? r = some f → f.ref = ⟨k + r.sectionIndex, r.index⟩) :
    Ordered setters (surveySections index setters diags ss).setters (surveySections index setters diags ss).seeds := by
  induction ss generalizing index setters diags k with
  | nil => exact ⟨.nil, nofun⟩
  | cons s ss ih =>
    have hd := hasErrors_surveySections_cons h
    have hrs : RefsFrom k 0 s.block.fragments := fun i f hf => by
      have := hr ⟨0, i⟩ f hf
      simpa using this
    have hrss : ∀ r f, Sections.fragment? ss r = some f → f.ref = ⟨k + 1 + r.sectionIndex, r.index⟩ := fun r f hf => by
      rw [hr ⟨r.sectionIndex + 1, r.index⟩ f hf]
      simp only [FragmentRef.mk.injEq, and_true]
      omega
    have hfirst {r : FragmentRef} (hm : r ∈ (surveyFragments index 0 setters diags s.block.fragments).setters ++
        (surveyFragments index 0 setters diags s.block.fragments).seeds.map (·.ref)) : r.sectionIndex = k :=
      (refs_surveyFragments hrs hm).1
    rw [surveySections] at h ⊢
    refine Ordered.append (ordered_surveyFragments hd hrs) (ih h hrss)
      (fun r hm => ⟨fun r' hm' => ?_, fun seed hm' => ?_⟩) fun seed hm r' hm' => ?_
    · obtain ⟨r'', f, hf, -, rfl⟩ := (mem_setters_surveySections h r').mp hm'
      rw [hrss r'' f hf]
      exact .inl (by rw [hfirst (List.mem_append_left _ hm)]; simp only; omega)
    · obtain ⟨r'', f, -, -, hf, -, -, -, href, -⟩ := mem_seeds_surveySections h hm'
      rw [href, hrss r'' f hf]
      exact .inl (by rw [hfirst (List.mem_append_left _ hm)]; simp only; omega)
    · obtain ⟨r'', f, hf, -, rfl⟩ := (mem_setters_surveySections h r').mp hm'
      rw [hrss r'' f hf]
      exact .inl (by rw [hfirst (List.mem_append_right _ (List.mem_map_of_mem hm))]; simp only; omega)

end

end Relaxation

end SpanLayout
