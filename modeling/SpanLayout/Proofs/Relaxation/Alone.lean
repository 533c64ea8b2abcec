import SpanLayout.Proofs.Expr.Mentions
import SpanLayout.Proofs.Relaxation.Chart
import SpanLayout.Proofs.Relaxation.Renumber

/-!
# A section by itself

If the spans of a section mention no other section, then up to the point where the queues are drained its fragments, its
spans and their places in the queues come out as if all other sections were empty, except that they are numbered from
elsewhere.
-/

namespace SpanLayout

variable {κ : Type}

/-- A section without fragments. -/
def Section.blank : Section κ := ⟨"", 0, ⟨0, [], none⟩⟩

/-- As many sections, with nothing in them but the fragments of section `k`. -/
def Sections.alone : Nat → Sections κ → Sections κ
  | _, [] => []
  | 0, s :: ss => ⟨"", 0, ⟨0, s.block.fragments, none⟩⟩ :: ss.map fun _ => .blank
  | k + 1, _ :: ss => .blank :: alone k ss

theorem Sections.alone_nil (k : Nat) : Sections.alone k ([] : Sections κ) = [] := by
  cases k <;> rfl

theorem Sections.alone_congr {k : Nat} {ss ss' : Sections κ} (hlen : List.length ss = List.length ss')
    (h : ss.fragmentsOf k = ss'.fragmentsOf k) : ss.alone k = ss'.alone k := by
  induction ss generalizing k ss' with
  | nil =>
    cases ss' with
    | nil => rfl
    | cons s ss' => cases hlen
  | cons s ss ih =>
    cases ss' with
    | nil => cases hlen
    | cons s' ss' =>
      rw [List.length_cons, List.length_cons, Nat.add_right_cancel_iff] at hlen
      cases k with
      | zero =>
        have hf : s.block.fragments = s'.block.fragments := h
        have hblank : (ss.map fun _ => (Section.blank : Section κ)) = ss'.map fun _ => .blank := by
          rw [List.map_const', List.map_const', hlen]
        rw [alone, alone, hf, hblank]
      | succ k => rw [alone, alone, ih hlen h]

namespace Relaxation

/-! ## The survey -/

section

variable [Directive κ]

theorem surveySections_blank (index setters : Nat) (d : Diagnostics) (ss : Sections κ) :
    surveySections index setters d (.blank :: ss) =
      let rest := surveySections index setters d ss
      ⟨.blank :: rest.measured, rest.seeds, rest.setters, rest.diags⟩ := rfl

theorem surveySections_blanks (index setters : Nat) (d : Diagnostics) (ss : Sections κ) :
    (surveySections index setters d (ss.map fun _ => (.blank : Section κ))).seeds = [] ∧
      (surveySections index setters d (ss.map fun _ => (.blank : Section κ))).setters = [] := by
  induction ss with
  | nil => exact ⟨rfl, rfl⟩
  | cons s ss ih =>
    rw [List.map_cons, surveySections_blank]
    exact ih

theorem refs_surveySections (index setters : Nat) (d : Diagnostics) {k : Nat} {ss : Sections κ}
    (hr : ∀ r f, ss.fragment? r = some f → f.ref = ⟨k + r.sectionIndex, r.index⟩) :
    (∀ seed ∈ (surveySections index setters d ss).seeds, k ≤ seed.ref.sectionIndex) ∧
      ∀ r ∈ (surveySections index setters d ss).setters, k ≤ r.sectionIndex := by
  obtain ⟨-, hseeds, hsetters⟩ := origins_surveySections index setters d ss
  constructor
  · intro seed hseed
    obtain ⟨r, f, hf, hs, -⟩ := hseeds seed hseed
    rw [hs, hr r f hf]
    exact Nat.le_add_right _ _
  · intro r hmem
    obtain ⟨r', f, hf, rfl⟩ := hsetters r hmem
    rw [hr r' f hf]
    exact Nat.le_add_right _ _

/-- Section `k` of a survey, which is called `sec`, is that of a survey in which there is nothing else, with `n`
fragments and `m` setters before it. -/
structure SurveysAlone (k sec start n m : Nat) (x y : Survey (Section κ)) : Prop where
  fragments : Sections.fragmentsOf x.measured k = (Sections.fragmentsOf y.measured k).map (·.later n)
  seeds : ∃ before after, x.seeds = before ++ (y.seeds.map (·.later n m) ++ after) ∧
    (∀ seed ∈ before, seed.ref.sectionIndex ≠ sec) ∧ ∀ seed ∈ after, seed.ref.sectionIndex ≠ sec
  setters : ∃ before after, x.setters = before ++ (y.setters ++ after) ∧ start + before.length = m ∧
    (∀ r ∈ before, r.sectionIndex ≠ sec) ∧ ∀ r ∈ after, r.sectionIndex ≠ sec
  own : (∀ seed ∈ y.seeds, seed.ref.sectionIndex = sec) ∧ ∀ r ∈ y.setters, r.sectionIndex = sec

omit [Directive κ] in
theorem SurveysAlone.cons {k sec start n m : Nat} {rest y : Survey (Section κ)} {seeds : List Seed}
    {setters : List FragmentRef} (h : SurveysAlone k sec (start + setters.length) n m rest y)
    (hother : ∀ r ∈ setters ++ seeds.map (·.ref), r.sectionIndex ≠ sec) (s t : Section κ) :
    SurveysAlone (k + 1) sec start n m ⟨s :: rest.measured, seeds ++ rest.seeds, setters ++ rest.setters, rest.diags⟩
      ⟨t :: y.measured, y.seeds, y.setters, y.diags⟩ := by
  obtain ⟨hfragments, ⟨before, after, hseeds, hbefore, hafter⟩,
    ⟨beforeS, afterS, hsetters, hlen, hbeforeS, hafterS⟩, hself⟩ := h
  refine ⟨hfragments, ⟨seeds ++ before, after, ?_, ?_, hafter⟩,
    ⟨setters ++ beforeS, afterS, ?_, ?_, ?_, hafterS⟩, hself⟩
  · rw [hseeds, List.append_assoc]
  · intro seed hseed
    rcases List.mem_append.1 hseed with hmem | hmem
    · exact hother _ (List.mem_append_right _ (List.mem_map_of_mem hmem))
    · exact hbefore seed hmem
  · rw [hsetters, List.append_assoc]
  · rw [List.length_append, ← hlen, Nat.add_assoc]
  · intro r hr
    rcases List.mem_append.1 hr with hmem | hmem
    · exact hother r (List.mem_append_left _ hmem)
    · exact hbeforeS r hmem

theorem surveySections_alone_zero (d : Diagnostics) (s : Section κ) (ss : Sections κ) :
    let x := surveySections 0 0 d (Sections.alone 0 (s :: ss))
    let y := surveyFragments 0 0 0 d s.block.fragments
    Sections.fragmentsOf x.measured 0 = y.measured ∧ x.seeds = y.seeds ∧ x.setters = y.setters := by
  intro x y
  obtain ⟨hseeds, hsetters⟩ := surveySections_blanks (0 + y.measured.length) (0 + y.setters.length) y.diags ss
  refine ⟨rfl, ?_, ?_⟩
  · exact (congrArg (y.seeds ++ ·) hseeds).trans (List.append_nil _)
  · exact (congrArg (y.setters ++ ·) hsetters).trans (List.append_nil _)

theorem surveysAlone_zero [LocalDirective κ] {sec : Nat} (index setters : Nat) (d d' : Diagnostics) {s : Section κ}
    {ss : Sections κ} (hrefs : RefsFrom sec 0 s.block.fragments)
    (hr : ∀ r f, Sections.fragment? ss r = some f → f.ref = ⟨sec + 1 + r.sectionIndex, r.index⟩) :
    SurveysAlone 0 sec setters index setters (surveySections index setters d (s :: ss))
      (surveySections 0 0 d' (Sections.alone 0 (s :: ss))) := by
  obtain ⟨hfragments, hseeds, hsetters⟩ := surveySections_alone_zero d' s ss
  obtain ⟨hm, hs, hst⟩ := surveyFragments_later index setters 0 0 0 d' d s.block.fragments
  rw [Nat.zero_add, Nat.zero_add] at hm hs hst
  obtain ⟨x, hx⟩ : ∃ x, surveyFragments index 0 setters d s.block.fragments = x := ⟨_, rfl⟩
  have hown : ∀ r ∈ x.setters ++ x.seeds.map (·.ref), r.sectionIndex = sec := by
    intro r hmem
    rw [← hx] at hmem
    exact (refs_surveyFragments hrefs hmem).1
  obtain ⟨hlater, hlater'⟩ :=
    refs_surveySections (index + x.measured.length) (setters + x.setters.length) x.diags hr
  obtain ⟨rest, hrest⟩ :
      ∃ rest, surveySections (index + x.measured.length) (setters + x.setters.length) x.diags ss = rest :=
    ⟨_, rfl⟩
  rw [hrest] at hlater hlater'
  rw [surveySections, hx, hrest]
  rw [hx] at hm hs hst
  refine ⟨?_, ⟨[], rest.seeds, ?_, by simp, ?_⟩, ⟨[], rest.setters, ?_, rfl, by simp, ?_⟩, ?_, ?_⟩
  · rw [hfragments]
    exact hm
  · rw [hseeds, ← hs]
    rfl
  · intro seed hseed
    have := hlater seed hseed
    omega
  · rw [hsetters, ← hst]
    rfl
  · intro r hmem
    have := hlater' r hmem
    omega
  · intro seed hseed
    rw [hseeds] at hseed
    refine hown seed.ref (List.mem_append_right _ ?_)
    rw [hs, List.map_map]
    exact List.mem_map_of_mem (f := (·.ref) ∘ (·.later index setters)) hseed
  · intro r hmem
    rw [hsetters, ← hst] at hmem
    exact hown r (List.mem_append_left _ hmem)

theorem surveysAlone [LocalDirective κ] (k : Nat) {sec index setters : Nat} {d d' : Diagnostics} {ss : Sections κ}
    (hr : ∀ r f, ss.fragment? r = some f → f.ref = ⟨sec + r.sectionIndex, r.index⟩) :
    ∃ n m, SurveysAlone k (sec + k) setters n m (surveySections index setters d ss)
      (surveySections 0 0 d' (ss.alone k)) := by
  induction ss generalizing k sec index setters d with
  | nil =>
    rw [Sections.alone_nil]
    exact ⟨0, setters, rfl, ⟨[], [], rfl, by simp, by simp⟩,
      ⟨[], [], rfl, rfl, by simp, by simp⟩, by simp [surveySections], by simp [surveySections]⟩
  | cons s ss ih =>
    have hrefs : RefsFrom sec 0 s.block.fragments := by
      intro i f hf
      rw [Nat.zero_add]
      exact hr ⟨0, i⟩ f hf
    have hothers : ∀ r f, Sections.fragment? ss r = some f → f.ref = ⟨sec + 1 + r.sectionIndex, r.index⟩ := by
      intro r f hf
      rw [hr ⟨r.sectionIndex + 1, r.index⟩ f hf, Nat.add_assoc, Nat.add_comm 1]
    cases k with
    | zero => exact ⟨index, setters, surveysAlone_zero index setters d d' hrefs hothers⟩
    | succ k =>
      rw [surveySections, Sections.alone, surveySections_blank]
      obtain ⟨n, m, h⟩ := ih k hothers
      rw [Nat.add_right_comm sec 1 k] at h
      refine ⟨n, m, h.cons (fun r hmem => ?_) _ _⟩
      rw [(refs_surveyFragments hrefs hmem).1]
      omega

end

end Relaxation

/-! ## Distances -/

/-- The request mentions no section but `k`. -/
def SpanRequest.StaysIn (k : Nat) (q : SpanRequest) : Prop :=
  ∀ e, q.value.abs = some e → ∀ l ∈ e.locs, l.fragment.sectionIndex = k

instance (k : Nat) (q : SpanRequest) : Decidable (q.StaysIn k) :=
  inferInstanceAs (Decidable (∀ e ∈ q.value.abs, ∀ l ∈ e.locs, l.fragment.sectionIndex = k))

section

variable {k n : Nat} {ss uu : Sections κ}

namespace Sections

theorem fragment?_later (h : ss.fragmentsOf k = (uu.fragmentsOf k).map (·.later n)) {r : FragmentRef}
    (hr : r.sectionIndex = k) : ss.fragment? r = (uu.fragment? r).map (·.later n) := by
  rw [fragment?_eq, fragment?_eq, hr, h, List.getElem?_map]

theorem distance?_later (h : ss.fragmentsOf k = (uu.fragmentsOf k).map (·.later n)) {a b : Location}
    (ha : a.fragment.sectionIndex = k) (hb : b.fragment.sectionIndex = k) : ss.distance? a b = uu.distance? a b := by
  have hoffset {l : Location} (hl : l.fragment.sectionIndex = k) : ss.offset? l = uu.offset? l := by
    unfold offset?
    rw [fragment?_later h hl, Option.map_map]
    rfl
  unfold distance?
  rw [hoffset ha, hoffset hb]

theorem fragmentsOf_setFragment_later (h : ss.fragmentsOf k = (uu.fragmentsOf k).map (·.later n)) {r : FragmentRef}
    (hr : r.sectionIndex = k) (g : Fragment (Tail κ)) :
    (ss.setFragment r (g.later n)).fragmentsOf k = ((uu.setFragment r g).fragmentsOf k).map (·.later n) := by
  rw [fragmentsOf_setFragment, fragmentsOf_setFragment, if_pos hr, if_pos hr, List.map_set, h]

theorem fragmentsOf_setFragment_ne (ss : Sections κ) {r : FragmentRef} (hr : r.sectionIndex ≠ k)
    (g : Fragment (Tail κ)) : (ss.setFragment r g).fragmentsOf k = ss.fragmentsOf k := by
  rw [fragmentsOf_setFragment, if_neg hr]

end Sections

namespace Span

theorem measureTerm_later (h : ss.fragmentsOf k = (uu.fragmentsOf k).map (·.later n)) (m : Nat) (seed : Seed)
    {d : Distance} (ho : d.origin.fragment.sectionIndex = k) (ht : d.target.fragment.sectionIndex = k) :
    measureTerm ss (seed.later n m) d = (measureTerm uu seed d).map (·.later n) := by
  unfold measureTerm
  rw [Sections.distance?_later h ho ht, Sections.fragment?_later h ho, Sections.fragment?_later h ht]
  cases uu.distance? d.origin d.target with
  | none => rfl
  | some length =>
    cases uu.fragment? d.origin.fragment with
    | none => rfl
    | some f =>
      cases uu.fragment? d.target.fragment with
      | none => rfl
      | some g =>
        simp only [Option.map_some]
        rw [show (⟨d, (f.later n).index, (g.later n).index, length⟩ : Term) =
          (⟨d, f.index, g.index, length⟩ : Term).later n from rfl, Term.low_later, Term.high_later]
        have hiff :
            ((seed.later n m).request.id ≤ 0 ∧ (⟨d, f.index, g.index, length⟩ : Term).low + n ≤ (seed.later n m).index ∧
            (seed.later n m).index < (⟨d, f.index, g.index, length⟩ : Term).high + n) ↔
            seed.request.id ≤ 0 ∧ (⟨d, f.index, g.index, length⟩ : Term).low ≤ seed.index ∧
            seed.index < (⟨d, f.index, g.index, length⟩ : Term).high := by
          simp [Seed.later]
        simp only [hiff]
        split <;> rfl

theorem mapM_map_later {α β : Type} {f g : α → Except Error β} {h : β → β} {as : List α}
    (hfg : ∀ a ∈ as, f a = (g a).map h) : as.mapM f = (as.mapM g).map (List.map h) := by
  induction as with
  | nil => rfl
  | cons a as ih =>
    rw [List.mapM_cons, List.mapM_cons, hfg a List.mem_cons_self, ih fun b hb => hfg b (List.mem_cons_of_mem _ hb)]
    cases g a with
    | error e => rfl
    | ok b => cases as.mapM g <;> rfl

theorem ofSeed_later (h : ss.fragmentsOf k = (uu.fragmentsOf k).map (·.later n)) (m : Nat) {seed : Seed}
    (hin : seed.request.StaysIn k) : ofSeed ss (seed.later n m) = (ofSeed uu seed).map (·.later n m) := by
  unfold ofSeed
  rw [show (seed.later n m).request = seed.request from rfl]
  cases he : seed.request.value.abs with
  | none => rfl
  | some e =>
    have hterms : e.distances.2.mapM (measureTerm ss (seed.later n m)) =
        (e.distances.2.mapM (measureTerm uu seed)).map (List.map (·.later n)) := by
      refine mapM_map_later fun d hd => ?_
      obtain ⟨ho, ht⟩ := Expr.mem_distances hd
      exact measureTerm_later h m seed (hin e he _ ho) (hin e he _ ht)
    dsimp only
    rw [hterms]
    cases e.distances.2.mapM (measureTerm uu seed) <;> rfl

end Span

end

/-! ## The first expansions -/

variable [Directive κ]

namespace Relaxation

/-- The fragments of section `k` and some of the spans are those of another relaxation, with `n` more fragments and `m`
more setters before them. -/
structure WatchesAlike (k n m : Nat) (spans spans' : List Span) (s u : Relaxation κ) : Prop where
  fragments : s.sections.fragmentsOf k = (u.sections.fragmentsOf k).map (·.later n)
  spans : ∃ new, s.spans = spans ++ new.map (·.later n m) ∧ u.spans = spans' ++ new

theorem watchesAlike_watch [LocalDirective κ] {k n m : Nat} {s u : Relaxation κ}
    (h : s.sections.fragmentsOf k = (u.sections.fragmentsOf k).map (·.later n)) {seed : Seed}
    (hk : seed.ref.sectionIndex = k) (hin : seed.request.StaysIn k) :
    WatchesAlike k n m s.spans u.spans (s.watch (seed.later n m)) (u.watch seed) := by
  have hfragment := Sections.fragment?_later h hk
  unfold watch
  rw [Span.ofSeed_later h m hin]
  cases Span.ofSeed u.sections seed with
  | error e => exact ⟨h, [], by simp [report, Except.map], by simp [report]⟩
  | ok span =>
    dsimp only [Except.map]
    rw [Span.recalc_later, Span.exceeded_later]
    cases hx : span.recalc.exceeded with
    | false => exact ⟨h, [span.recalc.kept], rfl, rfl⟩
    | true =>
      rw [if_pos rfl, if_pos rfl]
      dsimp only [countRecalcs]
      rw [show (seed.later n m).ref = seed.ref from rfl, hfragment]
      cases u.sections.fragment? seed.ref with
      | none => exact ⟨h, [], by simp, by simp⟩
      | some f =>
        dsimp only [Option.map_some]
        rw [Fragment.expand_later, show f.expand (span.recalc.later n m).id (span.recalc.later n m).current
          (span.recalc.later n m).latest = f.expand span.recalc.id span.recalc.current span.recalc.latest from rfl]
        obtain ⟨g, r⟩ := f.expand span.recalc.id span.recalc.current span.recalc.latest
        have hset := Sections.fragmentsOf_setFragment_later h hk g
        dsimp only [Attempt.mapState]
        rcases r with e | ⟨_, _ | window⟩
        · exact ⟨hset, [], by simp [report, setFragment], by simp [report, setFragment]⟩
        · exact ⟨hset, [], by simp [setFragment], by simp [setFragment]⟩
        · dsimp only
          rw [show (span.recalc.later n m).status = span.recalc.status from rfl]
          split <;> exact ⟨hset, [{ span.recalc.kept with window }], rfl, rfl⟩

theorem watchesAlike_foldl [LocalDirective κ] {k n m : Nat} {s u : Relaxation κ}
    (h : s.sections.fragmentsOf k = (u.sections.fragmentsOf k).map (·.later n)) {seeds : List Seed}
    (hk : ∀ seed ∈ seeds, seed.ref.sectionIndex = k ∧ seed.request.StaysIn k) :
    WatchesAlike k n m s.spans u.spans ((seeds.map (·.later n m)).foldl watch s) (seeds.foldl watch u) := by
  induction seeds generalizing s u with
  | nil => exact ⟨h, [], by simp, by simp⟩
  | cons seed seeds ih =>
    obtain ⟨hseed, hin⟩ := hk seed List.mem_cons_self
    obtain ⟨hf, new, hs, hu⟩ := watchesAlike_watch (m := m) h hseed hin
    obtain ⟨hf', new', hs', hu'⟩ := ih hf fun seed hs => hk seed (List.mem_cons_of_mem _ hs)
    refine ⟨hf', new ++ new', ?_, ?_⟩
    · rw [List.map_cons, List.foldl_cons, hs', hs, List.map_append, List.append_assoc]
    · rw [List.foldl_cons, hu', hu, List.append_assoc]

theorem watch_elsewhere {k : Nat} {seeds : List Seed} (hk : ∀ seed ∈ seeds, seed.ref.sectionIndex ≠ k)
    (s : Relaxation κ) :
    (seeds.foldl watch s).sections.fragmentsOf k = s.sections.fragmentsOf k ∧
      ∃ new, (seeds.foldl watch s).spans = s.spans ++ new ∧ ∀ span ∈ new, span.seed.ref.sectionIndex ≠ k := by
  induction seeds generalizing s with
  | nil => exact ⟨rfl, [], by simp, by simp⟩
  | cons seed seeds ih =>
    obtain ⟨⟨new, hspans, hnew⟩, hsections, -⟩ := s.watch_effect seed
    have hseed := hk seed List.mem_cons_self
    obtain ⟨hf, new', hspans', hnew'⟩ := ih (fun seed hs => hk seed (List.mem_cons_of_mem _ hs)) (s.watch seed)
    refine ⟨?_, new ++ new', ?_, ?_⟩
    · rw [List.foldl_cons, hf]
      rcases hsections with hsections | ⟨f, id, old, new, -, hsections⟩
      · rw [hsections]
      · rw [hsections, Sections.fragmentsOf_setFragment_ne _ hseed]
    · rw [List.foldl_cons, hspans', hspans, List.append_assoc]
    · intro span hspan
      rcases List.mem_append.1 hspan with hspan | hspan
      · obtain ⟨x, hx, ho⟩ := hnew span hspan
        rw [Span.seed_of_outline ho, (Span.ofSeed_ok hx).1]
        exact hseed
      · exact hnew' span hspan

theorem foldl_watch_effect (s : Relaxation κ) (seeds : List Seed) :
    (seeds.foldl watch s).counts = s.counts ∧ (seeds.foldl watch s).others = s.others ∧
      (seeds.foldl watch s).index = s.index ∧ (seeds.foldl watch s).setters = s.setters := by
  induction seeds generalizing s with
  | nil => exact ⟨rfl, rfl, rfl, rfl⟩
  | cons seed seeds ih =>
    obtain ⟨-, -, hcounts, hothers, hindex, hsetters⟩ := s.watch_effect seed
    obtain ⟨hcounts', hothers', hindex', hsetters'⟩ := ih (s.watch seed)
    exact ⟨hcounts'.trans hcounts, hothers'.trans hothers, hindex'.trans hindex, hsetters'.trans hsetters⟩

end Relaxation

/-- The span belongs to section `k` and measures distances there only. -/
structure Span.StaysIn (k : Nat) (span : Span) : Prop where
  ref : span.seed.ref.sectionIndex = k
  terms : ∀ t ∈ span.terms, t.distance.origin.fragment.sectionIndex = k ∧ t.distance.target.fragment.sectionIndex = k

theorem Span.StaysIn.of_outline {k : Nat} {span span' : Span} (h : span.StaysIn k) (ho : span'.outline = span.outline) :
    span'.StaysIn k := by
  refine ⟨?_, fun t ht => ?_⟩
  · rw [Span.seed_of_outline ho]
    exact h.ref
  · have hmem : t.outline ∈ span.terms.map Term.outline := by
      rw [show span.terms.map Term.outline = span'.terms.map Term.outline from (congrArg Span.terms ho).symm]
      exact List.mem_map_of_mem ht
    obtain ⟨t', ht', he⟩ := List.mem_map.1 hmem
    rw [show t.distance = t'.distance from (congrArg Term.distance he).symm]
    exact h.terms t' ht'

theorem Span.StaysIn.later {k : Nat} {span : Span} (h : span.StaysIn k) (n m : Nat) : (span.later n m).StaysIn k := by
  refine ⟨h.ref, fun t ht => ?_⟩
  obtain ⟨t', ht', rfl⟩ := List.mem_map.1 ht
  exact h.terms t' ht'

theorem Span.staysIn_ofSeed {k : Nat} {ss : Sections κ} {seed : Seed} {span : Span} (h : ofSeed ss seed = .ok span)
    (hk : seed.ref.sectionIndex = k) (hin : seed.request.StaysIn k) : span.StaysIn k := by
  obtain ⟨hseed, -, -, -, -, hterms⟩ := ofSeed_ok h
  refine ⟨by rw [hseed]; exact hk, fun t ht => ?_⟩
  obtain ⟨d, hd, hdt⟩ := exists_of_forall₂_right hterms ht
  rw [(measureTerm_ok hdt).1]
  cases he : seed.request.value.abs with
  | none =>
    rw [he] at hd
    cases hd
  | some e =>
    rw [he] at hd
    obtain ⟨ho, ht⟩ := Expr.mem_distances hd
    exact ⟨hin e he _ ho, hin e he _ ht⟩

namespace Relaxation

theorem staysIn_foldl_watch {k : Nat} {seeds : List Seed}
    (hk : ∀ seed ∈ seeds, seed.ref.sectionIndex = k ∧ seed.request.StaysIn k) {s : Relaxation κ}
    (h : ∀ span ∈ s.spans, span.StaysIn k) : ∀ span ∈ (seeds.foldl watch s).spans, span.StaysIn k := by
  induction seeds generalizing s with
  | nil => exact h
  | cons seed seeds ih =>
    obtain ⟨⟨new, hspans, hnew⟩, -⟩ := s.watch_effect seed
    obtain ⟨hseed, hin⟩ := hk seed List.mem_cons_self
    refine ih (fun seed hs => hk seed (List.mem_cons_of_mem _ hs)) fun span hspan => ?_
    rw [hspans] at hspan
    rcases List.mem_append.1 hspan with hspan | hspan
    · exact h span hspan
    · obtain ⟨x, hx, ho⟩ := hnew span hspan
      exact (Span.staysIn_ofSeed hx hseed hin).of_outline ho

/-- The fragments, spans and setters of section `k` are all that there is in another relaxation, with `n` more fragments
and `m` more setters before them. -/
structure Embeds (k n m : Nat) (s u : Relaxation κ) : Prop where
  fragments : s.sections.fragmentsOf k = (u.sections.fragmentsOf k).map (·.later n)
  spans : ∃ before after, s.spans = before ++ (u.spans.map (·.later n m) ++ after) ∧
    (∀ span ∈ before, span.seed.ref.sectionIndex ≠ k) ∧ ∀ span ∈ after, span.seed.ref.sectionIndex ≠ k
  own : ∀ span ∈ u.spans, span.StaysIn k
  setters : ∃ before after, s.setters = before ++ (u.setters ++ after) ∧ before.length = m ∧
    (∀ x ∈ before, x.ref.sectionIndex ≠ k) ∧ ∀ x ∈ after, x.ref.sectionIndex ≠ k
  ownSetters : ∀ x ∈ u.setters, x.ref.sectionIndex = k

theorem embeds_watched [LocalDirective κ] {k : Nat} {config config' : Config} {diags diags' : Diagnostics}
    {ss : Sections κ} (hr : ss.RefsMatch)
    (hin : ∀ seed ∈ (surveySections 0 0 diags ss).seeds, seed.ref.sectionIndex = k → seed.request.StaysIn k) :
    ∃ n m, Embeds k n m (ss.watched config diags) ((ss.alone k).watched config' diags') := by
  have hsurvey : ∃ n m, SurveysAlone k (0 + k) 0 n m (surveySections 0 0 diags ss)
      (surveySections 0 0 diags' (ss.alone k)) := surveysAlone k hr.zero_add
  obtain ⟨n, m, hfragments, ⟨before, after, hseeds, hbefore, hafter⟩,
    ⟨beforeS, afterS, hsetters, hlen, hbeforeS, hafterS⟩, hown, hownS⟩ := hsurvey
  rw [Nat.zero_add] at hbefore hafter hbeforeS hafterS hown hownS hlen
  have hstays : ∀ seed ∈ (surveySections 0 0 diags' (ss.alone k)).seeds,
      seed.ref.sectionIndex = k ∧ seed.request.StaysIn k := by
    intro seed hseed
    have hmem : seed.later n m ∈ (surveySections 0 0 diags ss).seeds := by
      rw [hseeds]
      exact List.mem_append_right _ (List.mem_append_left _ (List.mem_map_of_mem hseed))
    exact ⟨hown seed hseed, hin (seed.later n m) hmem (hown seed hseed)⟩
  have hwatched : ss.watched config diags = after.foldl watch
      (((surveySections 0 0 diags' (ss.alone k)).seeds.map (·.later n m)).foldl watch
        (before.foldl watch (ss.surveyed config diags))) := by
    rw [Sections.watched, hseeds, List.foldl_append, List.foldl_append]
  -- The spans of other sections before, those of the section itself, and those of other sections behind.
  obtain ⟨hf₁, first, hspans₁, hfirst⟩ := watch_elsewhere hbefore (ss.surveyed config diags)
  obtain ⟨hf₂, new, hspans₂, hnew⟩ := watchesAlike_foldl (m := m) (s := before.foldl watch (ss.surveyed config diags))
    (u := (ss.alone k).surveyed config' diags') (hf₁.trans hfragments) hstays
  obtain ⟨hf₃, last, hspans₃, hlast⟩ := watch_elsewhere hafter
    (((surveySections 0 0 diags' (ss.alone k)).seeds.map (·.later n m)).foldl watch
        (before.foldl watch (ss.surveyed config diags)))
  have hwatched' : (ss.alone k).watched config' diags' =
      (surveySections 0 0 diags' (ss.alone k)).seeds.foldl watch ((ss.alone k).surveyed config' diags') := rfl
  have hsetters' : (ss.watched config diags).setters = (surveySections 0 0 diags ss).setters.map (⟨·, 0⟩) :=
    (foldl_watch_effect _ _).2.2.2
  have hsetters'' : ((ss.alone k).watched config' diags').setters =
      (surveySections 0 0 diags' (ss.alone k)).setters.map (⟨·, 0⟩) := (foldl_watch_effect _ _).2.2.2
  refine ⟨n, m, ?_, ⟨first, last, ?_, hfirst, hlast⟩, ?_,
    ⟨beforeS.map (⟨·, 0⟩), afterS.map (⟨·, 0⟩), ?_, ?_, ?_, ?_⟩, ?_⟩
  · rw [hwatched, hwatched', hf₃, hf₂]
  · rw [hwatched, hwatched', hspans₃, hspans₂, hspans₁, hnew, List.append_assoc, List.append_assoc]
    rfl
  · rw [hwatched']
    exact staysIn_foldl_watch hstays (by simp [Sections.surveyed])
  · rw [hsetters', hsetters'', hsetters, List.map_append, List.map_append]
  · rw [List.length_map, hlen]
  · intro x hx
    obtain ⟨r, hr', rfl⟩ := List.mem_map.1 hx
    exact hbeforeS r hr'
  · intro x hx
    obtain ⟨r, hr', rfl⟩ := List.mem_map.1 hx
    exact hafterS r hr'
  · intro x hx
    rw [hsetters''] at hx
    obtain ⟨r, hr', rfl⟩ := List.mem_map.1 hx
    exact hownS r hr'

/-! ## The layout and the recheck -/

theorem Embeds.lay [LocalDirective κ] {k n m : Nat} {s u : Relaxation κ} (h : Embeds k n m s u) :
    Embeds k n m s.lay u.lay := by
  refine ⟨?_, h.spans, h.own, h.setters, h.ownSetters⟩
  rw [show s.lay.sections = (s.sections.lay s.diags).1 from rfl, show u.lay.sections =
    (u.sections.lay u.diags).1 from rfl,
    Sections.fragmentsOf_lay s.diags u.diags, Sections.fragmentsOf_lay u.diags u.diags, h.fragments, layFragments_later]

end Relaxation

omit [Directive κ] in
theorem Span.rechecked_later {k n m : Nat} {ss uu : Sections κ}
    (h : ss.fragmentsOf k = (uu.fragmentsOf k).map (·.later n)) {span : Span} (hin : span.StaysIn k) :
    (span.later n m).rechecked ss = (span.rechecked uu).later n m := by
  have hterms : (span.terms.map (·.later n)).map (Term.remeasure ss) =
      (span.terms.map (Term.remeasure uu)).map (·.later n) := by
    rw [List.map_map, List.map_map]
    refine List.map_congr_left fun t ht => ?_
    obtain ⟨ho, htarget⟩ := hin.terms t ht
    simp only [Function.comp_apply, Term.remeasure, Term.later]
    rw [Sections.distance?_later h ho htarget]
  have hspan : ({ span.later n m with terms := (span.later n m).terms.map (Term.remeasure ss) } : Span) =
      ({ span with terms := span.terms.map (Term.remeasure uu) } : Span).later n m := by
    simp only [Span.later]
    rw [hterms]
  unfold rechecked
  dsimp only at hspan ⊢
  rw [hspan, recalc_later, exceeded_later]
  split <;> rfl

end SpanLayout
