import SpanLayout.Proofs.Relaxation.Plan
import SpanLayout.Relaxation.Run

/-!
# Following a growth

When a fragment grows, the terms that extend over it are brought up to date one by one, and a span that leaves its
window on the way is queued. Afterwards every term of a watched span is the length of its distance again, and the
queues hold what they should.
-/

namespace SpanLayout

/-! ## Spans and distances -/

/-- The terms of watched spans will be the lengths of their distances once those in `pending` have grown by `d`. -/
def SpansLag (ss : Sections Empty) (d : Int) (pending : List (Nat × Nat)) (spans : List Span) : Prop :=
  ∀ (n : Nat) (span : Span), spans[n]? = some span → span.status ≠ .inactive →
    ∀ (j : Nat) (t : Term), span.terms[j]? = some t →
      t.length + (if (n, j) ∈ pending then if t.originIndex < t.targetIndex then d else -d else 0) = ss.span t

/-- The terms of watched spans are the lengths of their distances. -/
def SpansTrack (ss : Sections Empty) (spans : List Span) : Prop :=
  ∀ span ∈ spans, span.status ≠ .inactive → ∀ t ∈ span.terms, t.length = ss.span t

theorem spansLag_nil_iff {ss : Sections Empty} {d : Int} {spans : List Span} :
    SpansLag ss d [] spans ↔ SpansTrack ss spans := by
  constructor
  · intro h span hspan hs t ht
    obtain ⟨n, hn⟩ := List.mem_iff_getElem?.mp hspan
    obtain ⟨j, hj⟩ := List.mem_iff_getElem?.mp ht
    simpa using h n span hn hs j t hj
  · intro h n span hn hs j t hj
    simpa using h span (List.mem_of_getElem? hn) hs t (List.mem_of_getElem? hj)

/-- The span after term `j` has grown by `d`. -/
def Span.shifted (j : Nat) (d : Int) (span : Span) : Span := { span with terms := span.terms.modify j (·.grow d) }

@[simp] theorem Span.outline_shifted (j : Nat) (d : Int) (span : Span) : (span.shifted j d).outline = span.outline := by
  have h : (span.terms.modify j (·.grow d)).map Term.outline = span.terms.map Term.outline := by
    apply List.ext_getElem?
    intro k
    rw [List.getElem?_map, List.getElem?_map, List.getElem?_modify]
    cases span.terms[k]? with
    | none => rfl
    | some t => by_cases hk : j = k <;> simp [hk, Term.outline, Term.grow]
  simp [Span.outline, Span.shifted, h]

@[simp] theorem Span.outline_recalc (span : Span) : span.recalc.outline = span.outline := rfl

@[simp] theorem Span.recalc_recalc (span : Span) : span.recalc.recalc = span.recalc := by
  have h : span.recalc.compute = span.compute := rfl
  unfold recalc at h ⊢
  simp only [h]
  split <;> rfl

theorem Span.recalc_status (span : Span) : span.recalc.status = span.status ∨ span.recalc.status = .inactive := by
  unfold recalc
  dsimp only
  split
  · exact .inr rfl
  · exact .inl rfl

/-! ## One term -/

namespace Relaxation

section

variable {κ : Type} [Directive κ]

/-- Two relaxations that differ in their spans' values and in their queues. -/
structure Requeued (s t : Relaxation κ) : Prop where
  plan : t.plan = s.plan
  sections : t.sections = s.sections
  setters : t.setters = s.setters
  diags : t.diags = s.diags
  config : t.config = s.config
  expansions : t.stats.expansions = s.stats.expansions
  registered : t.stats.spans = s.stats.spans

theorem Requeued.refl (s : Relaxation κ) : Requeued s s := ⟨rfl, rfl, rfl, rfl, rfl, rfl, rfl⟩

theorem Requeued.trans {s t u : Relaxation κ} (h : Requeued s t) (h' : Requeued t u) : Requeued s u :=
  ⟨h'.plan.trans h.plan, h'.sections.trans h.sections, h'.setters.trans h.setters, h'.diags.trans h.diags,
    h'.config.trans h.config, h'.expansions.trans h.expansions, h'.registered.trans h.registered⟩

theorem plan_setSpan {s : Relaxation κ} {n : Nat} {span span' : Span} (h : s.spans[n]? = some span)
    (ho : span'.outline = span.outline) : (s.setSpan n span').plan = s.plan := by
  have hmap : (s.spans.set n span').map Span.outline = s.spans.map Span.outline := by
    obtain ⟨hn, rfl⟩ := List.getElem?_eq_some_iff.mp h
    rw [List.map_set, ho, ← List.getElem_map Span.outline (h := by simpa using hn), List.set_getElem_self]
  simp [plan, setSpan, hmap]

omit [Directive κ] in
theorem shiftTerm_cases (d : Int) (s : Relaxation κ) (n j : Nat) :
    (shiftTerm d s (n, j) = s ∧ ∀ span, s.spans[n]? = some span → span.status = .inactive) ∨
    ∃ span, s.spans[n]? = some span ∧
      ((span.status = .queued ∧ shiftTerm d s (n, j) = s.setSpan n (span.shifted j d)) ∨
        (span.status = .active ∧ (span.shifted j d).recalc.exceeded = true ∧
          shiftTerm d s (n, j) = (s.countRecalcs 1).enqueue n (span.shifted j d).recalc) ∨
        (span.status = .active ∧ (span.shifted j d).recalc.exceeded = false ∧
          shiftTerm d s (n, j) = (s.countRecalcs 1).setSpan n (span.shifted j d).recalc)) := by
  unfold shiftTerm
  split
  · rename_i hn
    exact .inl ⟨rfl, fun span h => nomatch hn.symm.trans h⟩
  · rename_i span hn
    dsimp only
    split
    · rename_i hs
      refine .inl ⟨rfl, fun span' h => ?_⟩
      rw [← Option.some.inj (hn.symm.trans h), hs]
    · rename_i hs
      exact .inr ⟨span, hn, .inl ⟨hs, rfl⟩⟩
    · rename_i hs
      refine .inr ⟨span, hn, .inr ?_⟩
      by_cases he : (span.shifted j d).recalc.exceeded = true
      · exact .inl ⟨hs, he, if_pos he⟩
      · exact .inr ⟨hs, by simpa using he, if_neg he⟩

theorem shiftTerm_requeued (d : Int) (s : Relaxation κ) (hit : Nat × Nat) : Requeued s (shiftTerm d s hit) := by
  obtain ⟨n, j⟩ := hit
  rcases shiftTerm_cases d s n j with ⟨h, -⟩ | ⟨span, hn, ⟨-, h⟩ | ⟨-, -, h⟩ | ⟨-, -, h⟩⟩ <;> rw [h]
  · exact .refl s
  · exact ⟨plan_setSpan hn (by simp), rfl, rfl, rfl, rfl, rfl, rfl⟩
  · have hp : ((s.countRecalcs 1).setSpan n { (span.shifted j d).recalc with status := .queued }).plan = s.plan :=
      plan_setSpan hn (Span.outline_shifted j d span)
    unfold enqueue
    dsimp only
    split <;> exact ⟨hp, rfl, rfl, rfl, rfl, rfl, rfl⟩
  · exact ⟨plan_setSpan (s := s) hn (by simp), rfl, rfl, rfl, rfl, rfl, rfl⟩

theorem shift_requeued (s : Relaxation κ) (i : Nat) (d : Int) : Requeued s (s.shift i d) := by
  unfold shift
  induction s.index.query i i generalizing s with
  | nil => exact .refl s
  | cons hit hits ih => exact (shiftTerm_requeued d s hit).trans (ih _)

end

theorem spansLag_set {ss : Sections Empty} {d : Int} {n j : Nat} {pending : List (Nat × Nat)} {spans : List Span}
    (h : SpansLag ss d ((n, j) :: pending) spans) (hp : (n, j) ∉ pending) {span span' : Span}
    (hn : spans[n]? = some span) (hs : span.status ≠ .inactive) (ht : span'.terms = span.terms.modify j (·.grow d)) :
    SpansLag ss d pending (spans.set n span') := by
  intro m x hm hx k t hk
  by_cases hmn : n = m
  · subst hmn
    rw [List.getElem?_set_self (List.getElem?_eq_some_iff.mp hn).1, Option.some.injEq] at hm
    subst hm
    rw [ht, List.getElem?_modify] at hk
    obtain ⟨u, hu, rfl⟩ := Option.map_eq_some_iff.mp hk
    have hlag := h n span hn hs k u hu
    by_cases hjk : j = k
    · subst hjk
      rw [if_pos (by simp)] at hlag
      rw [if_pos rfl, if_neg hp, Int.add_zero, show ss.span (u.grow d) = ss.span u from rfl, ← hlag, Term.grow]
      dsimp only
      split <;> omega
    · have hmem : (n, k) ∈ (n, j) :: pending ↔ (n, k) ∈ pending := by simp [Ne.symm hjk]
      simp only [hmem] at hlag
      simpa [hjk] using hlag
  · rw [List.getElem?_set_ne hmn] at hm
    have hmem : (m, k) ∈ (n, j) :: pending ↔ (m, k) ∈ pending := by simp [Ne.symm hmn]
    simpa only [hmem] using h m x hm hx k t hk

theorem spansLag_shiftTerm {ss : Sections Empty} {d : Int} {n j : Nat} {pending : List (Nat × Nat)}
    {s : Relaxation Empty} (h : SpansLag ss d ((n, j) :: pending) s.spans) (hp : (n, j) ∉ pending) :
    SpansLag ss d pending (shiftTerm d s (n, j)).spans := by
  rcases shiftTerm_cases d s n j with ⟨he, hi⟩ | ⟨span, hn, ⟨hs, he⟩ | ⟨hs, -, he⟩ | ⟨hs, -, he⟩⟩ <;> rw [he]
  · intro m x hm hx k t hk
    have hmn : m ≠ n := by
      rintro rfl
      exact hx (hi x hm)
    have hmem : (m, k) ∈ (n, j) :: pending ↔ (m, k) ∈ pending := by simp [hmn]
    simpa only [hmem] using h m x hm hx k t hk
  · exact spansLag_set h hp hn (by simp [hs]) rfl
  · have hlag : SpansLag ss d pending (s.spans.set n { (span.shifted j d).recalc with status := .queued }) :=
      spansLag_set h hp hn (by simp [hs]) rfl
    unfold enqueue
    dsimp only
    split <;> exact hlag
  · exact spansLag_set h hp hn (by simp [hs]) rfl

theorem spansTrack_shift {s : Relaxation Empty} {i : Nat} {d : Int} (hnodup : (s.index.query i i).Nodup)
    (h : SpansLag s.sections d (s.index.query i i) s.spans) : SpansTrack s.sections (s.shift i d).spans := by
  have hfold : ∀ (hits : List (Nat × Nat)) (t : Relaxation Empty), hits.Nodup → SpansLag s.sections d hits t.spans →
      SpansLag s.sections d [] (hits.foldl (shiftTerm d) t).spans := by
    intro hits
    induction hits with
    | nil => exact fun t _ h => h
    | cons hit hits ih =>
      intro t hn h
      rw [List.nodup_cons] at hn
      exact ih _ hn.2 (spansLag_shiftTerm h hn.1)
  exact spansLag_nil_iff.mp (hfold _ s hnodup h)

/-! ## The queues -/

/-- A watched span that is not queued is within its window, and the queues hold each queued span once. -/
structure QueuesHold (s : Relaxation Empty) : Prop where
  active : ∀ (n : Nat) (span : Span), s.spans[n]? = some span → span.status = .active → span.recalc.exceeded = false
  count : ∀ (n : Nat) (span : Span), s.spans[n]? = some span →
    (s.counts ++ s.others).count n = if span.status = .queued then 1 else 0
  lt : ∀ n ∈ s.counts ++ s.others, n < s.spans.length

theorem QueuesHold.setSpan {s : Relaxation Empty} (h : QueuesHold s) {n : Nat} {span span' : Span}
    (hn : s.spans[n]? = some span) (hq : span'.status = .queued ↔ span.status = .queued)
    (ha : span'.status = .active → span'.recalc.exceeded = false) : QueuesHold (s.setSpan n span') := by
  have hlen := (List.getElem?_eq_some_iff.mp hn).1
  refine ⟨fun m x hm hx => ?_, fun m x hm => ?_, fun m hm => ?_⟩
  · by_cases hmn : n = m
    · subst hmn
      obtain rfl := Option.some.inj ((List.getElem?_set_self hlen).symm.trans hm)
      exact ha hx
    · exact h.active m x ((List.getElem?_set_ne hmn).symm.trans hm) hx
  · by_cases hmn : n = m
    · subst hmn
      obtain rfl := Option.some.inj ((List.getElem?_set_self hlen).symm.trans hm)
      simp only [hq]
      exact h.count n span hn
    · exact h.count m x ((List.getElem?_set_ne hmn).symm.trans hm)
  · have := h.lt m hm
    simpa [Relaxation.setSpan] using this

theorem QueuesHold.enqueue {s : Relaxation Empty} (h : QueuesHold s) {n : Nat} {span : Span}
    (hn : s.spans[n]? = some span) (hs : span.status ≠ .queued) (span' : Span) : QueuesHold (s.enqueue n span') := by
  have hlen := (List.getElem?_eq_some_iff.mp hn).1
  have hspans : (s.enqueue n span').spans = s.spans.set n { span' with status := .queued } := by
    unfold Relaxation.enqueue
    dsimp only
    split <;> rfl
  have hqueues : ((s.enqueue n span').counts ++ (s.enqueue n span').others).Perm (n :: (s.counts ++ s.others)) := by
    unfold Relaxation.enqueue
    dsimp only
    split
    · show (s.counts ++ [n] ++ s.others).Perm _
      rw [List.append_assoc]
      exact List.perm_middle
    · show (s.counts ++ (s.others ++ [n])).Perm _
      rw [← List.append_assoc]
      exact List.perm_append_singleton n _
  refine ⟨fun m x hm hx => ?_, fun m x hm => ?_, fun m hm => ?_⟩
  · rw [hspans] at hm
    by_cases hmn : n = m
    · subst hmn
      obtain rfl := Option.some.inj ((List.getElem?_set_self hlen).symm.trans hm)
      exact absurd hx (by simp)
    · exact h.active m x ((List.getElem?_set_ne hmn).symm.trans hm) hx
  · rw [hspans] at hm
    rw [hqueues.count_eq]
    by_cases hmn : n = m
    · subst hmn
      obtain rfl := Option.some.inj ((List.getElem?_set_self hlen).symm.trans hm)
      rw [List.count_cons_self, h.count n span hn, if_neg hs]
      rfl
    · rw [List.count_cons_of_ne hmn]
      exact h.count m x ((List.getElem?_set_ne hmn).symm.trans hm)
  · rw [hspans, List.length_set]
    rcases List.mem_cons.mp (hqueues.mem_iff.mp hm) with rfl | hm
    · exact hlen
    · exact h.lt m hm

theorem queuesHold_shiftTerm {s : Relaxation Empty} (h : QueuesHold s) (d : Int) (hit : Nat × Nat) :
    QueuesHold (shiftTerm d s hit) := by
  obtain ⟨n, j⟩ := hit
  have h' : QueuesHold (s.countRecalcs 1) := ⟨h.active, h.count, h.lt⟩
  rcases shiftTerm_cases d s n j with ⟨he, -⟩ | ⟨span, hn, ⟨hs, he⟩ | ⟨hs, -, he⟩ | ⟨hs, hx, he⟩⟩ <;> rw [he]
  · exact h
  · exact h.setSpan hn Iff.rfl fun ha => absurd (hs.symm.trans ha) (by decide)
  · exact h'.enqueue hn (by simp [hs]) _
  · refine h'.setSpan hn ⟨fun hq => ?_, fun hq => absurd (hs.symm.trans hq) (by decide)⟩ fun _ => ?_
    · rcases (span.shifted j d).recalc_status with hr | hr
      · exact hr.symm.trans hq
      · exact absurd (hr.symm.trans hq) (by decide)
    · rw [Span.recalc_recalc, hx]

theorem queuesHold_shift {s : Relaxation Empty} (h : QueuesHold s) (i : Nat) (d : Int) : QueuesHold (s.shift i d) := by
  unfold shift
  induction s.index.query i i generalizing s with
  | nil => exact h
  | cons hit hits ih => exact ih (queuesHold_shiftTerm h d hit)

/-! ## One fragment -/

theorem spansLag_setFragment {s : Relaxation Empty} (hp : s.plan.Sound) (hi : s.plan.Indexed)
    (h : SpansTrack s.sections s.spans) {r : FragmentRef} {f : Fragment (Tail Empty)}
    (hf : s.sections.fragment? r = some f) (g : Fragment (Tail Empty)) :
    SpansLag (s.sections.setFragment r g) ((g.totalLen : Int) - f.totalLen) (s.index.query f.index f.index)
      s.spans := by
  intro n span hn hs j t hj
  have hanchored := hp.anchored (List.mem_of_getElem? hn) (List.mem_of_getElem? hj)
  have hmem : (n, j) ∈ s.index.query f.index f.index ↔ t.low ≤ f.index ∧ f.index < t.high := by
    rw [show s.index = s.plan.index from rfl, hi.mem]
    constructor
    · rintro ⟨x, u, hx, hu, hlow, hhigh⟩
      obtain rfl : span.outline = x := by simpa [plan, hn] using hx
      obtain rfl : t.outline = u := by simpa [Span.outline, hj] using hu
      exact ⟨hlow, hhigh⟩
    · rintro ⟨hlow, hhigh⟩
      exact ⟨span.outline, t.outline, by simp [plan, hn], by simp [Span.outline, hj], hlow, hhigh⟩
  rw [Sections.span_setFragment hp.order hf rfl g hanchored,
    ← h span (List.mem_of_getElem? hn) hs t (List.mem_of_getElem? hj), Term.change]
  simp only [hmem]
  rfl

theorem spansTrack_setFragment {s : Relaxation Empty} (hp : s.plan.Sound) (h : SpansTrack s.sections s.spans)
    {r : FragmentRef} {f g : Fragment (Tail Empty)} (hf : s.sections.fragment? r = some f)
    (hg : g.totalLen = f.totalLen) : SpansTrack (s.sections.setFragment r g) s.spans := by
  intro span hspan hs t ht
  rw [Sections.span_setFragment hp.order hf rfl g (hp.anchored hspan ht), h span hspan hs t ht, hg, Int.sub_self,
    Term.change]
  split
  · split <;> simp
  · simp

/-- A fragment takes another length, and the terms over it follow. -/
def Growth (s t : Relaxation Empty) : Prop :=
  ∃ r f g, ∃ s' : Relaxation Empty, s.sections.fragment? r = some f ∧ s'.sections = s.sections.setFragment r g ∧
    s'.spans = s.spans ∧ s'.index = s.index ∧
    (t = s'.shift f.index ((g.totalLen : Int) - f.totalLen) ∨ (t = s' ∧ g.totalLen = f.totalLen))

/-- Following the growth of a fragment brings the terms up to date. -/
theorem spansTrack_setFragment_shift {s : Relaxation Empty} (hp : s.plan.Sound) (hi : s.plan.Indexed)
    (h : SpansTrack s.sections s.spans) {r : FragmentRef} {f : Fragment (Tail Empty)}
    (hf : s.sections.fragment? r = some f) (g : Fragment (Tail Empty)) :
    SpansTrack (s.sections.setFragment r g)
      ((s.setFragment r g).shift f.index ((g.totalLen : Int) - f.totalLen)).spans :=
  spansTrack_shift (s := s.setFragment r g) (hi.nodup f.index) (spansLag_setFragment hp hi h hf g)

end Relaxation

end SpanLayout
