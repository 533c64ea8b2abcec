import SpanLayout.Proofs.Interval
import SpanLayout.Proofs.Reshape
import SpanLayout.Relaxation.State

/-!
# What stays while a relaxation runs

Lengths, offsets, windows and values change. Which fragments there are, how they are numbered, which of them follow
their offset, and which distances the spans depend on, does not. This part of a relaxation is its plan. A sound plan
numbers fragments in their order, so that a growth reaches the right terms and the right setters.
-/

namespace SpanLayout

/-- What stays of a term. -/
def Term.outline (t : Term) : Term := { t with length := 0 }

/-- What stays of a span. -/
def Span.outline (s : Span) : Span := ⟨s.seed, s.expr, s.terms.map Term.outline, ⟨0, 0⟩, 0, 0, .active⟩

namespace Span

theorem seed_of_outline {a b : Span} (h : a.outline = b.outline) : a.seed = b.seed := by
  simpa [outline] using congrArg Span.seed h

theorem expr_of_outline {a b : Span} (h : a.outline = b.outline) : a.expr = b.expr := by
  simpa [outline] using congrArg Span.expr h

theorem distances_of_outline {a b : Span} (h : a.outline = b.outline) :
    a.terms.map (·.distance) = b.terms.map (·.distance) := by
  have ht : a.terms.map Term.outline = b.terms.map Term.outline := congrArg Span.terms h
  have hd := congrArg (List.map (·.distance)) ht
  rwa [List.map_map, List.map_map] at hd

end Span

/-- The part of a relaxation that stays. -/
structure Plan where
  frame? : FragmentRef → Option Frame
  base : Nat → Nat
  setters : List FragmentRef
  spans : List Span
  index : IntervalIndex (Nat × Nat)

def Relaxation.plan {κ : Type} [Directive κ] (s : Relaxation κ) : Plan :=
  ⟨s.sections.frame?, s.sections.base, s.setters.map (·.ref), s.spans.map Span.outline, s.index⟩

/-- The ends of a term are fragments of one section, and their numbers are known. -/
structure Term.Anchored (frame? : FragmentRef → Option Frame) (t : Term) : Prop where
  sameSection : t.distance.origin.fragment.sectionIndex = t.distance.target.fragment.sectionIndex
  origin : ∃ a, frame? t.distance.origin.fragment = some a ∧ a.index = t.originIndex
  target : ∃ a, frame? t.distance.target.fragment = some a ∧ a.index = t.targetIndex

/-- A span knows its fragment, which does not follow its offset, and how many setters come before it. -/
structure Seed.Placed (frame? : FragmentRef → Option Frame) (setters : List FragmentRef) (seed : Seed) : Prop where
  frame : ∃ a, frame? seed.ref = some a ∧ a.setsOffset = false ∧ a.index = seed.index
  settersBefore : ∀ (m : Nat) (r : FragmentRef), setters[m]? = some r → (m < seed.settersBefore ↔ r.Before seed.ref)

namespace Plan

/-- Fragments are called by their places and numbered in their order; the setters are the fragments that follow their
offset, in order; spans know their fragments, and terms their ends. -/
structure Sound (p : Plan) : Prop where
  ref : ∀ r a, p.frame? r = some a → a.ref = r
  order : ∀ r r' a a', p.frame? r = some a → p.frame? r' = some a' → (a.index < a'.index ↔ r.Before r')
  sorted : p.setters.Pairwise FragmentRef.Before
  mem_setters : ∀ r, r ∈ p.setters ↔ ∃ a, p.frame? r = some a ∧ a.setsOffset = true
  seeds : ∀ span ∈ p.spans, span.seed.Placed p.frame? p.setters
  terms : ∀ span ∈ p.spans, ∀ t ∈ span.terms, t.Anchored p.frame?

theorem Sound.anchored {s : Relaxation Empty} (h : s.plan.Sound) {span : Span} (hspan : span ∈ s.spans) {t : Term}
    (ht : t ∈ span.terms) : t.Anchored s.sections.frame? := by
  obtain ⟨hsec, horigin, htarget⟩ := h.terms _ (List.mem_map_of_mem hspan) _ (List.mem_map_of_mem ht)
  exact ⟨hsec, horigin, htarget⟩

theorem Sound.not_mem_setters {s : Relaxation Empty} (h : s.plan.Sound) {r : FragmentRef} {f : Fragment (Tail Empty)}
    (hf : s.sections.fragment? r = some f) (hs : f.setsOffset = false) : r ∉ s.plan.setters := by
  intro hr
  obtain ⟨a, ha, hset⟩ := (h.mem_setters r).mp hr
  simp only [Relaxation.plan, Sections.frame?, hf, Option.map_some, Option.some.injEq] at ha
  subst ha
  exact absurd (hs.symm.trans hset) (by decide)

theorem Sound.before_of_lt {s : Relaxation Empty} (h : s.plan.Sound) {m m' : Nat} {x x' : Setter}
    (hx : s.setters[m]? = some x) (hx' : s.setters[m']? = some x') (hlt : m < m') : x.ref.Before x'.ref := by
  obtain ⟨hm, rfl⟩ := List.getElem?_eq_some_iff.mp hx
  obtain ⟨hm', rfl⟩ := List.getElem?_eq_some_iff.mp hx'
  have := List.pairwise_iff_getElem.mp h.sorted m m' (by simpa [Relaxation.plan] using hm)
    (by simpa [Relaxation.plan] using hm') hlt
  simpa [Relaxation.plan] using this

/-- The index finds every term that extends over a fragment, once. -/
structure Indexed (p : Plan) : Prop where
  nodup : ∀ i, (p.index.query i i).Nodup
  mem : ∀ i n j, (n, j) ∈ p.index.query i i ↔
    ∃ span t, p.spans[n]? = some span ∧ span.terms[j]? = some t ∧ t.low ≤ i ∧ i < t.high

end Plan

/-! ## Growth and distances -/

/-- By how much a term changes if fragment number `i` grows by `d`. -/
def Term.change (i : Nat) (d : Int) (t : Term) : Int :=
  if t.low ≤ i ∧ i < t.high then if t.originIndex < t.targetIndex then d else -d else 0

/-- The length of the distance of a term, given the lengths of the fragments. -/
def Sections.span {κ : Type} (ss : Sections κ) (t : Term) : Int :=
  (ss.position t.distance.target : Int) - ss.position t.distance.origin

theorem Sections.span_setFragment {ss : Sections Empty} {r : FragmentRef} {f : Fragment (Tail Empty)} {a : Frame}
    (order : ∀ r r' a a', ss.frame? r = some a → ss.frame? r' = some a' → (a.index < a'.index ↔ r.Before r'))
    (hf : ss.fragment? r = some f) (ha : f.frame = a) (g : Fragment (Tail Empty)) {t : Term}
    (ht : t.Anchored ss.frame?) :
    (ss.setFragment r g).span t = ss.span t + t.change a.index ((g.totalLen : Int) - f.totalLen) := by
  obtain ⟨hsec, ⟨o, ho, hoi⟩, ⟨p, hp, hpi⟩⟩ := ht
  have hr : ss.frame? r = some a := by rw [frame?, hf, Option.map_some, ha]
  have hro := order _ _ _ _ hr ho
  have hor := order _ _ _ _ ho hr
  have hrp := order _ _ _ _ hr hp
  have hpr := order _ _ _ _ hp hr
  have hop := order _ _ _ _ ho hp
  rw [hoi] at hro hor hop
  rw [hpi] at hrp hpr hop
  have hbo := begins_setFragment hf g t.distance.origin.fragment
  have hbp := begins_setFragment hf g t.distance.target.fragment
  simp only [FragmentRef.Before] at hro hor hrp hpr hop
  simp only [Sections.span, position, Term.change, Term.low, Term.high]
  split_ifs at hbo hbp ⊢ <;> omega

end SpanLayout
