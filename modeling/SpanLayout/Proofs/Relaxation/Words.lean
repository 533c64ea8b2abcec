import SpanLayout.Proofs.Expr.Mentions
import SpanLayout.Proofs.Relaxation.Awaits
import SpanLayout.Proofs.Relaxation.Upkeep
import SpanLayout.Proofs.Tail.Parts

/-!
# Relaxations within words

Offsets are natural numbers and distances are words. The two agree as long as sections are smaller than `2 ^ 63`. A
location among the bytes of a fragment is then in reach too; the others that tails mention, which no label names, have
to be asked for one by one. -/

namespace SpanLayout

/-! ## What tails mention -/

/-- The locations that the value or the count of a tail mentions. -/
def Tail.locs : Tail Empty → List Location
  | .leb128 f => f.value.locs
  | .branch b => (b.value.bind (·.abs)).elim [] Expr.locs
  | .times count _ _ => count.locs
  | _ => []

/-- The locations that a fragment mentions. What the body of a repetition says about the repetition itself is not among
them: each copy means itself by it. -/
def Fragment.mentions (f : Fragment (Tail Empty)) : List Location :=
  f.tail.elim [] fun
    | .times count body _ =>
      count.locs ++ body.fragments.flatMap fun g => (g.tail.elim [] Tail.locs).filter (·.fragment ≠ f.ref)
    | t => t.locs

namespace Fragment

variable {f g : Fragment (Tail Empty)} {q : SpanRequest} {e : Expr} {l : Location}

theorem locs_own (hq : q ∈ g.own) (he : q.value.abs = some e) : g.tail.elim [] Tail.locs = e.locs := by
  unfold own at hq
  cases ht : g.tail with
  | none =>
    rw [ht] at hq
    cases hq
  | some t =>
    rw [ht] at hq
    show t.locs = e.locs
    cases t with
    | leb128 x =>
      simp only [Option.elim_some, Tail.own, Leb128.Field.measure] at hq
      split at hq
      · cases hq
      · rw [List.mem_singleton.mp hq] at he
        exact congrArg Expr.locs (Option.some.inj he)
    | branch b =>
      simp only [Option.elim_some, Tail.own, Branch.measure, Attempt.done] at hq
      split at hq
      · rename_i s v _ hv
        rw [List.mem_singleton.mp hq] at he
        rw [Tail.locs, hv, Option.bind_some, show v.abs = some e from he]
        rfl
      · cases hq
    | gap _ | align _ | origin _ | times _ _ _ | other _ => cases hq

theorem locs_relay {owner : FragmentInfo} {slot : Nat} {p : SpanRequest} (hq : q ∈ Repetition.relay owner slot p)
    (he : q.value.abs = some e) (hl : l ∈ e.locs) :
    ∃ e', p.value.abs = some e' ∧ (l ∈ e'.locs.filter (·.fragment ≠ owner.ref) ∨ l = owner.tailLoc ∨
      l = ⟨⟨owner.ref.sectionIndex, owner.ref.index + 1⟩, 0⟩) := by
  -- Renaming sends every location of the repetition to one of its ends.
  have hrenamed : ∀ (anchor : Location),
      (p.value.mapLoc fun l => if l.fragment = owner.ref then anchor else l).abs = some e →
        ∃ e', p.value.abs = some e' ∧ (l ∈ e'.locs.filter (·.fragment ≠ owner.ref) ∨ l = anchor) := by
    intro anchor hx
    obtain ⟨e', he', rfl⟩ := Option.map_eq_some_iff.mp hx
    refine ⟨e', he', ?_⟩
    have hl := Expr.locs_simplify _ hl
    rw [Expr.locs_mapLoc] at hl
    obtain ⟨l', hl', rfl⟩ := List.mem_map.mp hl
    split
    · exact .inr rfl
    · rename_i hne
      exact .inl (List.mem_filter.mpr ⟨hl', by simpa using hne⟩)
  unfold Repetition.relay at hq
  dsimp only at hq
  split at hq
  · rename_i hsame
    rw [List.mem_singleton.mp hq] at he
    obtain ⟨e', he', h⟩ := hrenamed _ (hsame ▸ he)
    exact ⟨e', he', h.imp_right .inr⟩
  · rcases List.mem_cons.mp hq with rfl | hq
    · obtain ⟨e', he', h⟩ := hrenamed _ he
      exact ⟨e', he', h.imp_right .inl⟩
    · rw [List.mem_singleton.mp hq] at he
      obtain ⟨e', he', h⟩ := hrenamed _ he
      exact ⟨e', he', h.imp_right .inr⟩

theorem locs_requests (hf : f.flat = true) (hq : q ∈ f.requests ++ f.countRequests) (he : q.value.abs = some e)
    (hl : l ∈ e.locs) :
    l ∈ f.mentions ∨ l = f.info.tailLoc ∨ l = ⟨⟨f.ref.sectionIndex, f.ref.index + 1⟩, 0⟩ := by
  rcases List.mem_append.mp hq with hq | hq
  · rcases (flat_iff f).1 hf with hp | ⟨count, body, reps, ht, -⟩
    · rw [requests_of_plain hp] at hq
      refine .inl ?_
      rw [← locs_own hq he] at hl
      unfold mentions
      cases ht : f.tail with
      | none =>
        rw [ht] at hl
        cases hl
      | some t =>
        rw [ht] at hl hp
        cases t with
        | times _ _ _ => cases hp
        | gap _ | align _ | origin _ | leb128 _ | branch _ | other _ => exact hl
    · rw [requests_of_some ht] at hq
      obtain ⟨slot, g, p, hg, hp, hrelay⟩ := mem_bodyRequests.mp hq
      obtain ⟨e', he', h | h⟩ := locs_relay hrelay he hl
      · refine .inl ?_
        unfold mentions
        rw [ht]
        refine List.mem_append_right _ (List.mem_flatMap.mpr ⟨g, List.mem_of_getElem? hg, ?_⟩)
        rw [locs_own hp he']
        exact h
      · exact .inr h
  · obtain ⟨t, ht, hcount⟩ := exists_of_mem_countRequests hq
    obtain ⟨count, body, reps, rfl, -, rfl⟩ := Tail.mem_countRequests hcount
    rw [← Option.some.inj he] at hl
    refine .inl ?_
    unfold mentions
    rw [ht]
    exact List.mem_append_left _ hl

end Fragment

/-! ## Where spans come from -/

/-- The terms of a span are distances of the value it was asked for. -/
def Span.Derived (span : Span) : Prop :=
  ∀ t ∈ span.terms, ∃ e, span.seed.request.value.abs = some e ∧ t.distance ∈ e.distances.2

theorem Span.derived_outline {a b : Span} (h : a.outline = b.outline) (ha : a.Derived) : b.Derived := by
  intro t ht
  have hmem : t.distance ∈ a.terms.map (·.distance) := by
    rw [distances_of_outline h]
    exact List.mem_map_of_mem ht
  obtain ⟨u, hu, hd⟩ := List.mem_map.mp hmem
  rw [← seed_of_outline h, ← hd]
  exact ha u hu

theorem Span.derived_ofSeed {ss : Sections Empty} {seed : Seed} {span : Span} (h : ofSeed ss seed = .ok span) :
    span.Derived := by
  obtain ⟨hseed, -, -, -, -, hterms⟩ := ofSeed_ok h
  intro t ht
  obtain ⟨d, hd, hm⟩ := exists_of_forall₂_right hterms ht
  rw [hseed, (measureTerm_ok hm).1]
  cases he : seed.request.value.abs with
  | none =>
    rw [he] at hd
    cases hd
  | some e =>
    rw [he] at hd
    exact ⟨e, rfl, hd⟩

namespace Sections

variable {config : Config} {diags : Diagnostics} {ss : Sections Empty}

theorem derived_watched (hr : ss.RefsMatch) (hd : (ss.watched config diags).diags.hasErrors = false) :
    ∀ span ∈ (ss.watched config diags).spans,
      span.seed ∈ (Relaxation.surveySections 0 0 diags ss).seeds ∧ span.Derived := by
  obtain ⟨hds, -, -⟩ := watching_watched hr hd
  have hnone : (ss.surveyed config diags).spans = [] := rfl
  refine (Relaxation.Watching.induct (P := fun seeds s =>
      (∀ span ∈ s.spans, span.seed ∈ (Relaxation.surveySections 0 0 diags ss).seeds ∧ span.Derived) ∧
        ∀ seed ∈ seeds, seed ∈ (Relaxation.surveySections 0 0 diags ss).seeds)
    (watching_surveyed hr hds) (fun seed hseed => placed_surveyed hr hds hseed) hd
    ⟨by simp [hnone], fun _ h => h⟩ ?_).1
  rintro seed seeds s f hf - hd - ⟨h, hall⟩
  refine ⟨?_, fun x hx => hall x (List.mem_cons_of_mem seed hx)⟩
  obtain ⟨span, ho, hcases⟩ := Relaxation.watch_cases hf hd
  -- Whatever is added has the terms and the seed that were measured.
  have hnew : ∀ x : Span, x.outline = span.outline →
      x.seed ∈ (Relaxation.surveySections 0 0 diags ss).seeds ∧ x.Derived := by
    intro x hx
    rw [Span.seed_of_outline hx, (Span.ofSeed_ok ho).1]
    exact ⟨hall seed List.mem_cons_self, Span.derived_outline hx.symm (Span.derived_ofSeed ho)⟩
  intro x hx
  rcases hcases with ⟨-, he⟩ | ⟨y, -, -, -, he⟩ <;> rw [he] at hx <;> rcases List.mem_append.mp hx with hx | hx
  · exact h x hx
  · rw [List.mem_singleton.mp hx]
    exact hnew _ rfl
  · exact h x hx
  · obtain ⟨window, -, rfl⟩ := List.mem_map.mp hx
    exact hnew _ rfl

/-! ## Locations among the bytes of fragments -/

/-- The locations that tails mention. -/
def mentions (ss : Sections Empty) : List Location :=
  ss.flatMap fun s => s.block.fragments.flatMap Fragment.mentions

/-- Whether a location lies among the fixed bytes of its fragment or just past them, as every label does. -/
def holds (ss : Sections Empty) (l : Location) : Bool :=
  (ss.fragment? l.fragment).any fun f => decide (l.offset ≤ f.fixedLen)

/-- The locations that tails mention although no label could name them. -/
def strays (ss : Sections Empty) : List Location := ss.mentions.filter fun l => !ss.holds l

theorem mem_mentions {r : FragmentRef} {f : Fragment (Tail Empty)} (hf : ss.fragment? r = some f) {l : Location}
    (hl : l ∈ f.mentions) : l ∈ ss.mentions := by
  obtain ⟨s, hs, hi⟩ := Option.bind_eq_some_iff.mp hf
  exact List.mem_flatMap.mpr ⟨s, List.mem_of_getElem? hs, List.mem_flatMap.mpr ⟨f, List.mem_of_getElem? hi, hl⟩⟩

/-- What a relaxation measures lies among the bytes of fragments, or tails mention it. -/
theorem measured_watched (hr : ss.RefsMatch) (hflat : ss.Flat) (hd : (ss.watched config diags).diags.hasErrors = false)
    {l : Location} (hl : l ∈ (ss.watched config diags).measured) : ss.holds l = true ∨ l ∈ ss.strays := by
  by_cases hheld : ss.holds l = true
  · exact .inl hheld
  refine .inr (List.mem_filter.mpr ⟨?_, by simpa using hheld⟩)
  obtain ⟨hds, hwatching, hsame⟩ := watching_watched hr hd
  obtain ⟨span, hspan, hl⟩ := List.mem_flatMap.mp hl
  obtain ⟨t, ht, hl⟩ := List.mem_flatMap.mp hl
  obtain ⟨hseed, hderived⟩ := derived_watched hr hd span hspan
  obtain ⟨e, he, hdist⟩ := hderived t ht
  obtain ⟨horigin, htarget⟩ := Expr.mem_distances hdist
  have hlocs : l ∈ e.locs := by
    rcases List.mem_cons.mp hl with rfl | hl
    · exact horigin
    · rw [List.mem_singleton.mp hl]
      exact htarget
  -- A measured location belongs to a fragment.
  have hframe : ∃ a, ss.frame? l.fragment = some a := by
    have hanchored := hwatching.sound.anchored hspan ht
    rw [hsame.frame?, show (ss.surveyed config diags).sections =
      (Relaxation.surveySections 0 0 diags ss).measured from rfl] at hanchored
    have hmap : ∀ r, (∃ a, frame? (Relaxation.surveySections 0 0 diags ss).measured r = some a) →
        ∃ a, ss.frame? r = some a := by
      rintro r ⟨a, ha⟩
      rw [Relaxation.frame?_surveySections hds] at ha
      obtain ⟨b, hb, -⟩ := Option.map_eq_some_iff.mp ha
      exact ⟨b, hb⟩
    rcases List.mem_cons.mp hl with rfl | hl
    · obtain ⟨a, ha, -⟩ := hanchored.origin
      exact hmap _ ⟨a, ha⟩
    · rw [List.mem_singleton.mp hl]
      obtain ⟨a, ha, -⟩ := hanchored.target
      exact hmap _ ⟨a, ha⟩
  obtain ⟨r, f, g, requests, hf, -, hm, hq, -⟩ := Relaxation.mem_seeds_surveySections hds hseed
  rw [(hm.requests (hflat r f hf)).2] at hq
  rcases Fragment.locs_requests (hflat r f hf) hq he hlocs with h | rfl | rfl
  · exact mem_mentions hf h
  · refine absurd ?_ hheld
    simp [holds, FragmentInfo.tailLoc, Fragment.info, hr r f hf, hf]
  · refine absurd ?_ hheld
    obtain ⟨a, ha⟩ := hframe
    obtain ⟨g, hg, -⟩ := exists_fragment_of_frame? ha
    simp [holds, hg]

theorem position_le_length {l : Location} {f : Fragment (Tail Empty)} (hf : ss.fragment? l.fragment = some f)
    (hl : l.offset ≤ f.fixedLen) : ss.position l ≤ ss.length l.fragment.sectionIndex := by
  have := begins_add_totalLen_le hf
  unfold position
  unfold Fragment.totalLen at this
  omega

theorem InWords.of_strays {tt : Sections Empty} (hfixed : ∀ r f, ss.fragment? r = some f →
      ∃ g, tt.fragment? r = some g ∧ g.fixedLen = f.fixedLen) (hw : tt.InWords ss.strays) {locations : List Location}
    (hl : ∀ l ∈ locations, ss.holds l = true ∨ l ∈ ss.strays) : tt.InWords locations := by
  refine ⟨hw.lengths, fun l hmem => ?_⟩
  rcases hl l hmem with h | h
  · cases hf : ss.fragment? l.fragment with
    | none => simp [holds, hf] at h
    | some f =>
      obtain ⟨g, hg, hlen⟩ := hfixed _ f hf
      have hle : l.offset ≤ f.fixedLen := by simpa [holds, hf] using h
      exact Nat.lt_of_le_of_lt (position_le_length hg (hlen ▸ hle)) (hw.lengths _)
  · exact hw.positions l h

/-! ## Throughout a relaxation -/

/-- The layouts that a relaxation passes through: that of the smallest forms, that of the first expansions, those of the
run, and those within a step of the run, while the fragments behind an expansion move one by one. -/
inductive Passes (config : Config) (diags : Diagnostics) (ss : Sections Empty) : Sections Empty → Prop
  | surveyed : Passes config diags ss (ss.surveyed config diags).sections
  | laid : Passes config diags ss (ss.watched config diags).lay.sections
  | draining {s : Relaxation Empty} (h : (ss.prepared config diags).Draining s) : Passes config diags ss s.sections
  | moving {s t : Relaxation Empty} (h : (ss.prepared config diags).Draining s) (hs : s.Steps t) (i : Nat) :
    Passes config diags ss (mixed s.sections t.sections i)

/-- In all layouts that a relaxation passes through, sections are smaller than `2 ^ 63`, and so are the offsets of the
strays. -/
def FitsThroughout (config : Config) (diags : Diagnostics) (ss : Sections Empty) : Prop :=
  ∀ tt, ss.Passes config diags tt → tt.InWords ss.strays

/-- What a relaxation measures stays below `2 ^ 63` in all layouts that it passes through. -/
structure RunsInWords (config : Config) (diags : Diagnostics) (ss : Sections Empty) : Prop where
  surveyed : (ss.surveyed config diags).sections.InWords (ss.watched config diags).measured
  laid : (ss.watched config diags).lay.sections.InWords (ss.watched config diags).measured
  draining : ∀ s, (ss.prepared config diags).Draining s → s.sections.InWords (ss.watched config diags).measured
  moving : ∀ s t, (ss.prepared config diags).Draining s → s.Steps t →
    ∀ i, (mixed s.sections t.sections i).InWords (ss.watched config diags).measured

theorem RunsInWords.stays (h : ss.RunsInWords config diags) : ss.StaysInWords config diags :=
  ⟨h.surveyed, h.laid, fun s hs _ => h.draining s hs⟩

theorem map_frame_fragmentsOf (ss : Sections Empty) (k i : Nat) :
    ((ss.fragmentsOf k).map Fragment.frame)[i]? = ss.frame? ⟨k, i⟩ := by
  rw [frame?, fragment?_eq, List.getElem?_map]

theorem frame?_mixed {a z : Sections Empty} (h : z.frame? = a.frame?) (i : Nat) : (mixed a z i).frame? = a.frame? := by
  funext r
  have hframes : ((mixed a z i).fragmentsOf r.sectionIndex).map Fragment.frame =
      (a.fragmentsOf r.sectionIndex).map Fragment.frame := by
    have hza : (z.fragmentsOf r.sectionIndex).map Fragment.frame =
        (a.fragmentsOf r.sectionIndex).map Fragment.frame := by
      apply List.ext_getElem?
      intro j
      rw [map_frame_fragmentsOf, map_frame_fragmentsOf, h]
    rw [fragmentsOf_mixed]
    split
    · rw [List.map_append, List.map_take, List.map_drop, hza, List.take_append_drop]
    · rename_i hk
      rw [fragmentsOf, List.getElem?_eq_none (by omega)]
      rfl
  rw [← map_frame_fragmentsOf, hframes, map_frame_fragmentsOf]

theorem fixedLen_of_frame? {tt uu : Sections Empty} (h : uu.frame? = tt.frame?)
    (hfixed : ∀ r f, ss.fragment? r = some f → ∃ g, tt.fragment? r = some g ∧ g.fixedLen = f.fixedLen) :
    ∀ r f, ss.fragment? r = some f → ∃ g, uu.fragment? r = some g ∧ g.fixedLen = f.fixedLen := by
  intro r f hf
  obtain ⟨g, hg, hlen⟩ := hfixed r f hf
  have hframe : uu.frame? r = some g.frame := by rw [h, frame?, hg, Option.map_some]
  obtain ⟨u, hu, hframe⟩ := exists_fragment_of_frame? hframe
  refine ⟨u, hu, ?_⟩
  rw [← hlen]
  exact congrArg (fun a => a.fixed.length) hframe

theorem fixedLen_surveyed (hd : (ss.surveyed config diags).diags.hasErrors = false) (r : FragmentRef)
    (f : Fragment (Tail Empty)) (hf : ss.fragment? r = some f) :
    ∃ g, (ss.surveyed config diags).sections.fragment? r = some g ∧ g.fixedLen = f.fixedLen := by
  have hframe := Relaxation.frame?_surveySections hd r
  rw [show ss.frame? r = some f.frame by rw [frame?, hf, Option.map_some], Option.map_some] at hframe
  obtain ⟨g, hg, he⟩ := exists_fragment_of_frame? hframe
  exact ⟨g, hg, congrArg (fun a => a.fixed.length) he⟩

theorem frame?_prepared (hr : ss.RefsMatch) (hd : (ss.rechecked config diags).diags.hasErrors = false)
    (hb : ∀ k, (ss.watched config diags).lay.sections.length k < 9223372036854775808) :
    (ss.watched config diags).lay.sections.frame? = (ss.surveyed config diags).sections.frame? ∧
      (ss.prepared config diags).sections.frame? = (ss.surveyed config diags).sections.frame? := by
  obtain ⟨-, -, hsame⟩ := watching_watched hr (hasErrors_watched hd)
  have hlaid : (ss.watched config diags).lay.sections.frame? = (ss.surveyed config diags).sections.frame? :=
    (frame?_lay hd hb).trans hsame.frame?
  refine ⟨hlaid, ?_⟩
  obtain ⟨d, he, -⟩ := (ss.rechecked config diags).prepare_eq
  rw [← hlaid, prepared, he]
  rfl

/-- If the sizes of the sections stay below `2 ^ 63`, and so do the strays, then so does what the relaxation measures.
-/
theorem runsInWords (hr : ss.RefsMatch) (hflat : ss.Flat) (hd : (ss.rechecked config diags).diags.hasErrors = false)
    (hw : ss.FitsThroughout config diags) : ss.RunsInWords config diags := by
  have hdw := hasErrors_watched hd
  obtain ⟨hds, -, -⟩ := watching_watched hr hdw
  have hheld : ∀ l ∈ (ss.watched config diags).measured, ss.holds l = true ∨ l ∈ ss.strays :=
    fun l hl => measured_watched hr hflat hdw hl
  have hsurveyed := @fixedLen_surveyed config diags ss hds
  obtain ⟨hlaid, hprepared⟩ := frame?_prepared hr hd (hw _ .laid).lengths
  have hlaidWords : (ss.watched config diags).lay.sections.InWords (ss.watched config diags).measured :=
    InWords.of_strays (fixedLen_of_frame? hlaid hsurveyed) (hw _ .laid) hheld
  have hupheld := (consistent_prepared hr hlaidWords hd).1.upheld
  have hdraining : ∀ s, (ss.prepared config diags).Draining s →
      s.sections.frame? = (ss.surveyed config diags).sections.frame? := by
    intro s hs
    obtain ⟨-, hplan, -⟩ := hs.upheld hupheld fun t ht => (hw _ (.draining ht)).lengths
    rw [← hprepared]
    exact congrArg Plan.frame? hplan
  refine ⟨InWords.of_strays hsurveyed (hw _ .surveyed) hheld, hlaidWords, fun s hs => ?_, fun s t hs hst i => ?_⟩
  · exact InWords.of_strays (fixedLen_of_frame? (hdraining s hs) hsurveyed) (hw _ (.draining hs)) hheld
  · have hmixed := frame?_mixed ((hdraining t (hs.step hst)).trans (hdraining s hs).symm) i
    exact InWords.of_strays (fixedLen_of_frame? (hmixed.trans (hdraining s hs)) hsurveyed)
      (hw _ (.moving hs hst i)) hheld

/-! ## Small layouts -/

/-- All sections are smaller than `2 ^ 62`. -/
def Small (ss : Sections Empty) : Prop := ∀ k, ss.length k < 2 ^ 62

theorem small_iff (ss : Sections Empty) : (∀ k < List.length ss, ss.length k < 2 ^ 62) ↔ ss.Small := by
  refine ⟨fun h k => ?_, fun h k _ => h k⟩
  by_cases hk : k < List.length ss
  · exact h k hk
  · rw [length, fragmentsOf, List.getElem?_eq_none (by omega)]
    decide

instance (ss : Sections Empty) : Decidable ss.Small := decidable_of_iff _ ss.small_iff

theorem Small.inWords {tt : Sections Empty} (h : tt.Small) : tt.InWords [] :=
  ⟨fun k => Nat.lt_trans (h k) (by decide), fun _ hl => by cases hl⟩

theorem length_mixed_le (a z : Sections Empty) (i k : Nat) : (mixed a z i).length k ≤ a.length k + z.length k := by
  -- Halfway between two layouts, a section is not larger than both together.
  unfold length
  rw [fragmentsOf_mixed]
  split
  · have hz := Fragment.sumLen_take_le (z.fragmentsOf k) i
    have ha : Fragment.sumLen (a.fragmentsOf k) =
        Fragment.sumLen ((a.fragmentsOf k).take i) + Fragment.sumLen ((a.fragmentsOf k).drop i) := by
      rw [← Fragment.sumLen_append, List.take_append_drop]
    rw [Fragment.sumLen_append]
    omega
  · exact Nat.zero_le _

/-- A relaxation whose layouts are all small stays within words, if all locations are among the bytes of fragments. -/
theorem fitsThroughout_of_small (hs : ss.strays = []) (hsurveyed : (ss.surveyed config diags).sections.Small)
    (hlaid : (ss.watched config diags).lay.sections.Small)
    (hdraining : ∀ s, (ss.prepared config diags).Draining s → s.sections.Small) : ss.FitsThroughout config diags := by
  intro tt htt
  rw [hs]
  cases htt with
  | surveyed => exact hsurveyed.inWords
  | laid => exact hlaid.inWords
  | draining h => exact (hdraining _ h).inWords
  | @moving s t h hst i =>
    refine ⟨fun k => ?_, fun _ hl => by cases hl⟩
    have hle := length_mixed_le s.sections t.sections i k
    have ha := hdraining _ h k
    have hz := hdraining _ (h.step hst) k
    omega

end Sections

end SpanLayout
