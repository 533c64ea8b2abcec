import SpanLayout.Proofs.Refinalize
import SpanLayout.Proofs.Relaxation.FixedPoint
import SpanLayout.Proofs.Relaxation.Swelling

/-!
# Layout is stable

The object that a successful layout leaves is finalized to itself and at rest, so that a second layout finds nothing to
do and writes what the first one wrote.
-/

namespace SpanLayout.Object

variable {o : Object Empty} {diags : Diagnostics}

theorem relax_of_atRest (h : o.sections.AtRest) (hd : diags.hasErrors = false) :
    ∃ stats, o.relax diags = .done (o, diags) stats ∧ stats.expansions = 0 := by
  obtain ⟨s, stats, hrelax, hsections, hdiags, hexpansions⟩ := h.relax o.config hd
  refine ⟨stats, ?_, hexpansions⟩
  unfold relax
  rw [hrelax, ← hdiags]
  dsimp only [Attempt.done, Attempt.mapState]
  rw [hsections]

theorem relax_clean {u : Object Empty} {d : Diagnostics} {stats : Stats} (h : o.relax diags = .done (u, d) stats) :
    d.hasErrors = false := by
  unfold relax at h
  cases hx : o.sections.relax o.config diags with
  | mk t result =>
    rw [hx] at h
    cases h
    obtain ⟨-, -, hlaid, ⟨-, rfl⟩ | ⟨-, -, hend, rfl⟩⟩ := Sections.relax_done hx
    · exact hlaid
    · exact hend

theorem images_of_forall₂ {images : List Image}
    (h : List.Forall₂ (fun s image => o.sectionImage s = .ok image) o.sections images) (diags : Diagnostics) :
    o.images diags = (images, diags) := by
  unfold Object.images
  generalize o.sections = ss at h ⊢
  induction h with
  | nil => rfl
  | @cons s image ss images hs _ ih =>
    obtain ⟨hfilter, hfold⟩ := Prod.mk.inj ih
    dsimp only
    rw [List.map_cons, hs, List.filterMap_cons, List.foldl_cons, hfilter]
    exact congrArg (Prod.mk _) hfold

theorem layout_of_relax {p u : Object Empty} {d d' : Diagnostics} {stats : Stats} {images : List Image}
    (hfinalize : o.finalize (.empty o.config.maxErrors) = (p, d)) (hd : d.hasErrors = false)
    (hrelax : p.relax d = .done (u, d') stats)
    (himages : List.Forall₂ (fun s image => u.sectionImage s = .ok image) u.sections images) :
    o.layout = ⟨u, .ok images, d'⟩ := by
  unfold layout
  rw [hfinalize]
  dsimp only
  rw [Diagnostics.toError?_of_hasErrors hd, hrelax]
  dsimp only [Attempt.done]
  rw [images_of_forall₂ himages, Diagnostics.toResult, Diagnostics.toError?_of_hasErrors (relax_clean hrelax)]

/-- Where no repetition is nested, no count depends on the layout, and sections stay within words, a successful layout
is final: relaxing what it leaves expands nothing and changes nothing, and laying it out again gives the same images. -/
theorem layout_stable (o : Object Empty) (hb : o.Built) (hflat : o.sections.Flat) (hm : o.sections.Modest)
    (hc : (o.finalize (.empty o.config.maxErrors)).1.sections.CountsKnown)
    (hw : (o.finalize (.empty o.config.maxErrors)).1.sections.FitsThroughout o.config
      (o.finalize (.empty o.config.maxErrors)).2)
    {images : List Image} (h : o.layout.result = .ok images) (hsize : ∀ s ∈ o.layout.object.sections, s.size < 2 ^ 62)
    (hfield : ∀ r f, o.layout.object.sections.fragment? r = some f → ∀ p ∈ f.parts, ∀ x, p.tail = some (.leb128 x) →
      ∃ v, x.Means o.layout.object.sections v) :
    (∀ diags, diags.hasErrors = false →
      ∃ stats, o.layout.object.relax diags = .done (o.layout.object, diags) stats ∧ stats.expansions = 0) ∧
    o.layout.object.layout.object = o.layout.object ∧ o.layout.object.layout.result = .ok images := by
  obtain ⟨t, stats, hclean, hrelax, hobject, himages⟩ := layout_ok h
  have hwords := Sections.runsInWords (hb.finalize _).refsMatch (flat_finalize hflat _)
    (Sections.relax_done hrelax).2.2.1 hw
  have hinto :
      o.RelaxesInto (.empty o.config.maxErrors) (o.finalize (.empty o.config.maxErrors)).2 o.layout.object := by
    refine ⟨hb, hflat, hm, hc, hclean, hwords, t.diags, stats, ?_⟩
    unfold relax
    rw [hobject]
    show Attempt.mapState _ ((o.finalize (.empty o.config.maxErrors)).1.sections.relax o.config _) = _
    rw [hrelax]
    rfl
  have hrest := hinto.atRest hsize hfield
  obtain ⟨d, hfinalize, hd⟩ := hinto.finalize (.empty o.layout.object.config.maxErrors)
  obtain ⟨stats', hagain, -⟩ := relax_of_atRest hrest hd
  have hwritten : o.layout.object.sections = t.sections := by
    rw [hobject]
  rw [← hwritten] at himages
  rw [layout_of_relax hfinalize hd hagain himages]
  exact ⟨fun diags hdiags => relax_of_atRest hrest hdiags, rfl, rfl⟩

/-- Whether a tail is a field for another value than `e`. -/
def otherField (e : Expr) : Tail Empty → Bool
  | .leb128 x => decide (x.value ≠ e)
  | _ => false

theorem layout_stable_paddedJumps :
    let p := paddedJumps.finalize (.empty 64)
    paddedJumps.Built ∧ paddedJumps.sections.Flat ∧ paddedJumps.sections.Modest ∧ p.1.sections.CountsKnown ∧
      p.1.sections.FitsThroughout .standard p.2 ∧
      ∃ u d stats images, p.1.relax p.2 = .done (u, d) stats ∧ stats.expansions = 2 ∧
        paddedJumps.layout = ⟨u, .ok images, d⟩ ∧ (∀ s ∈ u.sections, s.size < 2 ^ 62) ∧
        (∀ r f, u.sections.fragment? r = some f → ∀ p ∈ f.parts, ∀ x, p.tail = some (.leb128 x) →
          ∃ v, x.Means u.sections v) ∧
        (∃ stats, u.relax (.empty 64) = .done (u, .empty 64) stats ∧ stats.expansions = 0) ∧
        u.layout.result = .ok images := by
  have hflat : paddedJumps.sections.Flat := by decide +kernel
  have hm : paddedJumps.sections.Modest := by decide +kernel
  have hc : (paddedJumps.finalize (.empty 64)).1.sections.CountsKnown := by decide +kernel
  have hd : (paddedJumps.finalize (.empty 64)).2 = .empty 64 := by decide +kernel
  have hw : (paddedJumps.finalize (.empty 64)).1.sections.FitsThroughout .standard
      (paddedJumps.finalize (.empty 64)).2 := by
    rw [hd]
    refine @Sections.fitsThroughout_of_drainsWithin .standard (.empty 64) _ 4 (by decide +kernel) (by decide +kernel)
      (by decide +kernel) ?_ _
    rw [prepared_paddedJumps]
    decide +kernel
  have hrun := @Sections.relax_of_queued .standard (.empty 64) (paddedJumps.finalize (.empty 64)).1.sections
    (by rw [prepared_paddedJumps]; decide +kernel) (by decide +kernel)
  rw [prepared_paddedJumps] at hrun
  have hrelax : ((paddedJumps.finalize (.empty 64)).1.sections.relax .standard (.empty 64)).result.toOption.map
      (·.expansions) = some 2 := by
    rw [hrun]
    decide +kernel
  obtain ⟨stats, hstats, hexpansions⟩ := Option.map_eq_some_iff.1 hrelax
  obtain ⟨u, d, hdone, hsections⟩ := relax_of_sections (by decide +kernel) hstats
  have hwritten : (u.images (.empty 64)).2.hasErrors = false := by
    unfold Object.images sectionImage
    rw [hsections, hrun]
    decide +kernel
  have hsize : u.sections.all (fun s => s.size < 2 ^ 62) = true := by
    rw [hsections, hrun]
    decide +kernel
  have hplaces : u.sections[0]?.map Section.size = some 512 ∧ u.sections.offset? ⟨⟨0, 8⟩, 0⟩ = some 139 ∧
      u.sections.offset? ⟨⟨0, 3⟩, 0⟩ = some 10 := by
    rw [hsections, hrun]
    decide +kernel
  have hfields : u.sections.all (fun s => s.block.fragments.all fun f => f.parts.all fun p =>
      !p.tail.any (otherField (.sum [.loc ⟨⟨0, 8⟩, 0⟩, .neg (.loc ⟨⟨0, 3⟩, 0⟩)]))) = true := by
    rw [hsections, hrun]
    decide +kernel
  have hlayout : paddedJumps.layout = ⟨u, .ok (u.images (.empty 64)).1, d⟩ :=
    layout_of_relax (show _ = ((paddedJumps.finalize (.empty 64)).1, .empty 64) from Prod.ext rfl hd) rfl hdone
      (images_clean hwritten)
  obtain ⟨hsection, hnear, hhere⟩ := hplaces
  obtain ⟨s, hs, hlen⟩ := Option.map_eq_some_iff.1 hsection
  have hmeans : ∀ r f, u.sections.fragment? r = some f → ∀ p ∈ f.parts, ∀ x, p.tail = some (.leb128 x) →
      ∃ v, x.Means u.sections v := by
    intro r f hf p hp x hx
    obtain ⟨s', hs', hf⟩ := Option.bind_eq_some_iff.1 hf
    have hall := List.all_eq_true.1 (List.all_eq_true.1 (List.all_eq_true.1 hfields s' (List.mem_of_getElem? hs')) f
      (List.mem_of_getElem? hf)) p hp
    have hvalue : x.value = .sum [.loc ⟨⟨0, 8⟩, 0⟩, .neg (.loc ⟨⟨0, 3⟩, 0⟩)] := by
      simpa [hx, otherField] using hall
    exact ⟨_, .difference (a := ⟨⟨0, 8⟩, 0⟩) (b := ⟨⟨0, 3⟩, 0⟩) (c := 0) (s := s) ⟨false, by rw [hvalue]; decide⟩ rfl
      hs hnear (by omega) hhere (by omega) (by decide)⟩
  have hsmall : ∀ s ∈ u.sections, s.size < 2 ^ 62 := fun s hs => of_decide_eq_true (List.all_eq_true.1 hsize s hs)
  have hobject : paddedJumps.layout.object = u := by rw [hlayout]
  have hstable := layout_stable paddedJumps built_paddedJumps hflat hm hc hw (by rw [hlayout])
    (by rw [hobject]; exact hsmall) (by rw [hobject]; exact hmeans)
  rw [hobject] at hstable
  exact ⟨built_paddedJumps, hflat, hm, hc, hw, u, d, stats, _, by rw [hd]; exact hdone, hexpansions, hlayout, hsmall,
    hmeans, hstable.1 (.empty 64) rfl, hstable.2.2⟩

/-- A successful layout is final where no repetition is nested, no count depends on the layout, and the sections are
small in the end. If some branch is longer in its short form than in its long one, then sections may have been larger on
the way, and have to have stayed within words. -/
theorem layout_idempotent (o : Object Empty) (hb : o.Built) (hflat : o.sections.Flat) (hm : o.sections.Modest)
    (hc : (o.finalize (.empty o.config.maxErrors)).1.sections.CountsKnown)
    {images : List Image} (h : o.layout.result = .ok images) (hsize : ∀ s ∈ o.layout.object.sections, s.size < 2 ^ 62)
    (hw : ((o.finalize (.empty o.config.maxErrors)).1.sections.Lengthens ∧
        ∀ l ∈ (o.finalize (.empty o.config.maxErrors)).1.sections.strays, o.layout.object.sections.position l <
        2 ^ 62) ∨
      (o.finalize (.empty o.config.maxErrors)).1.sections.FitsThroughout o.config
        (o.finalize (.empty o.config.maxErrors)).2)
    (hfield : ∀ r f, o.layout.object.sections.fragment? r = some f → ∀ p ∈ f.parts, ∀ x, p.tail = some (.leb128 x) →
      ∃ v, x.Means o.layout.object.sections v) :
    (∀ diags, diags.hasErrors = false →
      ∃ stats, o.layout.object.relax diags = .done (o.layout.object, diags) stats ∧ stats.expansions = 0) ∧
    o.layout.object.layout.object = o.layout.object ∧ o.layout.object.layout.result = .ok images := by
  rcases hw with ⟨hl, hstrays⟩ | hw
  · obtain ⟨t, stats, hclean, hrelax, hobject, -⟩ := layout_ok h
    have hwritten : o.layout.object.sections = t.sections := by
      rw [hobject]
    have hsmall : o.layout.object.sections.Small := by
      refine Sections.small_of_placed (fun s hs => ?_) hsize
      rw [hwritten] at hs
      exact (Sections.relax_writable hrelax hs).1
    rw [hwritten] at hstrays hsmall
    exact layout_stable o hb hflat hm hc (Sections.fitsThroughout_of_lengthens (hb.finalize _).refsMatch
      (steady_finalize hclean) (flat_finalize hflat _) (modest_finalize hm _) hc hl hrelax hsmall hstrays) h
      hsize hfield
  · exact layout_stable o hb hflat hm hc hw h hsize hfield

/-- The jumps are longer in their long form, so that it is enough to see what their layout ends with. -/
theorem layout_idempotent_paddedJumps :
    let p := paddedJumps.finalize (.empty 64)
    paddedJumps.Built ∧ paddedJumps.sections.Flat ∧ paddedJumps.sections.Modest ∧ p.1.sections.CountsKnown ∧
      p.1.sections.Lengthens ∧ p.1.sections.strays = [] ∧
      ∃ u d stats images, p.1.relax p.2 = .done (u, d) stats ∧ stats.expansions = 2 ∧
        paddedJumps.layout = ⟨u, .ok images, d⟩ ∧ (∀ s ∈ u.sections, s.size < 2 ^ 62) ∧
        (∀ r f, u.sections.fragment? r = some f → ∀ p ∈ f.parts, ∀ x, p.tail = some (.leb128 x) →
          ∃ v, x.Means u.sections v) ∧
        (∃ stats, u.relax (.empty 64) = .done (u, .empty 64) stats ∧ stats.expansions = 0) ∧
        u.layout.result = .ok images := by
  obtain ⟨hb, hflat, hm, hc, -, u, d, stats, images, hdone, hexpansions, hlayout, hsize, hfield, -⟩ :=
    layout_stable_paddedJumps
  have hl : (paddedJumps.finalize (.empty 64)).1.sections.Lengthens := by decide +kernel
  have hstrays : (paddedJumps.finalize (.empty 64)).1.sections.strays = [] := by decide +kernel
  have hobject : paddedJumps.layout.object = u := by rw [hlayout]
  have hstable := layout_idempotent paddedJumps hb hflat hm hc (by rw [hlayout]) (by rw [hobject]; exact hsize)
    (.inl ⟨hl, fun l h => absurd (hstrays ▸ h) List.not_mem_nil⟩) (by rw [hobject]; exact hfield)
  rw [hobject] at hstable
  exact ⟨hb, hflat, hm, hc, hl, hstrays, u, d, stats, images, hdone, hexpansions, hlayout, hsize, hfield,
    hstable.1 (.empty 64) rfl, hstable.2.2⟩

end SpanLayout.Object
