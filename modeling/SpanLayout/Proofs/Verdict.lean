import SpanLayout.Proofs.Provenance
import SpanLayout.Proofs.Relaxation.Sinks
import SpanLayout.Proofs.Tail.Deeply

/-!
# The verdict on an object

What the phases of a layout report is one list of errors, whatever the limit on them. The limit decides only how many of
them are kept; the others are counted. The layout fails exactly if the list is not empty, and its error is that list,
cut off at the limit. -/

namespace SpanLayout

/-! ## The error of a sink -/

namespace Diagnostics

theorem summary_tell (limit : Nat) (a : Account) :
    ((empty limit).tell a).summary = (a.causes.take limit).map .one ++
      if limit < a.causes.length then [.one (.suppressed (a.causes.length - limit))] else [] := by
  unfold summary tell empty
  simp only [List.nil_append, List.length_nil, Nat.sub_zero, Nat.zero_add]
  by_cases h : limit < a.causes.length
  · rw [if_pos (by omega), if_pos h]
  · rw [if_neg (by omega), if_neg h, List.append_nil]

theorem parts_of_toError? {d : Diagnostics} (hone : ∀ e ∈ d.summary, ∃ c : Cause, e = .one c) {e : Error}
    (h : d.toError? = some e) : e.parts = d.summary := by
  unfold toError? at h
  split at h
  · cases h
  · rename_i e' hs
    cases h
    obtain ⟨c, rfl⟩ := hone e (by rw [hs]; exact List.mem_singleton_self e)
    exact hs.symm
  · cases h
    rfl

theorem one_of_mem_summary_tell {limit : Nat} {a : Account} {e : Error} (h : e ∈ ((empty limit).tell a).summary) :
    ∃ c : Cause, e = .one c := by
  rw [summary_tell] at h
  rcases List.mem_append.1 h with h | h
  · obtain ⟨c, -, rfl⟩ := List.mem_map.1 h
    exact ⟨c, rfl⟩
  · split at h
    · exact ⟨_, List.mem_singleton.1 h⟩
    · cases h

end Diagnostics

/-! ## Layouts -/

namespace Object

/-- The object with another limit on the errors that are kept. -/
def keeping (o : Object Empty) (limit : Nat) : Object Empty :=
  { o with config := { o.config with maxErrors := limit } }

/-- What finalizing, relaxing and writing report to a sink, each of them only if nothing was reported before it. -/
def reportTo (o : Object Empty) (d : Diagnostics) : Diagnostics :=
  let finalized := o.finalize d
  if finalized.2.hasErrors then finalized.2
  else
    let relaxed := (finalized.1.relax finalized.2).state
    if relaxed.2.hasErrors then relaxed.2 else (relaxed.1.images relaxed.2).2

/-- All errors that finalizing, relaxing and writing report, in order: a sink that keeps none tells how many there are.
-/
def reported (o : Object Empty) : List Error := (o.reportTo (.empty (o.reportTo (.empty 0)).dropped)).errors

theorem images_tells (o : Object Empty) : ∃ images a, ∀ d, o.images d = (images, d.tell a) := by
  have htells : ∀ results : List (Except Error Image), (∀ r ∈ results, OneCause r) →
      ∃ a, ∀ d, results.foldl Diagnostics.reportFailure d = d.tell a := by
    intro results hone
    induction results with
    | nil => exact ⟨.silent, fun d => d.tell_silent.symm⟩
    | cons r results ih =>
      obtain ⟨b, hb⟩ := Diagnostics.reportFailure_tells (hone r List.mem_cons_self)
      obtain ⟨c, ih⟩ := ih fun r hr => hone r (List.mem_cons_of_mem _ hr)
      refine ⟨b.andThen c, fun d => ?_⟩
      rw [List.foldl_cons, hb, ih, d.tell_tell]
  obtain ⟨a, ha⟩ := htells (o.sections.map o.sectionImage) fun r hr => by
    obtain ⟨s, -, rfl⟩ := List.mem_map.1 hr
    exact o.failsOnly_sectionImage (fun c => ⟨c, rfl⟩) nofun s
  exact ⟨(o.sections.map o.sectionImage).filterMap Except.toOption, a,
    fun d => congrArg (Prod.mk ((o.sections.map o.sectionImage).filterMap Except.toOption)) (ha d)⟩

/-- A layout does the same whatever the limit on errors, and reports what its phases report. -/
theorem layout_tells (o : Object Empty) :
    ∃ (ss : Sections Empty) (images : List Image) (a : Account), ∀ limit,
      o.reportTo (.empty limit) = (Diagnostics.empty limit).tell a ∧
      (o.keeping limit).layout = ⟨⟨ss, o.symbols, { o.config with maxErrors := limit }⟩,
        ((Diagnostics.empty limit).tell a).toResult images, (Diagnostics.empty limit).tell a⟩ := by
  obtain ⟨ss, a, hfinalize⟩ := finalizeSections_tells o.symbols o.sections
  have hfin (d : Diagnostics) : o.finalize d = (⟨ss, o.symbols, o.config⟩, d.tell a) := by
    unfold finalize
    rw [hfinalize]
  have hfin' (limit : Nat) : (o.keeping limit).finalize (.empty limit) =
      (⟨ss, o.symbols, { o.config with maxErrors := limit }⟩, (Diagnostics.empty limit).tell a) := by
    unfold finalize
    rw [show (o.keeping limit).sections = o.sections from rfl, show (o.keeping limit).symbols = o.symbols from rfl,
      hfinalize]
    rfl
  unfold layout reportTo
  simp only [show ∀ limit, (o.keeping limit).config.maxErrors = limit from fun _ => rfl, hfin, hfin']
  obtain hclean | hfailed := Diagnostics.tell_cases a
  · simp only [fun limit => Diagnostics.toError?_of_hasErrors (hclean (.empty limit) rfl),
      fun limit => hclean (.empty limit) rfl]
    obtain ⟨t, b, hrelax⟩ := Relaxation.relax_tells o.config ss
    have hown (limit : Nat) := hrelax o.config.maxErrors _ (hclean (.empty limit) rfl)
    simp only [relax, fun limit => hrelax limit _ (hclean (.empty limit) rfl), hown, Attempt.mapState, Relaxation.under]
    obtain hclean' | hfailed := Diagnostics.tell_cases b
    · obtain ⟨images, c, himages⟩ := images_tells ⟨t.sections, o.symbols, o.config⟩
      refine ⟨t.sections, images, (a.andThen b).andThen c, fun limit => ?_⟩
      have hnone := hclean' _ (hclean (.empty limit) rfl)
      rw [Diagnostics.toResult, Diagnostics.toError?_of_hasErrors hnone, hnone, ← Diagnostics.tell_tell,
        ← Diagnostics.tell_tell]
      exact ⟨congrArg Prod.snd (himages _),
        congrArg (fun x : List Image × Diagnostics => Outcome.mk _ (x.2.toResult x.1) x.2) (himages _)⟩
    · refine ⟨t.sections, [], a.andThen b, fun limit => ?_⟩
      obtain ⟨e, he⟩ := hfailed _ (hclean (.empty limit) rfl)
      rw [← Diagnostics.tell_tell, Diagnostics.toResult, Diagnostics.toResult, he,
        ← Diagnostics.toError?_isSome, he]
      exact ⟨rfl, rfl⟩
  · refine ⟨ss, [], a, fun limit => ?_⟩
    obtain ⟨e, he⟩ := hfailed (.empty limit) rfl
    rw [Diagnostics.toResult, he, ← Diagnostics.toError?_isSome, he]
    exact ⟨rfl, rfl⟩

theorem layout_images {o : Object Empty} {images : List Image} (h : o.layout.result = .ok images) :
    List.Forall₂ (fun (s : Section Empty) image => image.name = s.name ∧ image.start = s.start) o.sections images ∧
      ∀ k image, images[k]? = some image → o.layout.object.image k = .ok image := by
  obtain ⟨t, stats, -, -, hobject, himages⟩ := layout_ok h
  obtain ⟨ss, hfinalized, -, halike, -⟩ := layout_settles h
  have hwritten : List.Forall₂ (fun s image => o.layout.object.sectionImage s = .ok image)
      o.layout.object.sections images := by
    rw [show o.layout.object.sections = t.sections by rw [hobject]]
    exact himages
  constructor
  · have hfresh : List.Forall₂ (fun s s' : Section Empty => s'.name = s.name ∧ s'.start = s.start) o.sections
        o.sections.fresh := List.forall₂_map_right_iff.2 (List.forall₂_same.2 fun s _ => ⟨rfl, rfl⟩)
    refine forall₂_comp (forall₂_comp (forall₂_comp hfresh hfinalized) halike) hwritten |>.imp ?_
    rintro s image ⟨s₃, ⟨s₂, ⟨s₁, h₁, h₂⟩, h₃⟩, hs⟩
    obtain ⟨e, -, he⟩ := Except.bind_eq_ok hs
    cases he
    exact ⟨h₃.1.trans (h₂.name.trans h₁.1), h₃.2.1.trans (h₂.start.trans h₁.2)⟩
  · intro k i hk
    obtain ⟨-, hnone⟩ | ⟨s, i', hs, hi, hsection⟩ := forall₂_getElem? hwritten k
    · rw [hnone] at hk
      cases hk
    · obtain rfl : i' = i := Option.some.inj (hi.symm.trans hk)
      rw [image, hs]
      exact hsection

theorem reported_eq {o : Object Empty} {a : Account}
    (h : ∀ limit, o.reportTo (.empty limit) = (Diagnostics.empty limit).tell a) : o.reported = a.causes.map .one := by
  unfold reported
  rw [h, h]
  simp [Diagnostics.tell, Diagnostics.empty]

end Object

/-! ## Displacements -/

/-- Whether the displacement of a branch has a word to take its bytes from, in either form. -/
def Branch.DispInWord (b : Branch) : Prop := ∀ e ∈ b.long :: b.short.toList, e.dispSize ≤ 8

def Fragment.DispInWord (f : Fragment (Tail Empty)) : Prop := ∀ b, f.tail = some (.branch b) → b.DispInWord

theorem Fragment.DispInWord.lasting : Lasting Fragment.DispInWord := by
  intro f g hfg h b hb
  obtain ⟨b', hb', rfl | rfl⟩ := hfg.branch b hb
  · exact h b hb'
  · exact h b' hb'

theorem Fragment.DispInWord.finalizesTo {symbols : SymbolTable} {owner : Option FragmentRef}
    {f g : Fragment (Tail Empty)} (hfg : Fragment.FinalizesTo symbols owner f g) (h : f.DispInWord) :
    g.DispInWord := by
  intro b hb
  obtain ⟨fixups, -, ⟨hnone, rfl⟩ | ⟨t, t', ht, rfl, htt⟩⟩ := hfg.cases
  · exact absurd (hnone.symm.trans hb) nofun
  · cases hb
    obtain ⟨b', v, rfl, -, rfl⟩ := htt.of_branch
    have hlong : (if v.isRelative then b'.lengthen else b').long = b'.long := by split <;> rfl
    have hshort : (if v.isRelative then b'.lengthen else b').short = b'.short := by split <;> rfl
    unfold Branch.DispInWord
    dsimp only
    rw [hlong, hshort]
    exact h b' ht

namespace Object

/-- Whether every branch of an object, repeated or not, has displacements of one word at most. -/
def DispInWord (o : Object Empty) : Prop :=
  ∀ s ∈ o.sections, ∀ f ∈ s.block.fragments, f.Deeply Fragment.DispInWord

theorem DispInWord.fresh {o : Object Empty} (h : o.DispInWord) :
    ∀ s ∈ o.sections.fresh, ∀ f ∈ s.block.fragments, f.Deeply Fragment.DispInWord := by
  intro s hs f hf
  obtain ⟨k, hk⟩ := List.mem_iff_getElem?.1 hs
  obtain ⟨i, hi⟩ := List.mem_iff_getElem?.1 hf
  have hfresh : o.sections.fresh.fragment? ⟨k, i⟩ = some f := Option.bind_eq_some_iff.2 ⟨s, hk, hi⟩
  rcases Sections.fragment?_fresh hfresh with hold | hnone
  · obtain ⟨s', hs', hf'⟩ := Option.bind_eq_some_iff.1 hold
    exact h s' (List.mem_of_getElem? hs') f (List.mem_of_getElem? hf')
  · exact f.deeply_iff.2 ⟨fun b hb => absurd (hnone.symm.trans hb) nofun,
      fun t ht => absurd (hnone.symm.trans ht) nofun⟩

theorem DispInWord.layout {o : Object Empty} (ho : o.DispInWord) {images : List Image}
    (h : o.layout.result = .ok images) : o.layout.object.sections.Deeply fun _ => Fragment.DispInWord :=
  deeply_layout (fun _ => Fragment.DispInWord.lasting) (fun _ _ _ => Fragment.DispInWord.finalizesTo) ho.fresh h

/-- Every limit on errors gives the same layout, up to what is kept of the errors that finalizing, relaxing and writing
report. The diagnostics keep as many of them as the limit allows and count the others; with room for all of them they
are what the phases report. The layout fails exactly if there is any, with the error that the diagnostics have to show:
the errors up to the limit, and the number of the others if there are more. If there is none, each section has its
image, in order. -/
theorem layout_tells_every_error (o : Object Empty) (hdisp : o.DispInWord) :
    (∀ room, o.reported.length ≤ room →
      (o.reportTo (.empty room)).errors = o.reported ∧ (o.reportTo (.empty room)).dropped = 0) ∧
    (∀ e ∈ o.reported, ∃ c : Cause, e = .one c) ∧
    ∀ limit : Nat,
      let x := (o.keeping limit).layout
      x.diags = o.reportTo (.empty limit) ∧
      x.diags.errors = o.reported.take limit ∧ x.diags.dropped = o.reported.length - limit ∧
      (x.diags.hasErrors = true ↔ o.reported ≠ []) ∧
      (x.diags.hasErrors = true ↔ ∃ e, x.result = .error e) ∧
      (∀ e, x.result = .error e → x.diags.toError? = some e ∧
        e.parts = o.reported.take limit ++
          if limit < o.reported.length then [.one (.suppressed (o.reported.length - limit))] else []) ∧
      ∀ images, x.result = .ok images →
        List.Forall₂ (fun (s : Section Empty) image => image.name = s.name ∧ image.start = s.start) o.sections images ∧
          (∀ k image, images[k]? = some image → x.object.image k = .ok image) ∧
          x.object.sections.Deeply fun _ => Fragment.DispInWord := by
  obtain ⟨ss, written, a, h⟩ := o.layout_tells
  have hreported : o.reported = a.causes.map .one := reported_eq fun limit => (h limit).1
  rw [hreported]
  refine ⟨fun room hroom => ?_, fun e he => ?_, fun limit => ⟨?_, ?_, ?_, ?_, ?_, ?_, fun images hok => ?_⟩⟩
  · rw [(h room).1]
    rw [List.length_map] at hroom
    simp [Diagnostics.tell, Diagnostics.empty, List.take_of_length_le hroom, hroom]
  · obtain ⟨c, -, rfl⟩ := List.mem_map.1 he
    exact ⟨c, rfl⟩
  · rw [(h limit).1, (h limit).2]
  · rw [(h limit).2]
    simp [Diagnostics.tell, Diagnostics.empty]
  · rw [(h limit).2]
    simp [Diagnostics.tell, Diagnostics.empty]
  · rw [(h limit).2]
    dsimp only
    rw [Diagnostics.hasErrors_tell rfl]
    simp
  · rw [(h limit).2]
    dsimp only
    rw [← Diagnostics.toError?_isSome, Diagnostics.toResult]
    cases ((Diagnostics.empty limit).tell a).toError? with
    | none => simp
    | some e => simp
  · intro e
    rw [(h limit).2, ← List.map_take, List.length_map]
    dsimp only
    rw [Diagnostics.toResult, ← Diagnostics.summary_tell]
    cases he : ((Diagnostics.empty limit).tell a).toError? with
    | none =>
      intro h
      cases h
    | some e' =>
      rintro ⟨⟩
      exact ⟨rfl, Diagnostics.parts_of_toError? (fun _ => Diagnostics.one_of_mem_summary_tell) he⟩
  · obtain ⟨hnames, himages⟩ := layout_images hok
    exact ⟨hnames, himages, DispInWord.layout (o := o.keeping limit) hdisp hok⟩

/-- A jump with a field behind it that is too narrow, and a section with another such field. -/
def narrowFields : Object Empty :=
  let o := ((Object.empty .standard).addSection ".text" 0).addSection ".data" 0
  let o := o.modifyBlock 0 fun b =>
    (b.appendTail (.branch (.jump (.const 0))) .unknown).appendValue 8 (.const 256) .unknown
  o.modifyBlock 1 (·.appendValue 8 (.const 300) .unknown)

theorem layout_tells_narrowFields :
    let x := (narrowFields.keeping 1).layout
    narrowFields.reported.length = 2 ∧ x.diags.errors = narrowFields.reported.take 1 ∧ x.diags.dropped = 1 ∧
      ∃ e, x.result = .error e ∧ e.parts = narrowFields.reported.take 1 ++ [.one (.suppressed 1)] := by
  have hdisp : narrowFields.DispInWord := by
    have htails : (narrowFields.sections.flatMap (·.block.fragments)).map (·.tail) =
        [none, some (.branch (.jump (.const 0))), none, none] := rfl
    intro s hs f hf
    have hf : f.tail ∈ [none, some (.branch (.jump (.const 0))), none, none] :=
      htails ▸ List.mem_map_of_mem (List.mem_flatMap.2 ⟨s, hs, hf⟩)
    refine f.deeply_iff.2 ⟨fun b hb => ?_, fun t ht => Tail.deeply_of_plain ?_⟩
    · rw [hb] at hf
      obtain rfl : b = .jump (.const 0) := by simpa using hf
      unfold Branch.DispInWord
      decide
    · rw [ht] at hf
      obtain rfl : t = .branch (.jump (.const 0)) := by simpa using hf
      rfl
  have hlength : narrowFields.reported.length = 2 := by decide +kernel
  obtain ⟨-, -, h⟩ := layout_tells_every_error narrowFields hdisp
  obtain ⟨-, herrors, hdropped, hhas, hfails, hparts, -⟩ := h 1
  rw [hlength] at hdropped hparts
  obtain ⟨e, he⟩ := hfails.1 (hhas.2 fun hnil => by rw [hnil] at hlength; cases hlength)
  exact ⟨hlength, herrors, hdropped, e, he, (hparts e he).2⟩

end Object

end SpanLayout
