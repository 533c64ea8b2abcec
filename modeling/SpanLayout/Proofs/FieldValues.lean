import SpanLayout.Proofs.Assembly
import SpanLayout.Proofs.Fields
import SpanLayout.Proofs.Provenance
import SpanLayout.Proofs.Relaxation.Persistence

/-!
# What fields hold

A fragment gets its fields one behind the other, and whatever is done to an object, they stay where they are. So once
the fragment is written, each field holds its value and every other byte is the one that was put there, and a value that
does not fit is an error. -/

namespace SpanLayout

variable {κ : Type} [Directive κ]

/-! ## Fragments -/

namespace Fragment

/-- A fragment that was built from bytes, fields and tails and has gone through any operations since, whether they
succeeded or not. -/
inductive Made : Fragment (Tail κ) → Prop
  | empty : Made .empty
  | placed {f : Fragment (Tail κ)} (h : Made f) (ref : FragmentRef) (source : SourcePos) (offset index : Nat) :
    Made { f with ref, source, offset, index }
  | bytes {f : Fragment (Tail κ)} (h : Made f) (bytes : List UInt8) : Made (f.appendBytes bytes)
  | value {f : Fragment (Tail κ)} (h : Made f) (v : Value) : Made (f.appendValue v)
  | tail {f : Fragment (Tail κ)} (h : Made f) (t : Tail κ) : Made (f.withTail t)
  | finalize {f : Fragment (Tail κ)} (h : Made f) (symbols : SymbolTable) (owner : Option FragmentRef)
    (diags : Diagnostics) : Made (f.finalize symbols owner diags).state.1
  | measure {f : Fragment (Tail κ)} (h : Made f) (offset : Nat) : Made (f.measureAt offset).state.1
  | expand {f : Fragment (Tail κ)} (h : Made f) (id old new : Int) : Made (f.expand id old new).state

theorem closed_made : Closed (Made (κ := κ)) fun _ => True where
  empty := .empty
  named ref source h := h.placed ref source _ _
  bytes bytes h := h.bytes bytes
  value v h := h.value v
  tail h _ := h.tail _
  gap _ := trivial

theorem persists_made : Persists (Made (κ := κ)) :=
  ⟨fun _ id old new h => h.expand id old new, fun f offset h => h.placed f.ref f.source offset f.index⟩

theorem fields_finalize (symbols : SymbolTable) (owner : Option FragmentRef) (diags : Diagnostics)
    (f : Fragment (Tail κ)) :
    (f.finalize symbols owner diags).state.1.fixed = f.fixed ∧
      (f.finalize symbols owner diags).state.1.fixups = (Fixup.finalizeAll symbols f.source f.fixups).state := by
  cases ht : f.tail with
  | none | some =>
    cases f
    subst ht
    rw [Fragment.finalize]
    split <;> rename_i hfixups <;> rw [hfixups] <;> exact ⟨rfl, rfl⟩

/-- Only building touches the fields, and it puts each behind those that are there. -/
theorem Made.inOrder {f : Fragment (Tail κ)} (h : f.Made) : f.InOrder := by
  induction h with
  | empty => exact .empty
  | placed _ _ _ _ _ ih => exact ih.of_places rfl rfl
  | bytes _ bytes ih => exact ih.appendBytes bytes
  | value _ v ih => exact ih.appendValue v
  | tail _ t ih => exact ih.of_places rfl rfl
  | @finalize f _ symbols owner diags ih =>
    obtain ⟨hfixed, hfixups⟩ := f.fields_finalize symbols owner diags
    exact ih.of_places hfixed (by rw [hfixups, Fixup.places_finalizeAll])
  | @measure f _ offset ih =>
    obtain ⟨tail, tailLen, hstate⟩ := f.measureAt_state offset
    rw [hstate]
    exact ih.of_places rfl rfl
  | @expand f _ id old new ih =>
    obtain ⟨tail, tailLen, hstate⟩ := f.expand_state id old new
    rw [hstate]
    exact ih.of_places rfl rfl

end Fragment

/-! ## Writing a fragment -/

namespace Fragment

/-- Bytes that begin with the fixed bytes of a fragment, with its fields filled in. -/
structure Filled {τ : Type} (site : Site) (f : Fragment τ) (bytes : List UInt8) : Prop where
  field : ∀ x ∈ f.fixups, 0 < x.size ∧ ∃ v, x.value? site = some v ∧
    (unsignedOf ((bytes.drop x.offset).take x.size) : Int) = v % 2 ^ (8 * x.size)
  other : ∀ i < f.fixedLen, (∀ x ∈ f.fixups, ¬ x.Covers i) → bytes[i]? = f.fixed[i]?

variable {f : Fragment (Tail κ)} {site : Site} {at_ : Nat}

omit [Directive κ] in
theorem InOrder.filled_patch (hf : f.InOrder) {e : Emission}
    (h : Fixup.patch site at_ f.source f.fixups f.fixed = .ok e) (more : List UInt8) :
    f.Filled site (e.bytes ++ more) := by
  have hlen : e.bytes.length = f.fixed.length := Fixup.length_patch h
  constructor
  · intro x hx
    have hinside := hf.inside x hx
    obtain ⟨hpos, v, hv, -, hslice⟩ := Fixup.slice_patch h hf.apart hx
    refine ⟨hpos, v, hv, ?_⟩
    rw [List.drop_append_of_le_length (by omega),
      List.take_append_of_le_length (by rw [List.length_drop]; omega), hslice, unsignedOf_littleEndian]
  · intro i hi hother
    unfold fixedLen at hi
    rw [List.getElem?_append_left (by omega), Fixup.getElem?_patch h hother]

theorem emit_fixed {e : Emission} (h : f.emit site at_ = .ok e) :
    ∃ fixed more, Fixup.patch site at_ f.source f.fixups f.fixed = .ok fixed ∧ e.bytes = fixed.bytes ++ more := by
  cases ht : f.tail with
  | none =>
    rw [emit_of_none ht] at h
    exact ⟨e, [], h, (List.append_nil _).symm⟩
  | some t =>
    rw [emit_of_some ht] at h
    obtain ⟨fixed, hfixed, h⟩ := Except.bind_eq_ok h
    obtain ⟨tail, -, h⟩ := Except.bind_eq_ok h
    cases h
    exact ⟨fixed, tail.bytes, hfixed, rfl⟩

theorem emit_of_patch_error {err : Error} (h : Fixup.patch site at_ f.source f.fixups f.fixed = .error err) :
    f.emit site at_ = .error err := by
  cases ht : f.tail with
  | none => rw [emit_of_none ht, h]
  | some t =>
    rw [emit_of_some ht, h]
    rfl

theorem emit_error_cases {err : Error} (h : f.emit site at_ = .error err) :
    Fixup.patch site at_ f.source f.fixups f.fixed = .error err ∨
      ∃ fixed t, Fixup.patch site at_ f.source f.fixups f.fixed = .ok fixed ∧ f.tail = some t ∧
        t.emit site (at_ + f.fixedLen) f.info = .error err := by
  cases ht : f.tail with
  | none =>
    rw [emit_of_none ht] at h
    exact .inl h
  | some t =>
    rw [emit_of_some ht] at h
    cases hfixed : Fixup.patch site at_ f.source f.fixups f.fixed with
    | error err' =>
      rw [hfixed] at h
      exact .inl h
    | ok fixed =>
      rw [hfixed, Except.bind, show fixed.length = f.fixedLen from Fixup.length_patch hfixed] at h
      cases htail : t.emit site (at_ + f.fixedLen) f.info with
      | error err' =>
        rw [htail] at h
        cases h
        exact .inr ⟨fixed, t, rfl, rfl, htail⟩
      | ok tail =>
        rw [htail] at h
        cases h

end Fragment

/-! ## Objects -/

namespace Object

/-- An object after any operations, whether they succeeded or not. -/
inductive Reached : Object κ → Prop
  | empty (config : Config) : Reached (.empty config)
  | configure {o : Object κ} (h : Reached o) (config : Config) : Reached { o with config }
  | addSection {o : Object κ} (h : Reached o) (name : String) (start : Nat) : Reached (o.addSection name start)
  | fragment {o : Object κ} (h : Reached o) (k : Nat) {f : Fragment (Tail κ)} (hf : f.Made) :
    Reached (o.modifyBlock k (·.appendFragment f))
  | fresh {o : Object κ} (h : Reached o) (k : Nat) : Reached (o.modifyBlock k Block.fresh)
  | last {o : Object κ} (h : Reached o) (k : Nat) {g : Fragment (Tail κ) → Fragment (Tail κ)}
    (hg : ∀ f : Fragment (Tail κ), f.Made → (g f).Made) : Reached (o.modifyBlock k (·.modifyLast g))
  | bytes {o : Object κ} (h : Reached o) (k : Nat) (bytes : List UInt8) :
    Reached (o.modifyBlock k (·.appendBytes bytes))
  | value {o : Object κ} (h : Reached o) (k size : Nat) (e : Expr) (source : SourcePos) :
    Reached (o.modifyBlock k (·.appendValue size e source))
  | gap {o : Object κ} (h : Reached o) (k size : Nat) (source : SourcePos) :
    Reached (o.modifyBlock k (·.appendGap size source))
  | tail {o : Object κ} (h : Reached o) (k : Nat) (t : Tail κ) (source : SourcePos) :
    Reached (o.modifyBlock k (·.appendTail t source))
  | label {o : Object κ} (h : Reached o) (k : Nat) (name : String) (pos : SourcePos) :
    Reached (o.defineLabel k name pos).state
  | define {o : Object κ} (h : Reached o) (name : String) (e : Expr) (pos : SourcePos) :
    Reached (o.defineName name e pos).state
  | finalize {o : Object κ} (h : Reached o) (diags : Diagnostics) : Reached (o.finalize diags).1
  | relax {o : Object κ} (h : Reached o) (diags : Diagnostics) : Reached (o.relax diags).state.1
  | lay {o : Object κ} (h : Reached o) (diags : Diagnostics) : Reached (o.lay diags).1

variable {o : Object κ} {P : Fragment (Tail κ) → Prop}

omit [Directive κ] in
theorem each_modifyBlock (h : o.sections.Each P) (k : Nat) {g : Block (Tail κ) → Block (Tail κ)}
    (hg : ∀ b : Block (Tail κ), (∀ f ∈ b.fragments, P f) → ∀ f ∈ (g b).fragments, P f) :
    (o.modifyBlock k g).sections.Each P := by
  intro s hs
  obtain ⟨i, hi⟩ := List.mem_iff_getElem?.1 hs
  rw [modifyBlock, List.getElem?_modify] at hi
  obtain ⟨t, ht, rfl⟩ := Option.map_eq_some_iff.1 hi
  have ht := h t (List.mem_of_getElem? ht)
  split
  · exact hg t.block ht
  · exact ht

omit [Directive κ] in
theorem each_addSection (h : o.sections.Each P) (hempty : ∀ f ∈ (Block.empty (List.length o.sections)).fragments, P f)
    (name : String) (start : Nat) : (o.addSection name start).sections.Each P := by
  intro s hs
  rcases List.mem_append.1 hs with hs | hs
  · exact h s hs
  · rw [List.mem_singleton.1 hs]
    exact hempty

omit [Directive κ] in
theorem each_defineLabel (h : o.sections.Each P)
    (hfresh : ∀ b : Block (Tail κ), (∀ f ∈ b.fragments, P f) → ∀ f ∈ b.fresh.fragments, P f) (k : Nat) (name : String)
    (pos : SourcePos) : (o.defineLabel k name pos).state.sections.Each P := by
  unfold defineLabel
  split
  · exact h
  · rw [sections_define]
    exact each_modifyBlock h k hfresh

theorem made_finalizeFragments {fs : List (Fragment (Tail κ))} (h : ∀ f ∈ fs, f.Made) (symbols : SymbolTable)
    (owner : Option FragmentRef) (diags : Diagnostics) :
    ∀ f ∈ (finalizeFragments symbols owner diags fs).1, f.Made := by
  induction fs generalizing diags with
  | nil => exact h
  | cons f fs ih =>
    intro g hg
    rw [finalizeFragments] at hg
    rcases List.mem_cons.1 hg with rfl | hg
    · exact (h f List.mem_cons_self).finalize symbols owner diags
    · exact ih (fun x hx => h x (List.mem_cons_of_mem f hx)) _ g hg

theorem made_finalizeSections {ss : Sections κ} (h : ss.Each Fragment.Made) (symbols : SymbolTable)
    (diags : Diagnostics) : Sections.Each Fragment.Made (finalizeSections symbols diags ss).1 := by
  induction ss generalizing diags with
  | nil => exact h
  | cons s ss ih =>
    intro t ht
    rw [finalizeSections] at ht
    rcases List.mem_cons.1 ht with rfl | ht
    · exact made_finalizeFragments (Fragment.closed_made.fresh (h s List.mem_cons_self)) symbols none diags
    · exact ih (fun x hx => h x (List.mem_cons_of_mem s hx)) _ t ht

theorem Reached.made (h : o.Reached) : o.sections.Each Fragment.Made := by
  induction h with
  | empty config => exact fun s hs => absurd hs List.not_mem_nil
  | configure _ _ ih => exact ih
  | addSection _ name start ih => exact each_addSection ih (Fragment.closed_made.emptyBlock _) name start
  | fragment _ k hf ih => exact each_modifyBlock ih k fun _ hb => Fragment.closed_made.appendFragment hb hf
  | fresh _ k ih => exact each_modifyBlock ih k fun _ hb => Fragment.closed_made.fresh hb
  | last _ k hg ih => exact each_modifyBlock ih k fun _ hb => Block.forall_modifyLast hb hg
  | bytes _ k bytes ih => exact each_modifyBlock ih k fun _ hb => Fragment.closed_made.appendBytes hb bytes
  | value _ k size e source ih =>
    exact each_modifyBlock ih k fun _ hb => Fragment.closed_made.appendValue hb size e source
  | gap _ k size source ih => exact each_modifyBlock ih k fun _ hb => Fragment.closed_made.appendGap hb size source
  | tail _ k t source ih => exact each_modifyBlock ih k fun _ hb => Fragment.closed_made.appendTail hb trivial source
  | label _ k name pos ih => exact each_defineLabel ih (fun _ hb => Fragment.closed_made.fresh hb) k name pos
  | define _ name e pos ih =>
    rw [defineName, sections_define]
    exact ih
  | @finalize o _ diags ih => exact made_finalizeSections ih o.symbols diags
  | @relax o _ diags ih =>
    refine Fragment.persists_made.relax o.config diags
      (Relaxation.each_surveySections (fun f index offset h => ?_) ih 0 0 diags)
    exact (h.placed f.ref f.source f.offset index).measure offset
  | lay _ diags ih => exact Fragment.persists_made.lay ih diags

theorem filled_image [LawfulDirective κ] {u : Object κ} {diags d : Diagnostics} {stats : Stats}
    (h : o.relax diags = .done (u, d) stats) {s : Section κ} (hs : s ∈ u.sections) {f : Fragment (Tail κ)}
    (hf : f ∈ s.block.fragments) (horder : f.InOrder) {image : Image} (hi : u.sectionImage s = .ok image) :
    f.Filled ⟨s.start, u.sections.address?⟩ (image.bytes.drop f.offset) := by
  obtain ⟨t, ht, rfl⟩ := relax_done h
  obtain ⟨hplaced, hexact⟩ := Sections.relax_writable ht hs
  unfold sectionImage at hi
  obtain ⟨e, he, hi⟩ := Except.bind_eq_ok hi
  cases hi
  obtain ⟨i, hi⟩ := List.mem_iff_getElem?.1 hf
  obtain ⟨before, own, after, -, hbefore, hown, -, rfl⟩ := emitFragments_split hplaced hexact he hi
  obtain ⟨fixed, more, hfixed, hbytes⟩ := Fragment.emit_fixed hown
  have hdrop : (before ++ (own ++ after)).bytes.drop f.offset = fixed.bytes ++ (more ++ after.bytes) := by
    rw [Emission.append_bytes, Emission.append_bytes, hbytes, List.drop_left' hbefore, List.append_assoc]
  rw [hdrop]
  exact horder.filled_patch hfixed _

/-- The fields of a fragment lie apart, within its fixed bytes. Once the fragment is written, each of them holds its
value modulo the size of the field, and every other byte is the one that was put there, both in what the fragment writes
and in the image of a section that was relaxed. A field is reported to overflow only if it does, and if it does, it is
reported unless another field before it cannot be written. -/
theorem fields_hold_values (u : Object κ) (hu : u.Reached) {s : Section κ} (hs : s ∈ u.sections) {f : Fragment (Tail κ)}
    (hf : f ∈ s.block.fragments) :
    let site : Site := ⟨s.start, u.sections.address?⟩
    f.fixups.Pairwise (fun x y => x.offset + x.size ≤ y.offset) ∧
    (∀ x ∈ f.fixups, x.offset + x.size ≤ f.fixedLen) ∧
    (∀ at_ own, f.emit site at_ = .ok own → f.Filled site own.bytes) ∧
    (∀ [LawfulDirective κ] (o : Object κ) (diags d : Diagnostics) (stats : Stats) (image : Image),
      o.relax diags = .done (u, d) stats → u.sectionImage s = .ok image → f.Filled site (image.bytes.drop f.offset)) ∧
    (∀ at_ v size pos, f.emit site at_ = .error (Cause.valueOverflow v size pos) →
      (∃ x ∈ f.fixups, x.Overflows site v ∧ size = x.size) ∨
      ∃ fixed t, Fixup.patch site at_ f.source f.fixups f.fixed = .ok fixed ∧ f.tail = some t ∧
        t.emit site (at_ + f.fixedLen) f.info = .error (Cause.valueOverflow v size pos)) ∧
    ∀ at_ before x after v, f.fixups = before ++ x :: after →
      (∀ y ∈ before, ∃ e, site.field (at_ + y.offset) y.size y.value f.source = .ok e) → x.Overflows site v →
      f.emit site at_ = .error (Cause.valueOverflow v x.size f.source) := by
  intro site
  have horder := (hu.made s hs f hf).inOrder
  refine ⟨horder.apart, horder.inside, ?_, ?_, ?_, ?_⟩
  · intro at_ own hown
    obtain ⟨fixed, more, hfixed, hbytes⟩ := Fragment.emit_fixed hown
    rw [hbytes]
    exact horder.filled_patch hfixed more
  · intro _ o diags d stats image hrelax himage
    exact filled_image hrelax hs hf horder himage
  · intro at_ v size pos hemit
    refine (Fragment.emit_error_cases hemit).imp_left fun hpatch => ?_
    obtain ⟨before, x, after, hfixups, -, hfield⟩ := Fixup.exists_field_of_patch_error horder.inside hpatch
    obtain ⟨hover, hsize, -⟩ := Fixup.field_eq_overflow_iff.1 hfield
    refine ⟨x, ?_, hover, hsize⟩
    rw [hfixups]
    exact List.mem_append_right before List.mem_cons_self
  · intro at_ before x after v hfixups hbefore hover
    refine Fragment.emit_of_patch_error ?_
    have hinside := horder.inside
    unfold Fragment.FieldsInside at hinside
    rw [hfixups] at hinside ⊢
    exact Fixup.patch_of_field_error hinside hbefore (Fixup.field_eq_overflow_iff.2 ⟨hover, rfl, rfl⟩)

/-- A section with fields of 12 and of 72 bits in front of a jump, and another one with a field for 256 in 8 bits. -/
def packedFields : Object Empty :=
  let o := ((Object.empty .standard).addSection ".text" 4096).addSection ".data" 0
  let o := o.modifyBlock 0 (·.appendBytes [0x90])
  let o := o.modifyBlock 0 (·.appendValue 12 (.const (-1)) .unknown)
  let o := o.modifyBlock 0 (·.appendValue 72 (.sym "here") .unknown)
  let o := o.modifyBlock 0 (·.appendTail (.branch (.jump (.sym "here"))) .unknown)
  let o := (o.defineLabel 0 "here" .unknown).state
  let o := o.modifyBlock 1 (·.appendValue 16 (.const 7) .unknown)
  o.modifyBlock 1 (·.appendValue 8 (.const 256) .unknown)

theorem reached_packedFields : packedFields.Reached :=
  (((((((((Reached.empty .standard).addSection ".text" 4096).addSection ".data" 0).bytes 0 [0x90]).value 0 12 _ _).value
    0 72 _ _).tail 0 _ _).label 0 _ _).value 1 16 _ _).value 1 8 _ _

/-- The fields of the first section can be read in its image; the second field of the other one is too small. -/
theorem fields_hold_values_packedFields :
    let fin := packedFields.finalize (.empty 64)
    let u := (fin.1.relax fin.2).state.1
    packedFields.Reached ∧ ∃ (text data : Section Empty) (f g : Fragment (Tail Empty)) (image : Image),
      u.sections = [text, data] ∧ text.block.fragments[0]? = some f ∧ data.block.fragments[0]? = some g ∧
      u.sectionImage text = .ok image ∧ image.bytes[0]? = some 0x90 ∧
      (unsignedOf ((image.bytes.drop 1).take 2) : Int) = -1 % 2 ^ 16 ∧
      (unsignedOf ((image.bytes.drop 3).take 9) : Int) = 4110 ∧
      g.emit ⟨data.start, u.sections.address?⟩ 0 = .error (Cause.valueOverflow 256 1 .unknown) := by
  intro fin u
  refine ⟨reached_packedFields, ?_⟩
  have hu : u.Reached := (reached_packedFields.finalize _).relax _
  have hdone : (fin.1.relax fin.2).result.toOption.isSome = true := by decide +kernel
  have hlen : List.length u.sections = 2 := by decide +kernel
  have himage : (u.sections[0]?.bind fun s => (u.sectionImage s).toOption).isSome = true := by decide +kernel
  have htext : (u.sections[0]?.bind (·.block.fragments[0]?)).map (fun f => (f.offset, f.fixed, f.fixups)) =
      some (0, 0x90 :: List.replicate 11 0,
        [⟨1, ⟨some (.const (-1)), none, 12, false⟩⟩, ⟨3, ⟨some (.loc ⟨⟨0, 2⟩, 0⟩), none, 72, false⟩⟩]) := by
    decide +kernel
  have hhere : (Expr.loc ⟨⟨0, 2⟩, 0⟩).eval (.ofLocs fun l => (u.sections.address? l).map signed) = some 4110 := by
    decide +kernel
  have hdata : (u.sections[1]?.bind (·.block.fragments[0]?)).map (fun f => (f.fixups, f.source)) =
      some ([⟨0, ⟨some (.const 7), none, 16, false⟩⟩, ⟨2, ⟨some (.const 256), none, 8, false⟩⟩], .unknown) := by
    decide +kernel
  obtain ⟨stats, hstats⟩ := Option.isSome_iff_exists.1 hdone
  have hrelax : fin.1.relax fin.2 = .done (u, (fin.1.relax fin.2).state.2) stats := by
    rw [Attempt.done, ← Attempt.ok_of_toOption hstats]
  clear_value u
  obtain ⟨text, data, hsections⟩ := List.length_eq_two.1 hlen
  rw [hsections] at himage htext hdata
  obtain ⟨image, himage⟩ := Option.isSome_iff_exists.1 himage
  have himage : u.sectionImage text = .ok image := Attempt.ok_of_toOption himage
  obtain ⟨f, hf, hfields⟩ := Option.map_eq_some_iff.1 htext
  obtain ⟨hoffset, hfields⟩ := Prod.mk.inj hfields
  obtain ⟨hfixed, hfixups⟩ := Prod.mk.inj hfields
  obtain ⟨g, hg, hfields⟩ := Option.map_eq_some_iff.1 hdata
  obtain ⟨hfixups', hsource⟩ := Prod.mk.inj hfields
  have hfilled :=
    (fields_hold_values u hu (hsections ▸ List.mem_cons_self) (List.mem_of_getElem? hf)).2.2.2.1 fin.1 fin.2 _
    stats image hrelax himage
  have hover := (fields_hold_values u hu (s := data) (hsections ▸ List.mem_cons_of_mem _ List.mem_cons_self)
    (List.mem_of_getElem? hg)).2.2.2.2.2 0 [_] _ [] 256 hfixups'
  rw [hoffset, List.drop_zero] at hfilled
  refine ⟨text, data, f, g, image, hsections, hf, hg, himage, ?_, ?_, ?_, ?_⟩
  · rw [hfilled.other 0 (by rw [Fragment.fixedLen, hfixed]; decide) (by rw [hfixups]; decide), hfixed]
    rfl
  · obtain ⟨-, v, hv, hread⟩ := hfilled.field _ (hfixups ▸ List.mem_cons_self)
    cases hv
    exact hread
  · obtain ⟨-, v, hv, hread⟩ := hfilled.field _ (hfixups ▸ List.mem_cons_of_mem _ List.mem_cons_self)
    obtain rfl : 4110 = v := Option.some.inj (hhere.symm.trans hv)
    exact hread
  · rw [hsource] at hover
    refine hover (fun y hy => ?_) ⟨rfl, by decide, by decide, by decide⟩
    rw [List.mem_singleton.1 hy]
    exact ⟨_, rfl⟩

end Object

end SpanLayout
