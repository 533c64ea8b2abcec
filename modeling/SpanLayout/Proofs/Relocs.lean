import SpanLayout.Proofs.Assembly

/-!
# Relocations of an image

The fields that are left to a linker are listed in the order in which they lie in the section. They do not overlap, and
none reaches beyond the bytes of the section. That is so in every copy of what is repeated.
-/

namespace SpanLayout

/-! ## Emissions -/

/-- One relocation is over before another begins. -/
def Reloc.EndsBefore (r r' : Reloc) : Prop := r.offset + r.size ≤ r'.offset

/-- Relocations between two offsets, one behind the other. -/
structure Reloc.Spaced (low high : Nat) (rs : List Reloc) : Prop where
  within : ∀ r ∈ rs, low ≤ r.offset ∧ r.offset + r.size ≤ high
  apart : rs.Pairwise Reloc.EndsBefore

namespace Reloc.Spaced

theorem nil (low high : Nat) : Spaced low high [] := ⟨nofun, .nil⟩

theorem one {low high : Nat} {r : Reloc} (hlow : low ≤ r.offset) (hhigh : r.offset + r.size ≤ high) :
    Spaced low high [r] :=
  ⟨fun _ hr => by rw [List.mem_singleton.1 hr]; exact ⟨hlow, hhigh⟩, List.pairwise_singleton _ _⟩

theorem mono {low low' high high' : Nat} {rs : List Reloc} (h : Spaced low high rs) (hlow : low' ≤ low)
    (hhigh : high ≤ high') : Spaced low' high' rs :=
  ⟨fun r hr => ⟨hlow.trans (h.within r hr).1, (h.within r hr).2.trans hhigh⟩, h.apart⟩

theorem append {low mid high : Nat} {as bs : List Reloc} (ha : Spaced low mid as) (hb : Spaced mid high bs)
    (hlow : low ≤ mid) (hhigh : mid ≤ high) : Spaced low high (as ++ bs) := by
  constructor
  · intro r hr
    rcases List.mem_append.1 hr with hr | hr
    · exact (ha.mono le_rfl hhigh).within r hr
    · exact (hb.mono hlow le_rfl).within r hr
  · exact List.pairwise_append.2 ⟨ha.apart, hb.apart, fun r hr r' hr' => (ha.within r hr).2.trans (hb.within r' hr').1⟩

end Reloc.Spaced

/-- The relocations of what is emitted at an offset lie among its bytes, one behind the other. -/
def Emission.Spaced (at_ : Nat) (e : Emission) : Prop := Reloc.Spaced at_ (at_ + e.length) e.relocs

namespace Emission

theorem Spaced.append {at_ : Nat} {a b : Emission} (ha : a.Spaced at_) (hb : b.Spaced (at_ + a.length)) :
    (a ++ b).Spaced at_ := by
  unfold Spaced at hb ⊢
  rw [length_append, ← Nat.add_assoc]
  exact Reloc.Spaced.append ha hb (Nat.le_add_right _ _) (Nat.le_add_right _ _)

end Emission

/-! ## Fields -/

theorem Site.spaced_field {site : Site} {at_ size : Nat} {v : Value} {pos : SourcePos} {e : Emission}
    (h : site.field at_ size v pos = .ok e) : e.Spaced at_ := by
  have hlen := Site.length_field h
  unfold Emission.Spaced
  rw [hlen]
  unfold Site.field at h
  split at h
  · cases h
  · split at h
    · cases h
    · split at h
      · cases h
        cases v.rel with
        | none => exact .nil _ _
        | some symbol => exact .one (Nat.le_refl _) (Nat.add_le_add_left (Nat.mod_le _ _) _)
      · cases h

theorem Fixup.spaced_patch {site : Site} {at_ low : Nat} {pos : SourcePos} {fs : List Fixup} {bytes : List UInt8}
    {e : Emission} (h : patch site at_ pos fs bytes = .ok e) (hlow : ∀ f ∈ fs, low ≤ f.offset)
    (hapart : fs.Pairwise fun x y => x.offset + x.size ≤ y.offset) :
    Reloc.Spaced (at_ + low) (at_ + bytes.length) e.relocs := by
  induction fs generalizing low bytes e with
  | nil =>
    cases h
    exact .nil _ _
  | cons f fs ih =>
    rw [patch] at h
    split at h
    · cases h
    · rename_i hinside
      obtain ⟨field, hfield, h⟩ := Except.bind_eq_ok h
      obtain ⟨rest, hrest, h⟩ := Except.bind_eq_ok h
      cases h
      obtain ⟨hf, hfs⟩ := List.pairwise_cons.1 hapart
      have hlen := Site.length_field hfield
      have hbytes : (bytes.take f.offset ++ field.bytes ++ bytes.drop (f.offset + f.size)).length = bytes.length := by
        simp only [Emission.length] at hlen
        simp only [List.length_append, List.length_take, List.length_drop, hlen]
        omega
      have hown := Site.spaced_field hfield
      rw [Emission.Spaced, hlen, Nat.add_assoc] at hown
      have hothers := ih hrest hf hfs
      rw [hbytes] at hothers
      have hlow' := hlow f List.mem_cons_self
      exact Reloc.Spaced.append (hown.mono (Nat.add_le_add_left hlow' at_) le_rfl) hothers (by omega) (by omega)

theorem Fragment.InOrder.spaced_patch {τ : Type} {f : Fragment τ} (hf : f.InOrder) {site : Site} {at_ : Nat}
    {e : Emission} (h : Fixup.patch site at_ f.source f.fixups f.fixed = .ok e) : e.Spaced at_ := by
  have hspaced := Fixup.spaced_patch h (fun _ _ => Nat.zero_le _) hf.apart
  rw [← Fixup.length_patch h] at hspaced
  exact hspaced

/-! ## Fragments -/

theorem Branch.spaced_emit {site : Site} {at_ : Nat} {info : FragmentInfo} {b : Branch} {e : Emission}
    (h : b.emit site at_ info = .ok e) : e.Spaced at_ := by
  have hlen := Branch.length_emit h
  unfold Emission.Spaced
  rw [hlen]
  unfold Branch.emit at h
  dsimp only at h
  split at h
  · cases h
  · split at h
    · cases h
      exact .one (Nat.le_add_right _ _) (by simp [Encoding.len, Nat.add_assoc])
    · split at h
      · split at h
        · cases h
          exact .nil _ _
        · cases h
      · cases h

theorem Padding.relocs_emit (n : Nat) (p : Padding) : (p.emit n).relocs = [] := by
  cases p <;> rfl

theorem Leb128.Field.relocs_emit {site : Site} {info : FragmentInfo} {f : Field} {e : Emission}
    (h : f.emit site info = .ok e) : e.relocs = [] := by
  unfold Leb128.Field.emit at h
  split at h
  · cases h
  · dsimp only at h
    split at h
    · cases h
      rfl
    · cases h

theorem Emission.spaced_of_relocs {e : Emission} (h : e.relocs = []) (at_ : Nat) : e.Spaced at_ := by
  unfold Spaced
  rw [h]
  exact .nil _ _

/-- Whatever a directive writes, its relocations lie among the bytes, one behind the other. -/
def Directive.Spaced (κ : Type) [Directive κ] : Prop :=
  ∀ {site : Site} {at_ : Nat} {info : FragmentInfo} {d : κ} {e : Emission},
    Directive.emit site at_ info d = .ok e → e.Spaced at_

theorem Directive.spaced_empty : Directive.Spaced Empty := fun {_ _ _ d} => d.elim

section

variable {κ : Type} [Directive κ]

/-- A property of what is emitted at an offset that is passed on from parts to the whole. What it takes for the bytes
and fields of a fragment to have it is that the fragment has the property `P`. -/
structure Emission.Composes (P : Fragment (Tail κ) → Prop) (Q : Nat → Emission → Prop) : Prop where
  fixed : ∀ {site : Site} {at_ : Nat} {f : Fragment (Tail κ)} {e : Emission}, P f →
    Fixup.patch site at_ f.source f.fixups f.fixed = .ok e → Q at_ e
  silent : ∀ {at_ : Nat} {e : Emission}, e.relocs = [] → Q at_ e
  branch : ∀ {site : Site} {at_ : Nat} {info : FragmentInfo} {b : Branch} {e : Emission},
    b.emit site at_ info = .ok e → Q at_ e
  other : ∀ {site : Site} {at_ : Nat} {info : FragmentInfo} {d : κ} {e : Emission},
    Directive.emit site at_ info d = .ok e → Q at_ e
  append : ∀ {at_ : Nat} {a b : Emission}, Q at_ a → Q (at_ + a.length) b → Q at_ (a ++ b)

variable {P : Fragment (Tail κ) → Prop} {Q : Nat → Emission → Prop}

theorem Emission.Composes.times (hQ : Composes P Q) {emit : Nat → Except Error Emission}
    (hemit : ∀ at_ e, emit at_ = .ok e → Q at_ e) {n at_ : Nat} {e : Emission} (h : times emit n at_ = .ok e) :
    Q at_ e := by
  induction n generalizing at_ e with
  | zero =>
    cases h
    exact hQ.silent rfl
  | succ n ih =>
    obtain ⟨first, hfirst, h⟩ := Except.bind_eq_ok h
    obtain ⟨rest, hrest, h⟩ := Except.bind_eq_ok h
    cases h
    exact hQ.append (hemit _ _ hfirst) (ih hrest)

mutual

theorem Tail.composes (hQ : Emission.Composes P Q) (site : Site) (at_ : Nat) (info : FragmentInfo) (t : Tail κ)
    (ht : t.Deeply P) {e : Emission} (h : t.emit site at_ info = .ok e) : Q at_ e := by
  match t with
  | .gap g =>
    rw [Tail.emit] at h
    cases h
    exact hQ.silent rfl
  | .align a =>
    rw [Tail.emit] at h
    cases h
    exact hQ.silent (Padding.relocs_emit _ _)
  | .origin o =>
    rw [Tail.emit] at h
    cases h
    exact hQ.silent rfl
  | .leb128 f =>
    rw [Tail.emit] at h
    exact hQ.silent (Leb128.Field.relocs_emit h)
  | .branch b =>
    rw [Tail.emit] at h
    exact hQ.branch h
  | .other d =>
    rw [Tail.emit] at h
    exact hQ.other h
  | .times count body reps =>
    rw [Tail.emit] at h
    exact hQ.times (fun at_ e => composes_emitFragments hQ site at_ body.fragments ht) h

theorem Fragment.composes (hQ : Emission.Composes P Q) (site : Site) (at_ : Nat) (f : Fragment (Tail κ))
    (hf : f.Deeply P) {e : Emission} (h : f.emit site at_ = .ok e) : Q at_ e := by
  match f with
  | { tail := none, .. } =>
    rw [Fragment.emit_of_none rfl] at h
    exact hQ.fixed hf.1 h
  | { tail := some t, .. } =>
    rw [Fragment.emit_of_some rfl] at h
    obtain ⟨fixed, hpatch, h⟩ := Except.bind_eq_ok h
    obtain ⟨tail, htail, h⟩ := Except.bind_eq_ok h
    cases h
    exact hQ.append (hQ.fixed hf.1 hpatch) (Tail.composes hQ site _ _ t hf.2 htail)

/-- A property that is passed on holds of all that is emitted if it holds of the bytes and fields. -/
theorem composes_emitFragments (hQ : Emission.Composes P Q) (site : Site) (at_ : Nat)
    (fs : List (Fragment (Tail κ))) (hfs : DeeplyAll P fs) {e : Emission} (h : emitFragments site at_ fs = .ok e) :
    Q at_ e := by
  match fs with
  | [] =>
    rw [emitFragments] at h
    cases h
    exact hQ.silent rfl
  | f :: fs =>
    rw [DeeplyAll] at hfs
    rw [emitFragments_cons] at h
    obtain ⟨first, hfirst, h⟩ := Except.bind_eq_ok h
    obtain ⟨rest, hrest, h⟩ := Except.bind_eq_ok h
    cases h
    exact hQ.append (Fragment.composes hQ site at_ f hfs.1 hfirst) (composes_emitFragments hQ site _ fs hfs.2 hrest)

end

theorem Emission.composes_spaced (hκ : Directive.Spaced κ) : Composes (κ := κ) Fragment.InOrder Spaced where
  fixed hf := hf.spaced_patch
  silent h := Emission.spaced_of_relocs h _
  branch := Branch.spaced_emit
  other := hκ
  append := Spaced.append

end

/-! ## Images -/

theorem Reloc.Spaced.disjoint {low high : Nat} {rs : List Reloc} (h : Spaced low high rs) {i j : Nat} {r r' : Reloc}
    (hi : rs[i]? = some r) (hj : rs[j]? = some r') (hij : i ≠ j) (x : Nat) :
    ¬ ((r.offset ≤ x ∧ x < r.offset + r.size) ∧ r'.offset ≤ x ∧ x < r'.offset + r'.size) := by
  obtain ⟨hi', rfl⟩ := List.getElem?_eq_some_iff.1 hi
  obtain ⟨hj', rfl⟩ := List.getElem?_eq_some_iff.1 hj
  have hpair := List.pairwise_iff_getElem.1 h.apart
  rcases Nat.lt_or_gt_of_ne hij with hlt | hlt
  · have := hpair i j hi' hj' hlt
    unfold EndsBefore at this
    omega
  · have := hpair j i hj' hi' hlt
    unfold EndsBefore at this
    omega

namespace Object

theorem spaced_images {κ : Type} [Directive κ] [CandidDirective κ] (hκ : Directive.Spaced κ) {o : Object κ}
    (ho : o.Assembled) {images : List Image} (h : o.layout.result = .ok images) {image : Image}
    (hi : image ∈ images) : Reloc.Spaced 0 image.bytes.length image.relocs := by
  obtain ⟨t, stats, -, -, hobject, himages⟩ := layout_ok h
  obtain ⟨s, hs, himage⟩ := exists_of_forall₂_right himages hi
  have hdeep := ho.deeply_layout h s (by rw [hobject]; exact hs)
  obtain ⟨e, hemit, he⟩ := Except.bind_eq_ok himage
  cases he
  have hspaced := composes_emitFragments (Emission.composes_spaced hκ) _ 0 _ ((deeplyAll_iff _).2 hdeep) hemit
  unfold Emission.Spaced at hspaced
  rwa [Nat.zero_add] at hspaced

/-- In every image the relocations come in the order of their offsets, lie within the bytes, and have no byte in common.
-/
theorem relocs_in_order (o : Object Empty) (ho : o.Assembled) {images : List Image} (h : o.layout.result = .ok images)
    {image : Image} (hi : image ∈ images) :
    image.relocs.Pairwise (fun r r' => r.offset ≤ r'.offset) ∧
      (∀ r ∈ image.relocs, r.offset + r.size ≤ image.bytes.length) ∧
      ∀ (i j : Nat) (r r' : Reloc), image.relocs[i]? = some r → image.relocs[j]? = some r' → i ≠ j → ∀ x : Nat,
        ¬ ((r.offset ≤ x ∧ x < r.offset + r.size) ∧ r'.offset ≤ x ∧ x < r'.offset + r'.size) := by
  have hspaced := spaced_images Directive.spaced_empty ho h hi
  refine ⟨hspaced.apart.imp fun {r r'} hr => (Nat.le_add_right _ _).trans hr, fun r hr => (hspaced.within r hr).2, ?_⟩
  intro i j r r' hi hj hij x
  exact hspaced.disjoint hi hj hij x

/-- A table entry and calls of a function from elsewhere, repeated twice, the calls twice in each copy, and then a jump
into that function. -/
def importedCalls : Object Empty :=
  let calls : Block (Tail Empty) := (Block.empty 0).appendTail (.branch (.call (.sym "helper"))) .unknown
  let body : Block (Tail Empty) :=
    (((Block.empty 0).appendBytes [0x90]).appendValue 32 (.sym "table") .unknown).appendTail
      (.times (.const 2) calls 0) .unknown
  ((Object.empty .standard).addSection ".text" 4096).modifyBlock 0 fun b =>
    ((b.appendValue 64 (.sym "table") .unknown).appendTail (.times (.const 2) body 0) .unknown).appendTail
      (.branch (.jump (.sum [.sym "helper", .const 8]))) .unknown

theorem assembled_importedCalls : importedCalls.Assembled := by
  unfold importedCalls
  refine .modifyBlock (.addSection (.empty .standard) ".text" 4096) 0 fun b hb => ?_
  have hcalls := Block.Assembled.tail (t := (.branch (.call (.sym "helper")) : Tail Empty)) (.empty 0) (.plain rfl rfl)
    .unknown
  have hbody := Block.Assembled.tail
    (.value (.bytes (.empty 0) [0x90]) 32 (.sym "table") .unknown) (.times (.const 2) hcalls 0) .unknown
  exact .tail (.tail (.value hb 64 _ .unknown) (.times _ hbody 0) .unknown) (.plain rfl rfl) .unknown

theorem relocs_in_order_importedCalls :
    importedCalls.Assembled ∧ ∃ image, importedCalls.layout.result.toOption = some [image] ∧
      image.relocs.map (fun r => (r.offset, r.size)) =
        [(0, 8), (9, 4), (14, 4), (19, 4), (24, 4), (29, 4), (34, 4), (39, 4)] ∧
      image.relocs.Pairwise (fun r r' => r.offset ≤ r'.offset) ∧
      (∀ r ∈ image.relocs, r.offset + r.size ≤ image.bytes.length) ∧
      ∀ (i j : Nat) (r r' : Reloc), image.relocs[i]? = some r → image.relocs[j]? = some r' → i ≠ j → ∀ x : Nat,
        ¬ ((r.offset ≤ x ∧ x < r.offset + r.size) ∧ r'.offset ≤ x ∧ x < r'.offset + r'.size) := by
  refine ⟨assembled_importedCalls, ?_⟩
  have hplaces : importedCalls.layout.result.toOption.map (·.map fun i => i.relocs.map fun r => (r.offset, r.size)) =
      some [[(0, 8), (9, 4), (14, 4), (19, 4), (24, 4), (29, 4), (34, 4), (39, 4)]] := by
    decide +kernel
  obtain ⟨images, hresult, himages⟩ := Option.map_eq_some_iff.1 hplaces
  obtain ⟨image, rfl, himage⟩ := List.map_eq_singleton_iff.1 himages
  exact ⟨image, hresult, himage,
    relocs_in_order importedCalls assembled_importedCalls (Attempt.ok_of_toOption hresult) List.mem_cons_self⟩

end Object

end SpanLayout
