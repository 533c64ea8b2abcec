import SpanLayout.Proofs.Lay
import SpanLayout.Proofs.Reach
import SpanLayout.Proofs.Relocs

/-!
# Branches to symbols from elsewhere

A branch to a symbol from elsewhere is written in its long form, with zeros for the displacement and one relocation for
it, in every copy of what is repeated. Once a linker has stored what the relocation asks for, each copy leads to the
symbol.
-/

namespace SpanLayout

variable {κ : Type}

/-! ## Copies at every depth -/

/-- The fragment `f`, written at an offset, writes `p` at another one: it is `p` itself, or it repeats a fragment that
writes `p`. -/
inductive Fragment.Writes : Fragment (Tail κ) → Nat → Fragment (Tail κ) → Nat → Prop
  | own (f : Fragment (Tail κ)) (at_ : Nat) : Writes f at_ f at_
  | copy {f q p : Fragment (Tail κ)} {count : Expr} {body : Block (Tail κ)} {reps i j at_ at' : Nat}
    (ht : f.tail = some (.times count body reps)) (hq : body.fragments[i]? = some q) (hj : j < reps)
    (h : Writes q
      (at_ + f.fixedLen + Fragment.sumLen body.fragments * j + Fragment.sumLen (body.fragments.take i)) p at') :
    Writes f at_ p at'

/-- What the fragment `f` writes at the end of a path: each step chooses one of the copies and a fragment in it. -/
def Fragment.written? (f : Fragment (Tail κ)) (at_ : Nat) : List (Nat × Nat) → Option (Fragment (Tail κ) × Nat)
  | [] => some (f, at_)
  | (j, i) :: path =>
    match f.tail with
    | some (.times _ body reps) =>
      if j < reps then body.fragments[i]?.bind fun q => q.written?
        (at_ + f.fixedLen + Fragment.sumLen body.fragments * j + Fragment.sumLen (body.fragments.take i)) path
      else none
    | _ => none

/-- A section writes `p` at an offset, in one of its fragments. -/
def Section.Writes (s : Section κ) (p : Fragment (Tail κ)) (at_ : Nat) : Prop :=
  ∃ f ∈ s.block.fragments, f.Writes f.offset p at_

theorem Emission.append_empty (e : Emission) : e ++ Emission.empty = e := by
  show Emission.mk (e.bytes ++ []) (e.relocs ++ []) = e
  rw [List.append_nil, List.append_nil]

theorem Emission.append_assoc (a b c : Emission) : a ++ b ++ c = a ++ (b ++ c) := by
  show Emission.mk (a.bytes ++ b.bytes ++ c.bytes) (a.relocs ++ b.relocs ++ c.relocs) = _
  rw [List.append_assoc, List.append_assoc]
  rfl

namespace Fragment.Writes

variable {f p : Fragment (Tail κ)} {at_ at' : Nat}

theorem emitted [Directive κ] [LawfulDirective κ] (h : f.Writes at_ p at') (hf : f.Exact) {site : Site} {e : Emission}
    (he : f.emit site at_ = .ok e) :
    ∃ before own after, p.emit site at' = .ok own ∧ at_ + before.length = at' ∧ e = before ++ (own ++ after) := by
  induction h generalizing e with
  | own f at_ =>
    refine ⟨.empty, e, .empty, he, rfl, ?_⟩
    rw [Emission.append_empty]
    rfl
  | @copy f q p count body reps i j at_ at' ht hq hj _ ih =>
    rw [Fragment.exact_of_some ht, Tail.Exact] at hf
    obtain ⟨fixed, tail, hfixed, htail, rfl⟩ := Fragment.emit_tail ht he
    rw [Tail.emit] at htail
    obtain ⟨before, copy, after, hbefore, hcopy, rfl⟩ :=
      Emission.times_at (fun at_ e h => length_emitFragments _ at_ _ hf.2 h) htail hj
    obtain ⟨before', own, after', -, hbefore', hown, -, rfl⟩ := emitFragments_at hf.2 hcopy hq
    obtain ⟨before'', own', after'', hemit, hlen, rfl⟩ :=
      ih ((exactFragments_iff _).1 hf.2 q (List.mem_of_getElem? hq)) hown
    refine ⟨fixed ++ (before ++ (before' ++ before'')), own', after'' ++ (after' ++ after), hemit, ?_, ?_⟩
    · simp only [Emission.length_append]
      omega
    · simp only [Emission.append_assoc]

theorem deeply (h : f.Writes at_ p at') {P : Fragment (Tail κ) → Prop} (hf : f.Deeply P) : p.Deeply P := by
  induction h with
  | own f at_ => exact hf
  | @copy f q _ _ body _ _ _ _ _ ht hq _ _ ih =>
    have hbody : DeeplyAll P body.fragments := (f.deeply_iff.1 hf).2 _ ht
    exact ih ((deeplyAll_iff _).1 hbody q (List.mem_of_getElem? hq))

theorem of_written? {path : List (Nat × Nat)} (h : f.written? at_ path = some (p, at')) : f.Writes at_ p at' := by
  induction path generalizing f at_ with
  | nil =>
    cases h
    exact .own _ _
  | cons step path ih =>
    rw [written?] at h
    split at h
    case h_1 _ body reps ht =>
      split at h
      · rename_i hj
        obtain ⟨q, hq, h⟩ := Option.bind_eq_some_iff.1 h
        exact .copy ht hq hj (ih h)
      · cases h
    case h_2 => cases h

theorem le (h : f.Writes at_ p at') : at_ ≤ at' := by
  induction h with
  | own f at_ => exact le_rfl
  | copy _ _ _ _ ih => omega

end Fragment.Writes

/-! ## Names -/

namespace Sections

theorem refsMatch_setFragment {ss : Sections κ} {r : FragmentRef} {f g : Fragment (Tail κ)} (h : ss.RefsMatch)
    (hf : ss.fragment? r = some f) (hg : g.ref = f.ref) : (ss.setFragment r g).RefsMatch := by
  intro r' f' hf'
  by_cases hr : r = r'
  · subst hr
    rw [fragment?_setFragment_self hf] at hf'
    obtain rfl := Option.some.inj hf'
    exact hg.trans (h r f hf)
  · rw [fragment?_setFragment_ne hr] at hf'
    exact h r' f' hf'

variable [Directive κ]

theorem refs_layFragments (offset : Nat) (diags : Diagnostics) (fs : List (Fragment (Tail κ))) :
    (layFragments offset diags fs).1.map Fragment.ref = fs.map Fragment.ref := by
  induction fs generalizing offset diags with
  | nil => rfl
  | cons f fs ih =>
    have href : (f.moveTo offset).state.ref = f.ref := by
      unfold Fragment.moveTo
      dsimp only
      split
      · exact (Fragment.evolves_expand 1 0 _ { f with offset }).ref
      · rfl
    exact congrArg₂ (· :: ·) href (ih _ _)

theorem endures_refsMatch : Endures (κ := κ) RefsMatch where
  expand id old new h hf := refsMatch_setFragment h hf (Fragment.evolves_expand id old new _).ref
  lay {ss} diags h := by
    intro r g hg
    have hrefs := congrArg (·[r.index]?) (refs_layFragments 0 diags (ss.fragmentsOf r.sectionIndex))
    rw [fragment?_eq, fragmentsOf_lay diags diags] at hg
    simp only [List.getElem?_map, hg, Option.map_some] at hrefs
    obtain ⟨f, hf, hfg⟩ := Option.map_eq_some_iff.1 hrefs.symm
    exact hfg.symm.trans (h r f (by rw [fragment?_eq]; exact hf))

theorem refsMatch_relax {config : Config} {diags : Diagnostics} {ss : Sections κ} {t : Relaxation κ}
    {stats : Stats} (hr : ss.RefsMatch) (h : ss.relax config diags = .done t stats) : t.sections.RefsMatch := by
  have hsurvey : RefsMatch (Relaxation.surveySections 0 0 diags ss).measured := by
    intro r g hg
    obtain ⟨f, at_, hf, rfl⟩ := (Relaxation.origins_surveySections 0 0 diags ss).1 r g hg
    exact (Fragment.evolves_measureAt at_ _).ref.trans (hr r f hf)
  have hrelax := endures_refsMatch.relax config diags hsurvey
  rw [h] at hrelax
  exact hrelax

end Sections

/-! ## Branches -/

/-- A fragment called `r` whose branch, if it has one, was resolved where the instruction begins. -/
structure Fragment.Resolved (symbols : SymbolTable) (r : FragmentRef) (p : Fragment (Tail κ)) : Prop where
  ref : p.ref = r
  branch : ∀ b, p.tail = some (.branch b) → ∃ v, b.Resolved symbols ⟨r, p.fixedLen⟩ v

namespace Fragment.Resolved

variable {symbols : SymbolTable}

theorem lasting (r : FragmentRef) : Lasting (κ := κ) (Fragment.Resolved symbols r) := by
  intro f g hfg hf
  refine ⟨hfg.ref.trans hf.ref, fun b hb => ?_⟩
  obtain ⟨b', hb', hform⟩ := hfg.branch b hb
  obtain ⟨v, hv⟩ := hf.branch b' hb'
  rw [show g.fixedLen = f.fixedLen from congrArg List.length hfg.fixed]
  rcases hform with rfl | rfl
  · exact ⟨v, hv⟩
  · exact ⟨v, hv.lengthen⟩

theorem of_finalizesTo [Directive κ] [CandidDirective κ] {owner : Option FragmentRef} {f g : Fragment (Tail κ)}
    (h : f.FinalizesTo symbols owner g) : Fragment.Resolved symbols g.ref g := by
  refine ⟨rfl, fun b hb => ?_⟩
  obtain ⟨fixups, -, ⟨hnone, rfl⟩ | ⟨t, t', -, rfl, htail⟩⟩ := h.cases
  · exact absurd (hnone.symm.trans hb) nofun
  · obtain rfl : t' = .branch b := Option.some.inj hb
    exact htail.resolved

end Fragment.Resolved

theorem Branch.emit_external {b : Branch} (hform : b.form = .long) {v : Value} (hv : b.value = some v) {symbol : String}
    (hsymbol : v.rel = some symbol) {e : Expr} (he : v.abs = some e) {site : Site} {at_ here : Nat}
    {info : FragmentInfo} (hhere : site.address info.tailLoc = some here) (hw : signed here = here) {a : Int}
    (ha : site.eval e = some (a - here)) :
    b.emit site at_ info = .ok ⟨b.long.opcode ++ List.replicate b.long.dispSize 0,
      [⟨at_ + b.long.opcode.length, b.long.dispSize, symbol, a - b.long.dispSize, true⟩]⟩ := by
  have hencoding : b.encoding = b.long := by
    unfold encoding shortInUse?
    rw [hform]
    rfl
  unfold Branch.emit
  simp only [hencoding, hv, hsymbol, hhere, he, ha, hw, Option.bind_some, Option.map_some, Option.getD_some,
    sub_add_cancel]

/-! ## Linking -/

/-- The bytes of an image once an integer has been stored in the field of a relocation. -/
def Image.store (i : Image) (r : Reloc) (x : Int) : List UInt8 :=
  i.bytes.take r.offset ++ (littleEndian r.size x ++ i.bytes.drop (r.offset + r.size))

/-- The integer that is stored in the field of a relocation. -/
def Reloc.stored (r : Reloc) (bytes : List UInt8) : Int := signedOf ((bytes.drop r.offset).take r.size)

theorem Image.stored_store {i : Image} {r : Reloc} (hr : r.offset ≤ i.bytes.length) {x : Int}
    (hl : -256 ^ r.size ≤ x * 2) (hh : x * 2 < 256 ^ r.size) : r.stored (i.store r x) = x := by
  unfold Reloc.stored store
  rw [List.drop_left' (by rw [List.length_take]; omega), List.take_left' (littleEndian_length _ _)]
  exact signedOf_littleEndian hl hh

namespace Object

variable [Directive κ] [CandidDirective κ] {o : Object κ} {images : List Image} {k : Nat} {s : Section κ}
    {p : Fragment (Tail κ)} {at_ : Nat}

theorem Assembled.resolved_layout (ho : o.Assembled) (h : o.layout.result = .ok images) :
    o.layout.object.sections.Deeply (Fragment.Resolved o.symbols) :=
  Object.deeply_layout Fragment.Resolved.lasting (fun _ _ _ hfg _ => Fragment.Resolved.of_finalizesTo hfg)
    ho.deeply_fresh h

theorem Assembled.refsMatch_layout (ho : o.Assembled) (h : o.layout.result = .ok images) :
    o.layout.object.sections.RefsMatch := by
  obtain ⟨t, stats, -, hrelax, hobject, -⟩ := layout_ok h
  rw [hobject]
  exact Sections.refsMatch_relax (ho.built.finalize _).refsMatch hrelax

theorem Assembled.long_of_external (ho : o.Assembled) (h : o.layout.result = .ok images)
    (hs : o.layout.object.sections[k]? = some s) (hp : s.Writes p at_) {b : Branch} (hb : p.tail = some (.branch b))
    {v : Value} (hv : b.value = some v) {symbol : String} (hsymbol : v.rel = some symbol) : b.form = .long := by
  obtain ⟨f, hf, hwrites⟩ := hp
  have hdeep := hwrites.deeply (ho.resolved_layout h s (List.mem_of_getElem? hs) f hf)
  obtain ⟨v', hv'⟩ := (p.deeply_iff.1 hdeep).1.branch b hb
  refine hv'.relative ?_
  obtain rfl : v = v'.minusLoc _ := Option.some.inj (hv.symm.trans hv'.value)
  exact Option.isSome_iff_exists.2 ⟨symbol, hsymbol⟩

variable [LawfulDirective κ]

/-- What a section of a layout writes is in its image. -/
theorem written_layout (h : o.layout.result = .ok images) (hs : o.layout.object.sections[k]? = some s)
    (hp : s.Writes p at_) :
    ∃ (image : Image) (before own after : Emission), images[k]? = some image ∧
    p.emit (o.layout.object.site k) at_ = .ok own ∧
      before.length = at_ ∧ image.bytes = before.bytes ++ (own.bytes ++ after.bytes) ∧
      image.relocs = before.relocs ++ (own.relocs ++ after.relocs) := by
  obtain ⟨image, himage, hwritten⟩ := written_of_layout h hs
  obtain ⟨f, hf, hwrites⟩ := hp
  obtain ⟨i, hi⟩ := List.mem_iff_getElem?.1 hf
  obtain ⟨before, own, after, -, hbefore, hown, -, he⟩ :=
    emitFragments_split hwritten.placed hwritten.exact hwritten.emitted hi
  obtain ⟨before', own', after', hemit, hlen, rfl⟩ :=
    hwrites.emitted ((exactFragments_iff _).1 hwritten.exact f hf) hown
  refine ⟨image, before ++ before', own', after' ++ after, himage, hemit, ?_, ?_, ?_⟩
  · rw [Emission.length_append, hbefore, hlen]
  · exact (congrArg Emission.bytes he).trans (by simp)
  · exact (congrArg Emission.relocs he).trans (by simp)

theorem Assembled.here_le (ho : o.Assembled) (h : o.layout.result = .ok images)
    (hs : o.layout.object.sections[k]? = some s) (hp : s.Writes p at_) {t : Tail κ} (ht : p.tail = some t)
    {here : Nat} (hhere : o.layout.object.sections.address? ⟨p.ref, p.fixedLen⟩ = some here) :
    here ≤ s.start + s.size := by
  obtain ⟨image, himage, hwritten⟩ := written_of_layout h hs
  obtain ⟨image', before, own, after, himage', hown, hbefore, hbytes, -⟩ := written_layout h hs hp
  obtain rfl : image' = image := Option.some.inj (himage'.symm.trans himage)
  obtain ⟨f, hf, hwrites⟩ := hp
  obtain ⟨i, hi⟩ := List.mem_iff_getElem?.1 hf
  have hfragment : o.layout.object.sections.fragment? ⟨k, i⟩ = some f := by
    unfold Sections.fragment?
    rw [hs]
    exact hi
  have href : p.ref = ⟨k, i⟩ := by
    have hdeep := hwrites.deeply (ho.resolved_layout h s (List.mem_of_getElem? hs) f hf)
    exact (p.deeply_iff.1 hdeep).1.ref.trans (ho.refsMatch_layout h _ _ hfragment)
  have hvalue : here = s.start + (f.offset + p.fixedLen) := by
    unfold Sections.address? Sections.offset? at hhere
    rw [href, hfragment] at hhere
    simpa [hs] using hhere.symm
  obtain ⟨fixed, tail, hfixed, -, rfl⟩ := Fragment.emit_tail ht hown
  have hend : at_ + p.fixedLen ≤ image'.bytes.length := by
    rw [hbytes, List.length_append, List.length_append]
    show at_ + _ ≤ before.length + ((fixed ++ tail).length + _)
    rw [Emission.length_append]
    omega
  have hle := hwrites.le
  rw [hwritten.length_bytes] at hend
  omega

/-- A copy of a branch to a symbol from elsewhere is long, with one relocation for its displacement, and no other
relocation touches that unless a custom directive writes one where it should not. Whatever address the symbol gets,
storing what the relocation asks for makes the branch lead to that address and as far beyond it as the target says. -/
theorem external_branches_link (o : Object κ) (ho : o.Assembled) {images : List Image}
    (h : o.layout.result = .ok images) (hends : ∀ s ∈ o.layout.object.sections, s.start + s.size < 2 ^ 63) {k : Nat}
    {s : Section κ} (hs : o.layout.object.sections[k]? = some s) {p : Fragment (Tail κ)} {at_ : Nat}
    (hp : s.Writes p at_) {b : Branch} (hb : p.tail = some (.branch b)) {v : Value} (hv : b.value = some v)
    {symbol : String} (hsymbol : v.rel = some symbol) {e : Expr} (he : v.abs = some e) {here : Nat}
    (hhere : o.layout.object.sections.address? ⟨p.ref, p.fixedLen⟩ = some here) {a : Int}
    (ha : (o.layout.object.site k).eval e = some (a - here)) :
    b.form = .long ∧ ∃ (image : Image) (r : Reloc) (before after : Emission), images[k]? = some image ∧
      b.emit (o.layout.object.site k) (at_ + p.fixedLen) p.info =
        .ok ⟨b.long.opcode ++ List.replicate b.long.dispSize 0, [r]⟩ ∧
      before.length = at_ + p.fixedLen ∧
      image.bytes = before.bytes ++ (b.long.opcode ++ List.replicate b.long.dispSize 0 ++ after.bytes) ∧
      image.relocs = before.relocs ++ r :: after.relocs ∧
      (Directive.Spaced κ → (∀ x ∈ before.relocs, x.offset + x.size ≤ r.offset) ∧
        ∀ x ∈ after.relocs, r.offset + r.size ≤ x.offset) ∧
      r.symbol = symbol ∧ r.pcRelative = true ∧ r.offset = at_ + p.fixedLen + b.long.opcode.length ∧
      r.size = b.long.dispSize ∧
      ∀ address stored : Int, stored = address + r.addend - (s.start + r.offset : Nat) →
        (s.start + r.offset + r.size : Nat) + stored = address + a ∧
        (-256 ^ r.size ≤ stored * 2 → stored * 2 < 256 ^ r.size → r.stored (image.store r stored) = stored) := by
  have hlong := ho.long_of_external h hs hp hb hv hsymbol
  have hhere_le := ho.here_le h hs hp hb hhere
  have hend := hends s (List.mem_of_getElem? hs)
  have hemit : ∀ x, b.emit (o.layout.object.site k) x p.info = .ok ⟨b.long.opcode ++ List.replicate b.long.dispSize 0,
      [⟨x + b.long.opcode.length, b.long.dispSize, symbol, a - b.long.dispSize, true⟩]⟩ := fun x =>
    Branch.emit_external hlong hv hsymbol he hhere (signed_eq _ (by omega)) ha
  obtain ⟨image, before, own, after, himage, hown, hbefore, hbytes, hrelocs⟩ := written_layout h hs hp
  obtain ⟨fixed, tail, hfixed, htail, rfl⟩ := Fragment.emit_tail hb hown
  obtain rfl := Except.ok.inj ((hemit _).symm.trans htail)
  rw [Emission.append_bytes, List.append_assoc, ← List.append_assoc, ← Emission.append_bytes] at hbytes
  rw [Emission.append_relocs, List.append_assoc, ← List.append_assoc, ← Emission.append_relocs] at hrelocs
  have hlen : (before ++ fixed).length = at_ + p.fixedLen := by rw [Emission.length_append, hbefore, hfixed]
  refine ⟨hlong, image, _, before ++ fixed, after, himage, hemit _, hlen, hbytes, hrelocs, ?_, rfl, rfl, rfl, rfl, ?_⟩
  · intro hκ
    have hapart := (spaced_images hκ ho h (List.mem_of_getElem? himage)).apart
    rw [hrelocs] at hapart
    obtain ⟨-, hafter, hbefore'⟩ := List.pairwise_append.1 hapart
    exact ⟨fun x hx => hbefore' x hx _ List.mem_cons_self, (List.pairwise_cons.1 hafter).1⟩
  · intro address stored hstored
    refine ⟨?_, Image.stored_store ?_⟩
    · rw [hstored]
      push_cast
      ring
    · rw [hbytes]
      simp only [Emission.length] at hlen
      simp only [List.length_append]
      omega

/-- Whether a fragment that is written at offset 33 is a call of the symbol from elsewhere. -/
def isImportedCall (x : Fragment (Tail Empty) × Nat) : Bool :=
  match x.1.tail with
  | some (.branch b) => decide (x.1.ref = ⟨0, 1⟩ ∧ x.1.fixedLen = 0 ∧ x.2 = 33 ∧ b.long = ⟨[0xE8], 4⟩ ∧
      b.value = some ⟨some (.neg (.loc ⟨⟨0, 1⟩, 0⟩)), some "helper", 0, true⟩)
  | _ => false

/-- The last of the calls, in the second copy of the second copy. -/
theorem external_branches_link_importedCalls :
    importedCalls.Assembled ∧ ∃ (images : List Image) (p : Fragment (Tail Empty)) (b : Branch),
      importedCalls.layout.result = .ok images ∧ p.tail = some (.branch b) ∧ b.form = .long ∧
      (∃ s, importedCalls.layout.object.sections[0]? = some s ∧ s.Writes p 33) ∧
      ∃ image r, images[0]? = some image ∧ r ∈ image.relocs ∧ r.offset = 34 ∧ r.size = 4 ∧ r.symbol = "helper" ∧
        ∀ address stored : Int, stored = address + r.addend - (4096 + 34) → 4096 + 34 + 4 + stored = address := by
  refine ⟨assembled_importedCalls, ?_⟩
  have hok : importedCalls.layout.result.toOption.isSome = true := by decide +kernel
  have hends : importedCalls.layout.object.sections.all (fun s => s.start + s.size < 2 ^ 63) = true := by decide +kernel
  have hstart : importedCalls.layout.object.sections[0]?.map (·.start) = some 4096 := by decide +kernel
  have hhere : importedCalls.layout.object.sections.address? ⟨⟨0, 1⟩, 0⟩ = some 4104 := by decide +kernel
  have heval : (importedCalls.layout.object.site 0).eval (.neg (.loc ⟨⟨0, 1⟩, 0⟩)) =
      some ((0 : Int) - (4104 : Nat)) := by
    decide +kernel
  have hcall : ((importedCalls.layout.object.sections.fragment? ⟨0, 1⟩).bind fun f =>
      f.written? f.offset [(1, 1), (1, 1)]).any isImportedCall = true := by
    decide +kernel
  obtain ⟨images, himages⟩ := Option.isSome_iff_exists.1 hok
  have h := Attempt.ok_of_toOption himages
  obtain ⟨s, hs, hstart⟩ := Option.map_eq_some_iff.1 hstart
  obtain ⟨⟨p, at_⟩, hx, hcall⟩ := (Option.any_eq_true _ _).1 hcall
  obtain ⟨f, hf, hwritten⟩ := Option.bind_eq_some_iff.1 hx
  have hp : s.Writes p at_ := by
    refine ⟨f, ?_, .of_written? hwritten⟩
    unfold Sections.fragment? at hf
    rw [hs] at hf
    exact List.mem_of_getElem? hf
  unfold isImportedCall at hcall
  split at hcall
  case h_2 => cases hcall
  case h_1 b hb =>
    obtain ⟨href, hfixed, rfl, hlong, hvalue⟩ := of_decide_eq_true hcall
    obtain ⟨hform, image, r, before, after, himage, -, -, -, hrelocs, -, hsymbol, -, hoffset, hsize, hlink⟩ :=
      external_branches_link importedCalls assembled_importedCalls h
        (fun s hs => of_decide_eq_true (List.all_eq_true.1 hends s hs)) hs hp hb hvalue rfl rfl
        (by rw [href, hfixed]; exact hhere) heval
    rw [hfixed, hlong] at hoffset
    rw [hlong] at hsize
    refine ⟨images, p, b, h, hb, hform, ⟨s, hs, hp⟩, image, r, himage, ?_, hoffset, hsize, hsymbol, ?_⟩
    · rw [hrelocs]
      exact List.mem_append_right _ List.mem_cons_self
    · intro address stored hstored
      have hdestination := (hlink address stored (by rw [hstored, hstart, hoffset]; rfl)).1
      rw [hstart, hoffset, hsize] at hdestination
      exact hdestination.trans (Int.add_zero _)

end Object

end SpanLayout
