import SpanLayout.Proofs.Reach

/-!
# Targets that cannot be computed

What a branch holds may have no value in the final layout, for instance because a product in it does not fit a word. A
branch within the object is an error then, as a field with the same value is. A branch to a symbol from elsewhere is
written all the same, and its relocation asks for the symbol itself.
-/

namespace SpanLayout

/-! ## Finalized branches -/

/-- A branch that was finalized where its instruction begins, at `l`, and then went through a relaxation. -/
inductive Branch.Finalized (symbols : SymbolTable) (l : Location) : Branch → Prop
  | finalize {b b' : Branch} {info : FragmentInfo} {diags diags' : Diagnostics} (hl : info.tailLoc = l)
    (h : b.finalize symbols info diags = .done (b', diags') ()) : Finalized symbols l b'
  | measure {b : Branch} (h : Finalized symbols l b) : Finalized symbols l b.measure.state.1
  | expand {b : Branch} (h : Finalized symbols l b) : Finalized symbols l b.expand.state

namespace Branch

variable {symbols : SymbolTable} {l : Location} {b : Branch} {v : Value} {e : Expr} {site : Site} {info : FragmentInfo}
  {symbol : String}

theorem resolved_finalize {b' : Branch} {diags diags' : Diagnostics}
    (h : b.finalize symbols info diags = .done (b', diags') ()) : ∃ v, b'.Resolved symbols info.tailLoc v := by
  unfold finalize at h
  split at h
  · cases congrArg Attempt.result h
  · rename_i v _ hv
    cases h
    exact ⟨v, .of_finalize hv _⟩

theorem Finalized.resolved (h : b.Finalized symbols l) : ∃ v, b.Resolved symbols l v := by
  induction h with
  | finalize hl h =>
    rw [← hl]
    exact resolved_finalize h
  | measure _ ih => exact ih
  | expand _ ih =>
    obtain ⟨v, hv⟩ := ih
    exact ⟨v, hv.lengthen⟩

theorem finalized_state {diags : Diagnostics} (h : (b.finalize symbols info diags).result.toOption.isSome = true) :
    (b.finalize symbols info diags).state.1.Finalized symbols info.tailLoc := by
  obtain ⟨done, hdone⟩ := Option.isSome_iff_exists.1 h
  have hfinalize : b.finalize symbols info diags = .done (b.finalize symbols info diags).state () := by
    rw [Attempt.done, ← Attempt.ok_of_toOption hdone]
  exact .finalize rfl hfinalize

/-! ## Writing a branch -/

/-- How far the target of a branch is from the symbol that it is relative to; nothing if that cannot be computed. -/
def fromSymbol? (site : Site) (info : FragmentInfo) (b : Branch) : Option Int :=
  ((b.value.bind (·.abs)).bind site.eval).map (· + ((site.address info.tailLoc).map signed).getD 0)

/-- The relocation that a branch leaves to be filled in, relative to the end of its displacement. -/
def reloc (site : Site) (at_ : Nat) (info : FragmentInfo) (symbol : String) (b : Branch) : Reloc where
  offset := at_ + b.encoding.opcode.length
  size := b.encoding.dispSize
  symbol := symbol
  addend := (b.fromSymbol? site info).getD 0 - b.encoding.dispSize
  pcRelative := true

theorem addend_reloc_of_none (hv : b.value = some v) (he : v.abs.bind site.eval = none) (at_ : Nat) :
    (b.reloc site at_ info symbol).addend = -b.encoding.dispSize := by
  unfold reloc fromSymbol?
  rw [hv, Option.bind_some, he, Option.map_none, Option.getD_none, Int.zero_sub]

theorem addend_reloc_of_some (hv : b.value = some v) {x : Int} (he : v.abs.bind site.eval = some x) {here : Nat}
    (hhere : site.address info.tailLoc = some here) (at_ : Nat) :
    (b.reloc site at_ info symbol).addend = x + signed here - b.encoding.dispSize := by
  unfold reloc fromSymbol?
  rw [hv, Option.bind_some, he, hhere, Option.map_some, Option.map_some, Option.getD_some, Option.getD_some]

theorem emit_relative (hv : b.value = some v) (hsymbol : v.rel = some symbol) (site : Site) (at_ : Nat)
    (info : FragmentInfo) :
    b.emit site at_ info =
      .ok ⟨b.encoding.opcode ++ List.replicate b.encoding.dispSize 0, [b.reloc site at_ info symbol]⟩ := by
  unfold emit reloc fromSymbol?
  rw [hv]
  dsimp only
  rw [hsymbol, Option.bind_some]
  cases v.abs.bind site.eval with
  | none => rw [Option.map_none, Option.getD_none, Option.getD_none, Int.add_left_neg]
  | some x => rfl

theorem emit_local_of_none (hv : b.value = some v) (hrel : v.rel = none) (he : v.abs.bind site.eval = none)
    (at_ : Nat) : b.emit site at_ info = .error (Cause.tooComplex "branch target" info.source) := by
  unfold emit
  rw [hv]
  dsimp only
  rw [hrel, he]

theorem emit_local_ok (hv : b.value = some v) (hrel : v.rel = none) {at_ : Nat} {out : Emission}
    (h : b.emit site at_ info = .ok out) :
    ∃ (x : Int) (here : Nat), v.abs.bind site.eval = some x ∧ site.address info.tailLoc = some here ∧
      out = .ofBytes (b.encoding.opcode ++ littleEndian b.encoding.dispSize
        (x + signed here - (signed (site.base + at_) + signed b.encoding.len))) := by
  unfold emit at h
  rw [hv] at h
  dsimp only at h
  rw [hrel] at h
  cases hx : v.abs.bind site.eval with
  | none =>
    rw [hx] at h
    cases h
  | some x =>
    cases hhere : site.address info.tailLoc with
    | none =>
      rw [hx, hhere] at h
      cases h
    | some here =>
      rw [hx, hhere] at h
      dsimp only [Option.map_some] at h
      split at h
      · exact ⟨x, here, rfl, rfl, (Except.ok.inj h).symm⟩
      · cases h

end Branch

theorem Site.field_of_none {site : Site} {v : Value} {e : Expr} (he : v.abs = some e) (heval : site.eval e = none)
    (at_ : Nat) {size : Nat} (hsize : 0 < size) (pos : SourcePos) :
    site.field at_ size v pos = .error (Cause.tooComplex "value" pos) := by
  unfold field
  rw [if_neg (Nat.ne_of_gt hsize), he, Option.elim_some, heval]

/-! ## What is written with a fragment -/

/-- The branch that a tail is. -/
def Tail.branch? {κ : Type} : Tail κ → Option Branch
  | .branch b => some b
  | _ => none

theorem Tail.eq_branch {κ : Type} {t : Tail κ} {b : Branch} (h : t.branch? = some b) : t = .branch b := by
  cases t <;> cases h
  rfl

section

variable {κ : Type} [Directive κ]

/-- The fragment `p` is written whenever `f` is: it is `f` itself, or stands in a body that is repeated at least once.
-/
inductive Fragment.Includes : Fragment (Tail κ) → Fragment (Tail κ) → Prop
  | own (f : Fragment (Tail κ)) : Includes f f
  | body {f q p : Fragment (Tail κ)} {count : Expr} {body : Block (Tail κ)} {reps : Nat}
    (ht : f.tail = some (.times count body reps)) (hreps : 0 < reps) (hq : q ∈ body.fragments) (h : Includes q p) :
    Includes f p

theorem emitFragments_mem {site : Site} {at_ : Nat} {fs : List (Fragment (Tail κ))} {e : Emission}
    (h : emitFragments site at_ fs = .ok e) {f : Fragment (Tail κ)} (hf : f ∈ fs) :
    ∃ at' own, f.emit site at' = .ok own ∧ own.relocs ⊆ e.relocs := by
  obtain ⟨before, after, rfl⟩ := List.append_of_mem hf
  obtain ⟨a, b, -, hrest, rfl⟩ := emitFragments_append h
  rw [emitFragments_cons] at hrest
  obtain ⟨own, hown, hrest⟩ := Except.bind_eq_ok hrest
  obtain ⟨rest, -, hrest⟩ := Except.bind_eq_ok hrest
  cases hrest
  refine ⟨_, own, hown, fun r hr => ?_⟩
  exact List.mem_append_right _ (List.mem_append_left _ hr)

theorem Emission.times_first {emit : Nat → Except Error Emission} {n at_ : Nat} (hn : 0 < n) {e : Emission}
    (h : times emit n at_ = .ok e) : ∃ first, emit at_ = .ok first ∧ first.relocs ⊆ e.relocs := by
  obtain ⟨m, rfl⟩ := Nat.exists_eq_add_of_lt hn
  rw [Nat.zero_add, times] at h
  obtain ⟨first, hfirst, h⟩ := Except.bind_eq_ok h
  obtain ⟨rest, -, h⟩ := Except.bind_eq_ok h
  cases h
  exact ⟨first, hfirst, fun r hr => List.mem_append_left _ hr⟩

theorem Fragment.Includes.emit {f p : Fragment (Tail κ)} (h : f.Includes p) {site : Site} {at_ : Nat} {e : Emission}
    (he : f.emit site at_ = .ok e) : ∃ at' own, p.emit site at' = .ok own ∧ own.relocs ⊆ e.relocs := by
  induction h generalizing at_ e with
  | own f => exact ⟨at_, e, he, fun _ hr => hr⟩
  | body ht hreps hq _ ih =>
    obtain ⟨fixed, tail, -, htail, rfl⟩ := Fragment.emit_tail ht he
    rw [Tail.emit] at htail
    obtain ⟨first, hfirst, hsub⟩ := Emission.times_first hreps htail
    obtain ⟨_, own, hown, hsub'⟩ := emitFragments_mem hfirst hq
    obtain ⟨at', own', hown', hsub''⟩ := ih hown
    exact ⟨at', own', hown', fun r hr => List.mem_append_right _ (hsub (hsub' (hsub'' hr)))⟩

namespace Object

/-- A section can be written only if all that is written with it can be. -/
theorem emit_of_sectionImage {u : Object κ} {s : Section κ} {image : Image} (h : u.sectionImage s = .ok image)
    {f p : Fragment (Tail κ)} (hf : f ∈ s.block.fragments) (hp : f.Includes p) {b : Branch}
    (hb : p.tail = some (.branch b)) :
    ∃ at_ out, b.emit ⟨s.start, u.sections.address?⟩ at_ p.info = .ok out ∧ out.relocs ⊆ image.relocs := by
  obtain ⟨e, he, h⟩ := Except.bind_eq_ok h
  cases h
  obtain ⟨_, own, hown, hsub⟩ := emitFragments_mem he hf
  obtain ⟨_, own', hown', hsub'⟩ := hp.emit hown
  obtain ⟨fixed, out, -, hout, rfl⟩ := Fragment.emit_tail hb hown'
  rw [Tail.emit] at hout
  exact ⟨_, out, hout, fun r hr => hsub (hsub' (List.mem_append_right _ hr))⟩

/-- A branch within the object cannot be written if the distance to its target has no value, just as no field can hold
that distance, and then the section has no image either. A branch to a symbol from elsewhere is always written, with one
relocation. It adds what the target has beyond the symbol, as far as that can be added up in words, but nothing of it if
the distance has no value: the branch then leads to the symbol itself. -/
theorem uncomputable_target_fails_unless_external (u : Object κ) (s : Section κ) (p : Fragment (Tail κ)) {b : Branch}
    (hp : p.tail = some (.branch b)) {symbols : SymbolTable} (hb : b.Finalized symbols p.info.tailLoc) :
    let site : Site := ⟨s.start, u.sections.address?⟩
    ∃ (v : Value) (distance : Expr), b.Resolved symbols p.info.tailLoc v ∧
      (v.minusLoc p.info.tailLoc).abs = some distance ∧
      (site.eval distance = none → ∀ at_ size pos, 0 < size →
        site.field at_ size (v.minusLoc p.info.tailLoc) pos = .error (Cause.tooComplex "value" pos)) ∧
      (v.rel = none →
        (site.eval distance = none →
          ∀ at_, b.emit site at_ p.info = .error (Cause.tooComplex "branch target" p.source)) ∧
        (∀ at_ out, b.emit site at_ p.info = .ok out →
          ∃ (x : Int) (here : Nat), site.eval distance = some x ∧ site.address p.info.tailLoc = some here ∧
            out = .ofBytes (b.encoding.opcode ++ littleEndian b.encoding.dispSize
              (x + signed here - (signed (s.start + at_) + signed b.encoding.len)))) ∧
        ∀ f ∈ s.block.fragments, f.Includes p → ∀ image, u.sectionImage s = .ok image →
          ∃ x, site.eval distance = some x) ∧
      ∀ symbol, v.rel = some symbol →
        (∀ at_, b.emit site at_ p.info =
          .ok ⟨b.encoding.opcode ++ List.replicate b.encoding.dispSize 0, [b.reloc site at_ p.info symbol]⟩) ∧
        (∀ at_ x here y a, site.eval distance = some x → site.address p.info.tailLoc = some here →
          checked (x + signed here) = some y → checked (y - b.encoding.dispSize) = some a →
          (b.reloc site at_ p.info symbol).addend = a) ∧
        (site.eval distance = none → ∀ at_, (b.reloc site at_ p.info symbol).addend = -b.encoding.dispSize) ∧
        ∀ f ∈ s.block.fragments, f.Includes p → ∀ image, u.sectionImage s = .ok image →
          ∃ at_, b.reloc site at_ p.info symbol ∈ image.relocs := by
  intro site
  obtain ⟨v, hv⟩ := hb.resolved
  refine ⟨v, _, hv, rfl, fun hnone at_ size pos hsize => Site.field_of_none rfl hnone at_ hsize pos, ?_, ?_⟩
  · intro hrel
    refine ⟨fun hnone at_ => Branch.emit_local_of_none hv.value hrel hnone at_, fun at_ out hout => ?_, ?_⟩
    · exact Branch.emit_local_ok hv.value hrel hout
    · intro f hf hincludes image himage
      obtain ⟨at_, out, hout, -⟩ := emit_of_sectionImage himage hf hincludes hp
      obtain ⟨x, -, hx, -⟩ := Branch.emit_local_ok hv.value hrel hout
      exact ⟨x, hx⟩
  · intro symbol hrel
    have hemit := Branch.emit_relative (v := v.minusLoc p.info.tailLoc) hv.value hrel site
    refine ⟨fun at_ => hemit at_ p.info, fun at_ x here y a hx hhere hy ha => ?_, fun hnone at_ => ?_, ?_⟩
    · rw [Branch.addend_reloc_of_some hv.value hx hhere at_, Expr.eq_of_checked ha, Expr.eq_of_checked hy]
    · exact Branch.addend_reloc_of_none hv.value hnone at_
    · intro f hf hincludes image himage
      obtain ⟨at_, out, hout, hsub⟩ := emit_of_sectionImage himage hf hincludes hp
      obtain rfl := Except.ok.inj ((hemit at_ p.info).symm.trans hout)
      exact ⟨at_, hsub List.mem_cons_self⟩

/-- A call of a function from elsewhere, with an offset that is 2 times `2 ^ 62`. -/
def droppedProduct : Object Empty :=
  let o := (Object.empty .standard).addSection ".text" 2
  let o := (o.defineLabel 0 "a" .unknown).state
  o.modifyBlock 0
    (·.appendTail (.branch (.call (.sum [.sym "printf", .mul (.sym "a") (.const (2 ^ 62))]))) .unknown)

/-- The offset has no value, and the call is laid out without it. -/
theorem product_dropped_from_call :
    let u := droppedProduct.layout.object
    let distance := Expr.sum [.mul (.loc ⟨⟨0, 0⟩, 0⟩) (.const (2 ^ 62)), .neg (.loc ⟨⟨0, 1⟩, 0⟩)]
    (((u.sections.fragment? ⟨0, 1⟩).bind (·.tail)).bind Tail.branch?).bind (·.value) =
      some ⟨some distance, some "printf", 0, true⟩ ∧
    (Site.mk 2 u.sections.address?).eval distance = none ∧
    droppedProduct.layout.result.toOption =
      some [⟨".text", 2, [0xE8, 0, 0, 0, 0], [⟨1, 4, "printf", -4, true⟩]⟩] := by
  intro u distance
  refine ⟨?_, ?_, ?_⟩ <;> decide +kernel

/-- The same call, and another section with a jump to the product. -/
def productTargets : Object Empty :=
  (droppedProduct.addSection ".init" 0).modifyBlock 1
    (·.appendTail (.branch (.jump (.mul (.sym "a") (.const (2 ^ 62))))) .unknown)

theorem uncomputable_target_productTargets :
    let symbols := productTargets.symbols
    let u := productTargets.layout.object
    ∃ (text init : Section Empty) (p q : Fragment (Tail Empty)) (b c : Branch),
      u.sections = [text, init] ∧ p ∈ text.block.fragments ∧ q ∈ init.block.fragments ∧
      p.tail = some (.branch b) ∧ b.Finalized symbols p.info.tailLoc ∧
      q.tail = some (.branch c) ∧ c.Finalized symbols q.info.tailLoc ∧
      b.emit ⟨2, u.sections.address?⟩ 0 p.info = .ok ⟨[0xE8, 0, 0, 0, 0], [⟨1, 4, "printf", -4, true⟩]⟩ ∧
      c.emit ⟨0, u.sections.address?⟩ 0 q.info = .error (Cause.tooComplex "branch target" .unknown) ∧
      ∀ image, u.sectionImage init ≠ .ok image := by
  intro symbols u
  let call := (Branch.call (.sum [.sym "printf", .mul (.sym "a") (.const (2 ^ 62))])).finalize symbols
    ⟨⟨0, 1⟩, 0, 0, 0, 0, .unknown⟩ (.empty 64)
  let jump := (Branch.jump (.mul (.sym "a") (.const (2 ^ 62)))).finalize symbols
    ⟨⟨1, 1⟩, 0, 0, 0, 0, .unknown⟩ (.empty 64)
  have hcall : call.result.toOption.isSome = true := by decide +kernel
  have hjump : jump.result.toOption.isSome = true := by decide +kernel
  let b := call.state.1
  let c := jump.state.1.expand.state
  have hb : b.Finalized symbols ⟨⟨0, 1⟩, 0⟩ := Branch.finalized_state hcall
  have hc : c.Finalized symbols ⟨⟨1, 1⟩, 0⟩ := .expand (Branch.finalized_state hjump)
  have hstarts : u.sections.map (·.start) = [2, 0] := by decide +kernel
  have hcall : (u.sections.fragment? ⟨0, 1⟩).map (fun f => (f.tail.bind Tail.branch?, f.info.tailLoc)) =
      some (some b, ⟨⟨0, 1⟩, 0⟩) := by
    decide +kernel
  have hjump : (u.sections.fragment? ⟨1, 1⟩).map (fun f => (f.tail.bind Tail.branch?, f.info.tailLoc, f.source)) =
      some (some c, ⟨⟨1, 1⟩, 0⟩, .unknown) := by
    decide +kernel
  have hencoding : b.encoding = ⟨[0xE8], 4⟩ := by decide +kernel
  have hbrel : b.value.bind (·.rel) = some "printf" := by decide +kernel
  have hbnone : (b.value.bind (·.abs)).bind (Site.mk 2 u.sections.address?).eval = none := by decide +kernel
  have hcrel : c.value.bind (·.rel) = none := by decide +kernel
  have hcnone : (c.value.bind (·.abs)).bind (Site.mk 0 u.sections.address?).eval = none := by decide +kernel
  clear_value u b c
  obtain ⟨text, rest, hsections, hstart, hrest⟩ := List.map_eq_cons_iff.1 hstarts
  obtain ⟨init, rfl, hstart'⟩ := List.map_eq_singleton_iff.1 hrest
  obtain ⟨p, hp, hfields⟩ := Option.map_eq_some_iff.1 hcall
  obtain ⟨hpb, hploc⟩ := Prod.mk.inj hfields
  obtain ⟨t, hpt, ht⟩ := Option.bind_eq_some_iff.1 hpb
  obtain rfl := Tail.eq_branch ht
  obtain ⟨q, hq, hfields⟩ := Option.map_eq_some_iff.1 hjump
  obtain ⟨hqc, hfields⟩ := Prod.mk.inj hfields
  obtain ⟨hqloc, hsource⟩ := Prod.mk.inj hfields
  obtain ⟨t, hqt, ht⟩ := Option.bind_eq_some_iff.1 hqc
  obtain rfl := Tail.eq_branch ht
  unfold Sections.fragment? at hp hq
  rw [hsections] at hp hq
  have hpmem : p ∈ text.block.fragments := List.mem_of_getElem? hp
  have hqmem : q ∈ init.block.fragments := List.mem_of_getElem? hq
  obtain ⟨v, distance, hv, habs, -, -, hexternal⟩ :=
    uncomputable_target_fails_unless_external u text p hpt (hploc ▸ hb)
  obtain ⟨v', distance', hv', habs', -, hlocal, -⟩ :=
    uncomputable_target_fails_unless_external u init q hqt (hqloc ▸ hc)
  rw [hstart] at hexternal
  rw [hstart'] at hlocal
  rw [hv.value, Option.bind_some] at hbrel hbnone
  rw [hv'.value, Option.bind_some] at hcrel hcnone
  rw [habs, Option.bind_some] at hbnone
  rw [habs', Option.bind_some] at hcnone
  obtain ⟨hemit, -, haddend, -⟩ := hexternal "printf" hbrel
  obtain ⟨herror, -, himage⟩ := hlocal hcrel
  refine ⟨text, init, p, q, b, c, hsections, hpmem, hqmem, hpt, hploc ▸ hb, hqt, hqloc ▸ hc, ?_, ?_, ?_⟩
  · have hreloc : b.reloc ⟨2, u.sections.address?⟩ 0 p.info "printf" =
        ⟨0 + b.encoding.opcode.length, b.encoding.dispSize, "printf", -b.encoding.dispSize, true⟩ := by
      rw [← haddend hbnone 0]
      rfl
    rw [hemit 0, hreloc, hencoding]
    rfl
  · rw [herror hcnone 0, hsource]
  · intro image hok
    obtain ⟨x, hx⟩ := himage q hqmem (.own q) image hok
    cases hx.symm.trans hcnone

end Object

end

end SpanLayout
