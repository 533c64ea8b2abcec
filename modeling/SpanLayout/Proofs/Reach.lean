import SpanLayout.Proofs.Bytes
import SpanLayout.Proofs.Relaxation.Persistence
import SpanLayout.Proofs.Relaxation.Solution

/-!
# Branches reach their targets

Every instruction that a branch is written as, in every copy of a repetition's body, holds the distance from its own end
to its target. All copies have the form that is short enough for the first and for the last one, so it is short enough
for those between.
-/

namespace SpanLayout

/-! ## Copies -/

theorem Emission.times_at {emit : Nat → Except Error Emission} {len : Nat}
    (hemit : ∀ at_ e, emit at_ = .ok e → e.length = len) {n at_ : Nat} {e : Emission} (h : times emit n at_ = .ok e)
    {j : Nat} (hj : j < n) :
    ∃ before own after, before.length = len * j ∧ emit (at_ + len * j) = .ok own ∧ e = before ++ (own ++ after) := by
  induction n generalizing at_ e j with
  | zero => exact nomatch hj
  | succ n ih =>
    rw [times] at h
    obtain ⟨first, hfirst, h⟩ := Except.bind_eq_ok h
    obtain ⟨rest, hrest, h⟩ := Except.bind_eq_ok h
    cases h
    cases j with
    | zero => exact ⟨.empty, first, rest, rfl, hfirst, rfl⟩
    | succ j =>
      obtain ⟨before, own, after, hlen, hown, rfl⟩ := ih hrest (Nat.lt_of_succ_lt_succ hj)
      rw [hemit _ _ hfirst, Nat.add_assoc, Nat.add_comm len, ← Nat.mul_succ] at hown
      refine ⟨first ++ before, own, after, ?_, hown, ?_⟩
      · rw [length_append, hemit _ _ hfirst, hlen, Nat.mul_succ, Nat.add_comm]
      · show Emission.append _ (Emission.append _ _) = Emission.append (Emission.append _ _) _
        simp [Emission.append]

theorem Fragment.emit_tail {κ : Type} [Directive κ] {f : Fragment (Tail κ)} {t : Tail κ} (ht : f.tail = some t)
    {site : Site} {at_ : Nat} {e : Emission} (h : f.emit site at_ = .ok e) :
    ∃ fixed tail, fixed.length = f.fixedLen ∧ t.emit site (at_ + f.fixedLen) f.info = .ok tail ∧ e = fixed ++ tail := by
  rw [emit_of_some ht] at h
  obtain ⟨fixed, hfixed, h⟩ := Except.bind_eq_ok h
  obtain ⟨tail, htail, h⟩ := Except.bind_eq_ok h
  cases h
  have hlen : fixed.length = f.fixedLen := Fixup.length_patch hfixed
  rw [hlen] at htail
  exact ⟨fixed, tail, hlen, htail, rfl⟩

/-! ## Instructions -/

/-- Branch `b` of fragment `r` is written at section offset `at_`, as the tail of the fragment or in one of the copies
that the fragment makes, if it repeats no repetitions. The branch is told `info`. -/
inductive Sections.Instruction (ss : Sections Empty) (r : FragmentRef) (b : Branch) : Bool → FragmentInfo → Nat → Prop
  | own {f : Fragment (Tail Empty)} (hf : ss.fragment? r = some f) (ht : f.tail = some (.branch b)) :
    Instruction ss r b false f.info f.tailOffset
  | copy {f p : Fragment (Tail Empty)} {count : Expr} {body : Block (Tail Empty)} {reps i j : Nat}
    (hf : ss.fragment? r = some f) (hflat : f.flat = true) (ht : f.tail = some (.times count body reps))
    (hp : body.fragments[i]? = some p) (hb : p.tail = some (.branch b)) (hj : j < reps) :
    Instruction ss r b true p.info (f.tailOffset +
      (Fragment.sumLen body.fragments * j + (Fragment.sumLen (body.fragments.take i) + p.fixedLen)))

/-- The branch in slot `i` of a repetition's body, as copy `j` of it is written. -/
def Sections.copy? (ss : Sections Empty) (r : FragmentRef) (i j : Nat) : Option (Branch × FragmentInfo × Nat) :=
  (ss.fragment? r).bind fun f =>
    match f.tail with
    | some (.times _ body reps) => body.fragments[i]?.bind fun p =>
      match p.tail with
      | some (.branch b) =>
        if f.flat = true ∧ j < reps then
          some (b, p.info, f.tailOffset +
            (Fragment.sumLen body.fragments * j + (Fragment.sumLen (body.fragments.take i) + p.fixedLen)))
        else none
      | _ => none
    | _ => none

theorem Sections.instruction_of_copy? {ss : Sections Empty} {r : FragmentRef} {i j : Nat} {b : Branch}
    {info : FragmentInfo} {at_ : Nat} (h : ss.copy? r i j = some (b, info, at_)) :
    ss.Instruction r b true info at_ := by
  obtain ⟨f, hf, h⟩ := Option.bind_eq_some_iff.1 h
  split at h
  · rename_i count body reps ht
    obtain ⟨p, hp, h⟩ := Option.bind_eq_some_iff.1 h
    split at h
    · rename_i b' hb
      by_cases hc : f.flat = true ∧ j < reps
      · rw [if_pos hc] at h
        cases h
        exact .copy hf hc.1 ht hp hb hc.2
      · rw [if_neg hc] at h
        cases h
    · cases h
  · cases h

theorem Sections.Instruction.written {o : Object Empty} {r : FragmentRef} {b : Branch} {repeated : Bool}
    {info : FragmentInfo} {at_ : Nat} (h : o.sections.Instruction r b repeated info at_) {s : Section Empty}
    (hs : o.sections[r.sectionIndex]? = some s) (hplaced : s.block.fragments = Fragment.placeFrom 0 s.block.fragments)
    (hexact : ExactFragments s.block.fragments) {image : Image} (hi : o.sectionImage s = .ok image) :
    ∃ before own after, b.emit ⟨s.start, o.sections.address?⟩ at_ info = .ok own ∧ before.length = at_ ∧
      image.bytes = before ++ (own.bytes ++ after) := by
  unfold Object.sectionImage at hi
  obtain ⟨e, he, hi⟩ := Except.bind_eq_ok hi
  cases hi
  have hfragment {f : Fragment (Tail Empty)} (hf : o.sections.fragment? r = some f) {t : Tail Empty}
      (ht : f.tail = some t) : ∃ before tail after, before.length = f.tailOffset ∧
        t.emit ⟨s.start, o.sections.address?⟩ f.tailOffset f.info = .ok tail ∧
        e.bytes = before ++ (tail.bytes ++ after) := by
    have hf : s.block.fragments[r.index]? = some f := by
      rw [Sections.fragment?, hs] at hf
      exact hf
    obtain ⟨before, own, after, -, hlen, hown, -, rfl⟩ := emitFragments_split hplaced hexact he hf
    obtain ⟨fixed, tail, hfixed, htail, rfl⟩ := Fragment.emit_tail ht hown
    refine ⟨before.bytes ++ fixed.bytes, tail, after.bytes, ?_, htail, ?_⟩
    · rw [List.length_append]
      exact congrArg₂ (· + ·) hlen hfixed
    · simp
  cases h with
  | own hf ht =>
    obtain ⟨before, tail, after, hlen, htail, hbytes⟩ := hfragment hf ht
    exact ⟨before, tail, after, htail, hlen, hbytes⟩
  | @copy f p count body reps i j hf _ ht hp hb hj =>
    obtain ⟨before, tail, after, hlen, htail, hbytes⟩ := hfragment hf ht
    have hbody : ExactFragments body.fragments := by
      have hmem : f ∈ s.block.fragments := by
        rw [Sections.fragment?, hs] at hf
        exact List.mem_of_getElem? hf
      have hex := (exactFragments_iff _).1 hexact f hmem
      rw [Fragment.exact_of_some ht, Tail.Exact] at hex
      exact hex.2
    rw [Tail.emit] at htail
    obtain ⟨before', copy, after', hlen', hcopy, rfl⟩ :=
      Emission.times_at (fun at_ e h => length_emitFragments _ at_ _ hbody h) htail hj
    obtain ⟨before'', own, after'', -, hlen'', hown, -, rfl⟩ := emitFragments_at hbody hcopy hp
    obtain ⟨fixed, instruction, hfixed, hinstruction, rfl⟩ := Fragment.emit_tail hb hown
    rw [Nat.add_assoc, Nat.add_assoc] at hinstruction
    refine ⟨before ++ (before'.bytes ++ (before''.bytes ++ fixed.bytes)), instruction,
      after''.bytes ++ (after'.bytes ++ after), hinstruction, ?_, ?_⟩
    · simp only [List.length_append]
      exact congrArg₂ (· + ·) hlen (congrArg₂ (· + ·) hlen' (congrArg₂ (· + ·) hlen'' hfixed))
    · rw [hbytes]
      simp

/-! ## Displacements -/

/-- What a branch is written as that was resolved where its instruction begins: its displacement is the distance to its
target from the end of the instruction. -/
theorem Branch.Resolved.emit_cases {symbols : SymbolTable} {info : FragmentInfo} {v : Value} {b : Branch}
    (h : b.Resolved symbols info.tailLoc v) (hrel : v.isRelative = false) {e : Expr} (he : v.abs = some e)
    (hn : e.Normal) (site : Site) (at_ : Nat) :
    b.emit site at_ info = .error (Cause.tooComplex "branch target" info.source) ∨
      ∃ disp, b.emit site at_ info =
          (if b.encoding.range.contains disp then
            .ok (.ofBytes (b.encoding.opcode ++ littleEndian b.encoding.dispSize disp))
          else .error (Cause.branchOutOfRange disp b.encoding.range.high info.source)) ∧
        ∀ ρ : Valuation Int, (∀ l ∈ info.tailLoc :: e.locs, ∀ a, site.address l = some a → ρ.loc l = signed a) →
          disp = e.value ρ - (signed (site.base + at_) + signed b.encoding.len) := by
  have hnone : v.rel = none := by simpa [Value.isRelative] using hrel
  have hminus : v.minusLoc info.tailLoc = { v with abs := some (Expr.minus e (.loc info.tailLoc)).simplify } := by
    rw [Value.minusLoc, he]
    rfl
  cases hd : site.eval (Expr.minus e (.loc info.tailLoc)).simplify with
  | none =>
    left
    simp only [Branch.emit, h.value, hminus, hnone, Option.bind_some, hd]
  | some d =>
    cases ha : site.address info.tailLoc with
    | none =>
      left
      simp only [Branch.emit, h.value, hminus, hnone, Option.bind_some, hd, ha, Option.map_none]
    | some a =>
      right
      refine ⟨d + signed a - (signed (site.base + at_) + signed b.encoding.len), ?_, fun ρ hρ => ?_⟩
      · simp only [Branch.emit, h.value, hminus, hnone, Option.bind_some, hd, ha, Option.map_some]
      have hvalue : (Expr.minus e (.loc info.tailLoc)).simplify.value ρ = d := by
        refine Expr.value_of_eval_ofLocs _ hd fun l hl x hx => ?_
        obtain ⟨n, hn, rfl⟩ := Option.map_eq_some_iff.1 hx
        rw [Int.cast_id]
        refine hρ l ?_ n hn
        have hl := Expr.locs_simplify _ hl
        simp only [Expr.minus, Expr.locs, Expr.locsAll, List.append_nil, List.mem_append, List.mem_singleton] at hl
        exact hl.elim (List.mem_cons_of_mem _) fun h => h ▸ List.mem_cons_self
      rw [hn.value_minus_loc, hρ _ List.mem_cons_self a ha] at hvalue
      rw [← hvalue, Int.sub_add_cancel]

/-- The displacement that is written leads from the end of the instruction to the target. -/
theorem Branch.Resolved.decodes {symbols : SymbolTable} {info : FragmentInfo} {v : Value} {b : Branch}
    (h : b.Resolved symbols info.tailLoc v) (hrel : v.isRelative = false) {e : Expr} (he : v.abs = some e)
    (hn : e.Normal)
    (hp : b.encoding.proper = true) {site : Site} {at_ : Nat} {own : Emission} (hown : b.emit site at_ info = .ok own)
    (haddr : ∀ l ∈ info.tailLoc :: e.locs, ∀ a, site.address l = some a → a < 2 ^ 63) (hat : site.base + at_ < 2 ^ 63)
    {ρ : Valuation Int} (hρ : ∀ l ∈ e.locs, ∀ a, site.address l = some a → ρ.loc l = a) :
    ∃ disp, own.bytes = b.encoding.opcode ++ littleEndian b.encoding.dispSize disp ∧
      signedOf (littleEndian b.encoding.dispSize disp) + (site.base + at_ + b.encoding.len) = e.value ρ := by
  rcases h.emit_cases hrel he hn site at_ with hx | ⟨disp, hx, hdisp⟩
  · cases hx.symm.trans hown
  rw [hx] at hown
  by_cases hin : b.encoding.range.contains disp = true
  · rw [if_pos hin] at hown
    cases hown
    refine ⟨disp, rfl, ?_⟩
    -- Where the branch itself is does not matter to its target, unless the target mentions it.
    let ρ' : Valuation Int := { ρ with loc := fun l => (site.address l).elim (ρ.loc l) (↑·) }
    have hvalue : e.value ρ = e.value ρ' := by
      refine Expr.value_locs_congr (show ρ.sym = ρ'.sym from rfl) rfl e fun l hl => ?_
      show ρ.loc l = (site.address l).elim (ρ.loc l) (↑·)
      cases ha : site.address l with
      | none => rfl
      | some a => exact hρ l hl a ha
    have hd := hdisp ρ' fun l hl a ha => by
      show (site.address l).elim (ρ.loc l) (↑·) = _
      rw [ha, signed_eq a (haddr l hl a ha)]
      rfl
    rw [signed_eq _ hat, (Encoding.signed_len hp).1] at hd
    rw [Encoding.signedOf_displacement hp hin, hvalue]
    push_cast at hd
    omega
  · rw [if_neg hin] at hown
    cases hown

theorem Repetition.relay_minusLoc {owner : FragmentInfo} {v : Value} {e : Expr} (he : v.abs = some e) (hn : e.Normal)
    (hown : e.mentionsFragment owner.ref = false) {l : Location} (hl : l.fragment = owner.ref) (slot : Nat) (id : Int)
    (w : Window) :
    relay owner slot ⟨id, v.minusLoc l, w⟩ =
      [⟨pack id slot 0, v.minusLoc owner.tailLoc, w⟩,
        ⟨pack id slot 1, v.minusLoc ⟨⟨owner.ref.sectionIndex, owner.ref.index + 1⟩, 0⟩, w⟩] := by
  have habs (l : Location) : v.minusLoc l = { v with abs := some (Expr.minus e (.loc l)).simplify } := by
    rw [Value.minusLoc, he]
    rfl
  have hmap (l' : Location) :
      (v.minusLoc l).mapLoc (fun x => if x.fragment = owner.ref then l' else x) = v.minusLoc l' := by
    rw [habs, habs, Value.mapLoc, Option.map_some, hn.mapLoc_minus_loc hown (fun x hx => if_neg hx) hl, if_pos hl]
  -- The two distances differ by the length of the repetition, whatever that is.
  have hne : v.minusLoc ⟨⟨owner.ref.sectionIndex, owner.ref.index + 1⟩, 0⟩ ≠ v.minusLoc l := by
    intro heq
    rw [habs, habs] at heq
    let ρ : Valuation Int := ⟨fun _ => 0, fun x => if x.fragment = owner.ref then 1 else 0, fun _ => 0⟩
    have hvalue := congrArg (Expr.value ρ) (Option.some.inj (congrArg Value.abs heq))
    rw [hn.value_minus_loc, hn.value_minus_loc] at hvalue
    have hlast : ρ.loc ⟨⟨owner.ref.sectionIndex, owner.ref.index + 1⟩, 0⟩ = 0 :=
      if_neg fun h => absurd (congrArg FragmentRef.index h) (by simp)
    have hfirst : ρ.loc l = 1 := if_pos hl
    omega
  unfold relay
  dsimp only
  rw [hmap, hmap, if_neg hne]

/-! ## Short forms -/

theorem Sections.Instruction.copy_bounds {f p : Fragment (Tail Empty)} {count : Expr} {body : Block (Tail Empty)}
    {reps i j : Nat} {b : Branch} (hexact : f.Exact) (ht : f.tail = some (.times count body reps))
    (hp : body.fragments[i]? = some p) (hb : p.tail = some (.branch b)) (hj : j < reps) :
    Fragment.sumLen body.fragments * j + (Fragment.sumLen (body.fragments.take i) + p.fixedLen) + b.encoding.len ≤
      f.tailLen := by
  rw [Fragment.exact_of_some ht, Tail.Exact] at hexact
  obtain ⟨hlen, hbody⟩ := hexact
  have hpart := (exactFragments_iff _).1 hbody p (List.mem_of_getElem? hp)
  rw [Fragment.exact_of_some hb, Tail.Exact] at hpart
  have htake := Fragment.sumLen_take_le body.fragments (i + 1)
  rw [Fragment.sumLen_take_succ hp, Fragment.totalLen] at htake
  have hcopies : Fragment.sumLen body.fragments * (j + 1) ≤ Fragment.sumLen body.fragments * reps :=
    Nat.mul_le_mul_left _ hj
  rw [Nat.mul_succ] at hcopies
  omega

/-- Wherever a short branch is written, its displacement is in range. -/
theorem Relaxation.Ends.instruction_in_range {start tt : Sections Empty} {s : Relaxation Empty} (h : s.Ends start tt)
    (hrefs : tt.RefsMatch) (hexact : ∀ r f, tt.fragment? r = some f → f.Exact) {symbols : SymbolTable} {r : FragmentRef}
    {b : Branch} {repeated : Bool} {info : FragmentInfo} {at_ : Nat} (hi : tt.Instruction r b repeated info at_)
    (hloc : info.tailLoc.fragment = r) {v : Value} (hv : b.Resolved symbols info.tailLoc v) {e : Expr}
    (he : v.abs = some e) (hn : e.Normal) (hown : repeated = true → e.mentionsFragment r = false) {short : Encoding}
    (hs : b.shortInUse? = some short) (hp : short.proper = true) {ρ : Valuation Int} (hρ : tt.Measures ρ) {base : Int}
    (hbase : ∀ l, l.fragment.sectionIndex = r.sectionIndex → ρ.loc l = base + tt.position l)
    (hslot : ∀ slot, e.value { ρ with slot } = e.value ρ) :
    short.range.contains (e.value ρ - (base + at_ + short.len)) = true := by
  cases hi with
  | @own f hf ht =>
    have hdisp := h.displacement hf (by rw [Fragment.flat, ht]; rfl) hn he hp
      (Fragment.mem_requests_of_short ht hs hv.value) hρ hslot
    rw [hbase _ (congrArg _ hloc), Sections.position, hloc, ← h.placed r f hf] at hdisp
    rw [← Int.sub_sub]
    exact hdisp
  | @copy f p count body reps i j hf hflat ht hpart hb hj =>
    have hrequest :
        ⟨1, v.minusLoc p.info.tailLoc, ⟨short.range.low + signed short.len, short.range.high + signed short.len⟩⟩ ∈
        p.own := by
      rw [Fragment.own, hb, Option.elim_some, Branch.own_of_short hs hv.value]
      exact List.mem_singleton_self _
    have href : f.info.ref = r := hrefs r f hf
    have hrelay := Repetition.relay_minusLoc he hn (by rw [href]; exact hown rfl) (hloc.trans href.symm) i 1
      ⟨short.range.low + signed short.len, short.range.high + signed short.len⟩
    have hmem : ∀ q ∈ Repetition.relay f.info i ⟨1, v.minusLoc p.info.tailLoc,
        ⟨short.range.low + signed short.len, short.range.high + signed short.len⟩⟩, q ∈ f.requests := by
      intro q hq
      rw [Fragment.requests_of_some ht]
      exact mem_bodyRequests.2 ⟨i, p, _, hpart, hrequest, hq⟩
    rw [hrelay] at hmem
    have hfirst := h.displacement hf hflat hn he hp (hmem _ List.mem_cons_self) hρ hslot
    have hlast :=
      h.displacement hf hflat hn he hp (hmem _ (List.mem_cons_of_mem _ (List.mem_singleton_self _))) hρ hslot
    have hbounds := Sections.Instruction.copy_bounds (hexact r f hf) ht hpart hb hj
    have hencoding : b.encoding = short := by rw [Branch.encoding, hs, Option.getD_some]
    have hlen : b.encoding.len = short.len := congrArg _ hencoding
    have hplaced := h.placed r f hf
    have hbegin : tt.position f.info.tailLoc = f.tailOffset := by
      rw [Sections.position, FragmentInfo.tailLoc, href, ← hplaced]
      rfl
    have hend : tt.position ⟨⟨f.info.ref.sectionIndex, f.info.ref.index + 1⟩, 0⟩ = f.tailOffset + f.tailLen := by
      rw [Sections.fragment?_eq] at hf
      rw [Sections.position, Sections.begins, href, Fragment.sumLen_take_succ hf, Fragment.totalLen,
        Fragment.tailOffset, hplaced, Sections.begins]
      show _ + 0 = _
      omega
    rw [hbase _ (by rw [FragmentInfo.tailLoc, href]), hbegin] at hfirst
    rw [hbase _ (by rw [href]), hend] at hlast
    rw [Window.contains_iff] at hfirst hlast ⊢
    push_cast at hlast ⊢
    omega

/-! ## Addresses -/

namespace Sections

variable {ss : Sections Empty}

/-- The addresses of locations, whether there are fragments there or not. -/
def addresses (ss : Sections Empty) : Valuation Int :=
  ⟨fun _ => 0, fun l => (ss.base l.fragment.sectionIndex : Int) + ss.position l, fun _ => 0⟩

theorem measures_addresses (h : ss.Placed) : ss.Measures ss.addresses := by
  intro a b x y hsec ha hb
  obtain ⟨f, hf, -⟩ := Option.map_eq_some_iff.1 ha
  obtain ⟨g, hg, -⟩ := Option.map_eq_some_iff.1 hb
  rw [offset?_of_placed h hf] at ha
  rw [offset?_of_placed h hg] at hb
  rw [← Option.some.inj ha, ← Option.some.inj hb]
  show ((ss.base _ : Int) + _) - (ss.base _ + _) = _
  rw [hsec]
  omega

theorem addresses_of_section {s : Section Empty} {l : Location} (hs : ss[l.fragment.sectionIndex]? = some s) :
    ss.addresses.loc l = s.start + ss.position l := by
  show (ss.base _ : Int) + _ = _
  rw [base, hs]
  rfl

theorem addresses_of_address? (h : ss.Placed) {l : Location} {a : Nat} (ha : ss.address? l = some a) :
    ss.addresses.loc l = a := by
  obtain ⟨s, hs, ha⟩ := Option.bind_eq_some_iff.1 ha
  obtain ⟨x, hx, rfl⟩ := Option.map_eq_some_iff.1 ha
  obtain ⟨f, hf, -⟩ := Option.map_eq_some_iff.1 hx
  rw [offset?_of_placed h hf] at hx
  rw [addresses_of_section hs, ← Option.some.inj hx]
  exact (Int.natCast_add _ _).symm

end Sections

theorem Relaxation.Ends.emit_short {start tt : Sections Empty} {k : Relaxation Empty} (h : k.Ends start tt)
    (hrefs : tt.RefsMatch) (hexact : ∀ r f, tt.fragment? r = some f → f.Exact) {symbols : SymbolTable} {r : FragmentRef}
    {b : Branch} {repeated : Bool} {info : FragmentInfo} {at_ : Nat} (hi : tt.Instruction r b repeated info at_)
    (hloc : info.tailLoc.fragment = r) {v : Value} (hv : b.Resolved symbols info.tailLoc v)
    (hrel : v.isRelative = false)
    {e : Expr} (he : v.abs = some e) (hn : e.Normal) (hown : repeated = true → e.mentionsFragment r = false)
    {short : Encoding} (hs : b.shortInUse? = some short) (hp : short.proper = true) {s : Section Empty}
    (hsec : tt[r.sectionIndex]? = some s)
    (haddr : ∀ l ∈ info.tailLoc :: e.locs, ∀ a, tt.address? l = some a → a < 2 ^ 63) (hat : s.start + at_ < 2 ^ 63)
    {disp limit : Int} {pos : SourcePos} :
    b.emit ⟨s.start, tt.address?⟩ at_ info ≠ .error (Cause.branchOutOfRange disp limit pos) := by
  intro hx
  rcases hv.emit_cases hrel he hn ⟨s.start, tt.address?⟩ at_ with hx' | ⟨disp', hx', hdisp⟩
  · cases hx'.symm.trans hx
  have hencoding : b.encoding = short := by rw [Branch.encoding, hs, Option.getD_some]
  rw [hencoding, signed_eq _ hat, (Encoding.signed_len hp).1] at hdisp
  have haddresses (slot : Nat → Int) : disp' = e.value { tt.addresses with slot } -
      (((s.start + at_ : Nat) : Int) + short.len) := by
    refine hdisp _ fun l hl a ha => ?_
    rw [signed_eq a (haddr l hl a ha)]
    exact Sections.addresses_of_address? h.placed ha
  have hslot (slot : Nat → Int) : e.value { tt.addresses with slot } = e.value tt.addresses :=
    (Int.sub_left_inj _).1 ((haddresses slot).symm.trans (haddresses tt.addresses.slot))
  have hbase (l : Location) (hl : l.fragment.sectionIndex = r.sectionIndex) :
      tt.addresses.loc l = (s.start : Int) + tt.position l := Sections.addresses_of_section (hl ▸ hsec)
  have hin :=
    h.instruction_in_range hrefs hexact hi hloc hv he hn hown hs hp (Sections.measures_addresses h.placed) hbase hslot
  rw [← Int.natCast_add, ← haddresses tt.addresses.slot] at hin
  rw [hx', hencoding, if_pos hin] at hx
  cases hx

/-! ## Objects -/

theorem Branch.encoding_proper {b : Branch} (hs : b.short.all Encoding.proper = true) (hl : b.long.proper = true) :
    b.encoding.proper = true := by
  unfold encoding shortInUse?
  split
  · cases hshort : b.short with
    | none => exact hl
    | some short =>
      rw [hshort] at hs
      exact hs
  · exact hl

namespace Object

theorem instruction_resolved {o : Object Empty} {diags : Diagnostics} (hb : o.Built) (hp : o.sections.Proper)
    (hd : (o.finalize diags).2.hasErrors = false) {tt : Sections Empty}
    (hgrown : ∀ r g, tt.fragment? r = some g → ∃ f, (o.finalize diags).1.sections.fragment? r = some f ∧
      (g.flat = true → ∀ p ∈ g.parts, Fragment.GrownFrom f.parts p))
    {r : FragmentRef} {b : Branch} {repeated : Bool} {info : FragmentInfo} {at_ : Nat}
    (hi : tt.Instruction r b repeated info at_) :
    info.tailLoc.fragment = r ∧ ∃ v, b.Resolved o.symbols info.tailLoc v ∧ b.short.all Encoding.proper = true ∧
      b.long.proper = true := by
  -- The branch is the tail of a part of the fragment.
  have hpart {f p : Fragment (Tail Empty)} (hf : tt.fragment? r = some f) (hflat : f.flat = true) (hpf : p ∈ f.parts)
      (ht : p.tail = some (.branch b)) : p.info.tailLoc.fragment = r ∧
        ∃ v, b.Resolved o.symbols p.info.tailLoc v ∧ b.short.all Encoding.proper = true ∧ b.long.proper = true := by
    obtain ⟨f', hf', hparts⟩ := hgrown r f hf
    have hfrom := hparts hflat p hpf
    have href : p.ref = r := ref_of_grown hb hd hf' hfrom
    refine ⟨href, ?_⟩
    rw [show p.info.tailLoc = ⟨r, p.fixedLen⟩ by rw [← href]; rfl]
    exact resolved_of_grown hb hp hd hf' hfrom ht
  cases hi with
  | own hf ht =>
    refine hpart hf (by rw [Fragment.flat, ht]; rfl) ?_ ht
    rw [Fragment.parts_of_plain (by rw [ht]; rfl)]
    exact List.mem_singleton_self _
  | copy hf hflat ht hpf hbranch _ =>
    refine hpart hf hflat ?_ hbranch
    rw [Fragment.parts_of_times ht]
    exact List.mem_of_getElem? hpf

/-- Every instruction that a branch is written as leads to its target, and a short one can always be written. -/
theorem branches_reach_targets (o : Object Empty) (diags diags' : Diagnostics) (hb : o.Built) (hp : o.sections.Proper)
    (hd : (o.finalize diags).2.hasErrors = false)
    (hw : (o.finalize diags).1.sections.RunsInWords o.config diags') {u : Object Empty} {d : Diagnostics}
    {stats : Stats}
    (h : (o.finalize diags).1.relax diags' = .done (u, d) stats) {r : FragmentRef} {b : Branch} {repeated : Bool}
    {info : FragmentInfo} {at_ : Nat} (hi : u.sections.Instruction r b repeated info at_) {v : Value} {e : Expr}
    (hv : ({ Value.ofExpr b.target with isSigned := true }).finalized? o.symbols = some v) (hrel : v.isRelative = false)
    (he : v.abs = some e) (hown : repeated = true → e.mentionsFragment r = false) {s : Section Empty}
    (hs : u.sections[r.sectionIndex]? = some s)
    (haddr : ∀ l ∈ info.tailLoc :: e.locs, ∀ a, u.sections.address? l = some a → a < 2 ^ 63)
    (hat : s.start + at_ < 2 ^ 63) :
    (∀ diags'', (u.images diags'').2.hasErrors = false →
      ∃ image, (u.images diags'').1[r.sectionIndex]? = some image ∧
        ∀ ρ : Valuation Int, (∀ l ∈ e.locs, ∀ a, u.sections.address? l = some a → ρ.loc l = a) →
          signedOf ((image.bytes.drop (at_ + b.encoding.opcode.length)).take b.encoding.dispSize) +
            (s.start + at_ + b.encoding.len) = e.value ρ) ∧
    ((b.shortInUse?).isSome = true → ∀ disp limit pos,
      b.emit ⟨s.start, u.sections.address?⟩ at_ info ≠ .error (Cause.branchOutOfRange disp limit pos)) := by
  obtain ⟨-, k, hends, hgrown⟩ := relax_settles hb hp hd hw h
  obtain ⟨t, ht, rfl⟩ := relax_done h
  have hgrown' (r : FragmentRef) (g : Fragment (Tail Empty)) (hg : t.sections.fragment? r = some g) :
      ∃ f, (o.finalize diags).1.sections.fragment? r = some f ∧
        (g.flat = true → ∀ p ∈ g.parts, Fragment.GrownFrom f.parts p) :=
    (hgrown r g hg).imp fun f hf => ⟨hf.1, hf.2.2.2⟩
  obtain ⟨hloc, v', hv', hshort, hlong⟩ := instruction_resolved hb hp hd hgrown' hi
  obtain rfl : v' = v := Option.some.inj (hv'.target.symm.trans hv)
  obtain ⟨e', he', hn⟩ := Value.normal_of_finalized? hv nofun
  obtain rfl := Option.some.inj (he'.symm.trans he)
  have hwritable {s : Section Empty} (hs : s ∈ t.sections) := Sections.relax_writable ht hs
  constructor
  · intro diags'' hclean
    rcases forall₂_getElem? (images_clean hclean) r.sectionIndex with ⟨hnone, -⟩ | ⟨s', image, hs', himage, hsec⟩
    · cases hs.symm.trans hnone
    obtain rfl := Option.some.inj (hs.symm.trans hs')
    refine ⟨image, himage, fun ρ hρ => ?_⟩
    obtain ⟨hplaced, hexact⟩ := hwritable (List.mem_of_getElem? hs)
    obtain ⟨before, own, after, hemit, hlen, hbytes⟩ := hi.written hs hplaced hexact hsec
    obtain ⟨disp, hdisp, hdecode⟩ :=
      hv'.decodes hrel he hn (Branch.encoding_proper hshort hlong) hemit haddr hat hρ
    have hdrop : (image.bytes.drop (at_ + b.encoding.opcode.length)).take b.encoding.dispSize =
        littleEndian b.encoding.dispSize disp := by
      rw [hbytes, hdisp, ← hlen, ← List.drop_drop, List.drop_left, List.append_assoc, List.drop_left]
      exact List.take_left' (by simp)
    rw [hdrop]
    exact hdecode
  · intro hsome disp limit pos
    obtain ⟨short, hs'⟩ := Option.isSome_iff_exists.1 hsome
    have hrefs : t.sections.RefsMatch := by
      intro r g hg
      obtain ⟨f, hf, -, hframe, -⟩ := hgrown r g hg
      exact (congrArg Frame.ref hframe).trans ((hb.finalize diags).refsMatch r f hf)
    have hexact (r : FragmentRef) (f : Fragment (Tail Empty)) (hf : t.sections.fragment? r = some f) : f.Exact := by
      obtain ⟨s, hs, hf⟩ := Option.bind_eq_some_iff.1 hf
      exact (exactFragments_iff _).1 (hwritable (List.mem_of_getElem? hs)).2 f (List.mem_of_getElem? hf)
    rw [(Branch.short_of_shortInUse? hs').2] at hshort
    exact hends.emit_short hrefs hexact hi hloc hv' hrel he hn hown hs' hshort hs haddr hat

/-- The second copy of a short jump, in an object whose other jumps are widened. -/
theorem branches_reach_targets_paddedJumps :
    let p := (paddedJumps.finalize (.empty 64)).1
    paddedJumps.Built ∧ paddedJumps.sections.Proper ∧ (paddedJumps.finalize (.empty 64)).2.hasErrors = false ∧
      p.sections.RunsInWords .standard (.empty 64) ∧
      ∃ u d stats info, p.relax (.empty 64) = .done (u, d) stats ∧
        (∃ image, (u.images (.empty 64)).1[0]? = some image ∧
          signedOf ((image.bytes.drop 19).take 1) + (4096 + 18 + 2) = 4096 + 139) ∧
        ∃ b, u.sections.copy? ⟨0, 6⟩ 1 1 = some (b, info, 18) ∧ b.form = .short ∧ ∀ disp limit pos,
          b.emit ⟨4096, u.sections.address?⟩ 18 info ≠ .error (Cause.branchOutOfRange disp limit pos) := by
  have hp : paddedJumps.sections.Proper := by decide +kernel
  have hd : (paddedJumps.finalize (.empty 64)).2.hasErrors = false := by decide +kernel
  have hrefs := (built_paddedJumps.finalize (.empty 64)).refsMatch
  have hfits : (paddedJumps.finalize (.empty 64)).1.sections.FitsThroughout .standard (.empty 64) := by
    refine @Sections.fitsThroughout_of_drainsWithin .standard (.empty 64) _ 4 (by decide +kernel) (by decide +kernel)
      (by decide +kernel) ?_ _
    rw [prepared_paddedJumps]
    decide +kernel
  have hw : (paddedJumps.finalize (.empty 64)).1.sections.RunsInWords .standard (.empty 64) :=
    Sections.runsInWords hrefs (by decide +kernel) (by decide +kernel) hfits
  have hrun := @Sections.relax_of_queued .standard (.empty 64) (paddedJumps.finalize (.empty 64)).1.sections
    (by rw [prepared_paddedJumps]; decide +kernel) (by decide +kernel)
  rw [prepared_paddedJumps] at hrun
  have hrelax : ((paddedJumps.finalize (.empty 64)).1.sections.relax .standard (.empty 64)).result.toOption.isSome =
      true := by
    rw [hrun]
    decide +kernel
  obtain ⟨stats, hstats⟩ := Option.isSome_iff_exists.1 hrelax
  obtain ⟨u, d, hdone, hsections⟩ := relax_of_sections (by decide +kernel) hstats
  have hcopy : (u.sections.copy? ⟨0, 6⟩ 1 1).any (fun x => decide (x.1.target = .sym "near" ∧
      x.1.shortInUse? = some ⟨[0xEB], 1⟩ ∧ x.2.1.tailLoc = ⟨⟨0, 6⟩, 0⟩ ∧ x.2.2 = 18)) = true := by
    rw [hsections, hrun]
    decide +kernel
  have hstart : u.sections[0]?.map (·.start) = some 4096 := by
    rw [hsections, hrun]
    decide +kernel
  have haddr : (u.sections.address? ⟨⟨0, 6⟩, 0⟩, u.sections.address? ⟨⟨0, 8⟩, 0⟩) = (some 4112, some 4235) := by
    rw [hsections, hrun]
    decide +kernel
  have himages : ((u.sections.map u.sectionImage).foldl Diagnostics.reportFailure (.empty 64)).hasErrors = false := by
    unfold sectionImage
    rw [hsections, hrun]
    decide +kernel
  cases hcopied : u.sections.copy? ⟨0, 6⟩ 1 1 with
  | none =>
    rw [hcopied] at hcopy
    cases hcopy
  | some x =>
    obtain ⟨b, info, at_⟩ := x
    rw [hcopied] at hcopy
    obtain ⟨htarget, hshort, hloc, rfl⟩ : b.target = .sym "near" ∧ b.shortInUse? = some ⟨[0xEB], 1⟩ ∧
        info.tailLoc = ⟨⟨0, 6⟩, 0⟩ ∧ at_ = 18 := of_decide_eq_true hcopy
    have hencoding : b.encoding = ⟨[0xEB], 1⟩ := by rw [Branch.encoding, hshort, Option.getD_some]
    obtain ⟨s, hs, hbase⟩ := Option.map_eq_some_iff.1 hstart
    obtain ⟨hhere, hnear⟩ := Prod.mk.inj haddr
    have hreach := branches_reach_targets paddedJumps (.empty 64) (.empty 64) built_paddedJumps hp hd hw hdone
      (Sections.instruction_of_copy? hcopied) (v := { Value.ofExpr (.loc ⟨⟨0, 8⟩, 0⟩) with isSigned := true })
      (by rw [htarget]; decide +kernel) rfl rfl (fun _ => by decide) hs
      (by
        intro l hl a ha
        rw [hloc] at hl
        simp only [Expr.locs, List.mem_cons, List.not_mem_nil, or_false] at hl
        rcases hl with rfl | rfl
        · rw [hhere] at ha
          cases ha
          decide
        · rw [hnear] at ha
          cases ha
          decide)
      (by rw [hbase]; decide)
    rw [hencoding, hbase] at hreach
    obtain ⟨image, himage, hdecode⟩ := hreach.1 (.empty 64) himages
    refine ⟨built_paddedJumps, hp, hd, hw, u, d, stats, info, hdone, ⟨image, himage, ?_⟩, b, hcopied,
      (Branch.short_of_shortInUse? hshort).1, hreach.2 (by rw [hshort]; rfl)⟩
    have hvalue := hdecode ⟨fun _ => 0, fun _ => 4235, fun _ => 0⟩ fun l hl a ha => by
      simp only [Expr.locs, List.mem_singleton] at hl
      rw [hl, hnear] at ha
      cases ha
      rfl
    exact hvalue

end Object

end SpanLayout
