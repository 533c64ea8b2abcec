import SpanLayout.Proofs.Coding
import SpanLayout.Proofs.Reach

/-!
# LEB128 fields are read back

A field of a relaxed object is written in as many bytes as the layout gave it, and whoever reads those gets its value,
also from a field that is wider than the value needs.
-/

namespace SpanLayout

/-! ## Values -/

theorem Expr.IsDifference.eval_loc {a b : Location} {c : Int64} {e : Expr} (h : e.IsDifference a b c)
    {loc : Location → Option Int} {x y : Int} (ha : loc a = some x) (hb : loc b = some y) (hx : 0 ≤ x ∧ x < 2 ^ 62)
    (hy : 0 ≤ y ∧ y < 2 ^ 62) (hc : -2 ^ 62 < c.toInt ∧ c.toInt < 2 ^ 62) :
    e.eval (.ofLocs loc) = some (x - y + c.toInt) := by
  by_cases hab : a = b
  · subst hab
    obtain rfl := Option.some.inj (ha.symm.trans hb)
    rw [h.const_of_eq, Int.sub_self, Int.zero_add]
    rfl
  · obtain ⟨reversed, rfl⟩ := h.eq_sum hab
    have hx' : checked x = some x := checked_eq (by unfold wordBound; omega) (by unfold wordBound; omega)
    have hy' : checked (-y) = some (-y) := checked_eq (by unfold wordBound; omega) (by unfold wordBound; omega)
    have hxy : checked (x - y) = some (x - y) := checked_eq (by unfold wordBound; omega) (by unfold wordBound; omega)
    have hxyc : checked (x - y + c.toInt) = some (x - y + c.toInt) :=
      checked_eq (by unfold wordBound; omega) (by unfold wordBound; omega)
    have hyx : -y + x = x - y := by omega
    cases reversed <;> by_cases hzero : c = 0 <;>
      simp [differenceTerms, Expr.eval, evalFrom, Env.ofLocs, ha, hb, hzero, hx', hy', hyx, ← Int.sub_eq_add_neg,
        hxy, hxyc]

namespace Leb128

/-- The value of a field in a layout: a constant, or the distance between two locations of a section, with a constant
added that is smaller than `2 ^ 62`. -/
inductive Field.Means (ss : Sections Empty) (x : Field) : Int → Prop
  | constant {v : Int} (h : x.value.const? = some v) : Means ss x v
  | difference {a b : Location} {c : Int64} {s : Section Empty} {m n : Nat} (h : x.value.IsDifference a b c)
    (hsec : a.fragment.sectionIndex = b.fragment.sectionIndex) (hs : ss[a.fragment.sectionIndex]? = some s)
    (ha : ss.offset? a = some m) (hm : m ≤ s.size) (hb : ss.offset? b = some n) (hn : n ≤ s.size)
    (hc : -2 ^ 62 < c.toInt ∧ c.toInt < 2 ^ 62) : Means ss x (m - n + c.toInt)

namespace Field

/-- Where no section reaches `2 ^ 62`, what is computed from the addresses is the value. -/
theorem Means.eval {ss : Sections Empty} (hends : ∀ s ∈ ss, s.start + s.size < 2 ^ 62) {x : Field} {v : Int}
    (h : x.Means ss v) (base : Nat) : Site.eval ⟨base, ss.address?⟩ x.value = some v := by
  cases h with
  | constant h =>
    unfold Site.eval
    cases he : x.value with
    | const c =>
      rw [he] at h
      exact h
    | sym _ | loc _ | slot _ | neg _ | sum _ | mul _ _ =>
      rw [he] at h
      cases h
  | @difference a b c s m n h hsec hs ha hm hb hn hc =>
    have hend := hends s (List.mem_of_getElem? hs)
    have haddr {l : Location} {k : Nat} (hl : l.fragment.sectionIndex = a.fragment.sectionIndex)
        (hk : ss.offset? l = some k) (hle : k ≤ s.size) :
        (ss.address? l).map SpanLayout.signed = some ((s.start + k : Nat) : Int) := by
      unfold Sections.address?
      rw [hl, hs, hk]
      show some (SpanLayout.signed (s.start + k)) = _
      rw [signed_eq _ (by omega)]
    unfold Site.eval
    rw [h.eval_loc (haddr rfl ha hm) (haddr hsec.symm hb hn) (by omega) (by omega) hc]
    congr 1
    omega

theorem emit_read {x : Field} {site : Site} {info : FragmentInfo} {v : Int} (hv : site.eval x.value = some v)
    (hsize : size x.isSigned v ≤ info.tailLen) :
    ∃ bytes, x.emit site info = .ok (.ofBytes bytes) ∧ bytes.length = info.tailLen ∧ Terminated bytes ∧
      ∀ rest, read x.isSigned (bytes ++ rest) = some (payload x.isSigned v, rest) := by
  have hlen : (encode x.isSigned info.tailLen v).length = info.tailLen := by
    unfold encode
    rw [length_encodeGroups]
    exact Nat.max_eq_left hsize
  refine ⟨encode x.isSigned info.tailLen v, ?_, hlen, terminated_encodeGroups _ _ _,
    fun rest => read_encodeGroups _ (payload_nonneg _ _) rest⟩
  unfold emit
  rw [hv]
  exact if_pos hlen

theorem emit_overflow {x : Field} {site : Site} {info : FragmentInfo} {v : Int} (hv : site.eval x.value = some v)
    (hsize : info.tailLen < size x.isSigned v) :
    x.emit site info = .error (Cause.valueOverflow v (info.tailLen % 256) info.source) := by
  have hlen : (encode x.isSigned info.tailLen v).length ≠ info.tailLen := by
    unfold encode
    rw [length_encodeGroups]
    exact (Nat.lt_of_lt_of_le hsize (Nat.le_max_right _ _)).ne'
  unfold emit
  rw [hv]
  exact if_neg hlen

end Field

end Leb128

namespace Object

variable {o u : Object Empty} {diags diags' : Diagnostics} {r : FragmentRef} {f : Fragment (Tail Empty)}
    {x : Leb128.Field}

theorem GrownInto.size_le (h : o.GrownInto diags diags' u) (hends : ∀ s ∈ u.sections, s.start + s.size < 2 ^ 62)
    (hf : u.sections.fragment? r = some f) (hx : f.tail = some (.leb128 x)) {v : Int} (hv : x.Means u.sections v) :
    Leb128.size x.isSigned v ≤ f.tailLen := by
  obtain ⟨-, s, hend, hgrown⟩ := h
  obtain ⟨f', -, -, -, hparts⟩ := hgrown r f hf
  have hself : f ∈ f.parts := by
    rw [Fragment.parts_of_plain (by rw [hx]; rfl)]
    exact List.mem_singleton_self f
  have hfits : f.Fits := (hparts (by rw [Fragment.flat, hx]; rfl) f hself).2
  cases hv with
  | constant hconst =>
    obtain ⟨hlen, -, -, hsize⟩ := (Fragment.fits_of_some hx).1 hfits
    rw [hlen]
    exact hsize v hconst
  | @difference a b c s' m n hd hsec hs ha hm hb hn hc =>
    have hsize := hends s' (List.mem_of_getElem? hs)
    exact hend.width hf hx hfits hd hsec.symm ha hb (by unfold wordBound; omega) (by unfold wordBound; omega)

theorem slice_tail {s : Section Empty} {image : Image}
    (hplaced : s.block.fragments = Fragment.placeFrom 0 s.block.fragments)
    (hexact : ExactFragments s.block.fragments) (h : u.sectionImage s = .ok image) {i : Nat}
    (hf : s.block.fragments[i]? = some f) {t : Tail Empty} (ht : f.tail = some t) :
    ∃ e, t.emit ⟨s.start, u.sections.address?⟩ f.tailOffset f.info = .ok e ∧
      (image.bytes.drop f.tailOffset).take e.length = e.bytes := by
  obtain ⟨e, he, h⟩ := Except.bind_eq_ok h
  cases h
  obtain ⟨before, own, after, -, hbefore, hown, -, rfl⟩ := emitFragments_split hplaced hexact he hf
  obtain ⟨fixed, tail, hfixed, htail, rfl⟩ := Fragment.emit_tail ht hown
  refine ⟨tail, htail, ?_⟩
  have hbytes :
      (before ++ (fixed ++ tail ++ after)).bytes = (before ++ fixed).bytes ++ (tail.bytes ++ after.bytes) := by
    simp
  rw [hbytes,
    List.drop_left' (show (before ++ fixed).length = f.tailOffset by rw [Emission.length_append, hbefore, hfixed]; rfl)]
  exact List.take_left' rfl

/-- A field of a relaxed object is written in as many bytes as the layout has given it, all but the last with the top
bit set, and whoever reads them gets its value, or its bits if the field is unsigned. -/
theorem leb128_read_back (o : Object Empty) (diags diags' : Diagnostics) (hb : o.Built) (hm : o.sections.Modest)
    (hd : (o.finalize diags).2.hasErrors = false)
    (hw : (o.finalize diags).1.sections.RunsInWords o.config diags') {u : Object Empty} {d : Diagnostics}
    {stats : Stats} (h : (o.finalize diags).1.relax diags' = .done (u, d) stats)
    (hends : ∀ s ∈ u.sections, s.start + s.size < 2 ^ 62) {k i : Nat} {s : Section Empty} (hs : u.sections[k]? = some s)
    {f : Fragment (Tail Empty)} (hf : s.block.fragments[i]? = some f) {x : Leb128.Field}
    (hx : f.tail = some (.leb128 x)) {v : Int} (hv : x.Means u.sections v) :
    ∃ bytes, x.emit ⟨s.start, u.sections.address?⟩ f.info = .ok (.ofBytes bytes) ∧ bytes.length = f.tailLen ∧
      Leb128.Terminated bytes ∧
      (∀ rest, Leb128.read x.isSigned (bytes ++ rest) = some (if x.isSigned then v else v % 2 ^ 64, rest)) ∧
      ∀ image, u.sectionImage s = .ok image → (image.bytes.drop f.tailOffset).take f.tailLen = bytes := by
  have hfragment : u.sections.fragment? ⟨k, i⟩ = some f := by
    unfold Sections.fragment?
    rw [hs]
    exact hf
  obtain ⟨bytes, hemit, hlen, hterminated, hread⟩ :=
    @Leb128.Field.emit_read x _ f.info v (hv.eval hends s.start)
      ((relax_grows hb hm hd hw h).size_le hends hfragment hx hv)
  refine ⟨bytes, hemit, hlen, hterminated, hread, fun image himage => ?_⟩
  obtain ⟨t, ht, rfl⟩ := relax_done h
  obtain ⟨hplaced, hexact⟩ := Sections.relax_writable ht (List.mem_of_getElem? hs)
  obtain ⟨e, he, hslice⟩ := slice_tail hplaced hexact himage hf hx
  obtain rfl : Emission.ofBytes bytes = e := Except.ok.inj (hemit.symm.trans he)
  rwa [show (Emission.ofBytes bytes).length = f.tailLen from hlen] at hslice

/-- Whether a fragment is the field `x`, in `n` bytes. -/
def isField (x : Leb128.Field) (n : Nat) (f : Fragment (Tail Empty)) : Bool :=
  match f.tail with
  | some (.leb128 y) => decide (y = x ∧ f.tailLen = n ∧ f.source = .unknown)
  | _ => false

theorem exists_field {ss : Sections Empty} {k i n : Nat} {x : Leb128.Field}
    (h : (ss[k]?.bind (·.block.fragments[i]?)).any (isField x n) = true) :
    ∃ s f, ss[k]? = some s ∧ s.block.fragments[i]? = some f ∧ f.tail = some (.leb128 x) ∧ f.tailLen = n ∧
      f.source = .unknown := by
  obtain ⟨f, hf, hfield⟩ := (Option.any_eq_true _ _).1 h
  obtain ⟨s, hs, hf⟩ := Option.bind_eq_some_iff.1 hf
  unfold isField at hfield
  split at hfield
  case h_2 => cases hfield
  case h_1 y hy =>
    obtain ⟨rfl, hlen, hsource⟩ := of_decide_eq_true hfield
    exact ⟨s, f, hs, hf, hy, hlen, hsource⟩

/-- A jump that is widened, and a number that is the distance over the padding behind it. The padding is smaller once
the jump is long, and then the number would fit one byte, but it has two. -/
def absorbedJump : Object Empty :=
  let o := ((Object.empty .standard).addSection ".text" 4096).modifyBlock 0 fun b =>
    b.appendTail (.branch (.jump (.sym "far"))) .unknown
  let o := (o.defineLabel 0 "here" .unknown).state.modifyBlock 0 fun b =>
    (b.appendTail (.align ⟨.const 16, none, none, false, 0, .zeros, none⟩) .unknown).appendGap 115 .unknown
  let o := (o.defineLabel 0 "there" .unknown).state.modifyBlock 0 fun b =>
    (b.appendTail (.leb128 ⟨.minus (.sym "there") (.sym "here"), false, 1⟩) .unknown).appendGap 100 .unknown
  (o.defineLabel 0 "far" .unknown).state

theorem built_absorbedJump : absorbedJump.Built := by
  refine Built.defineLabel (Built.modifyBlock (Built.defineLabel (Built.modifyBlock (Built.defineLabel
    (Built.modifyBlock ((built_empty _).addSection _ _) 0 fun b hb => ?_) _ _ _) 0 fun b hb => ?_) _ _ _) 0
    fun b hb => ?_) _ _ _
  · exact hb.appendTail (by decide)
  · exact (hb.appendTail (by decide)).appendGap _ _
  · exact (hb.appendTail (by decide)).appendGap _ _

theorem leb128_read_back_absorbedJump :
    let p := (absorbedJump.finalize (.empty 64)).1
    absorbedJump.Built ∧ absorbedJump.sections.Modest ∧ (absorbedJump.finalize (.empty 64)).2.hasErrors = false ∧
      p.sections.RunsInWords .standard (.empty 64) ∧
      ∃ u d stats s f x bytes, p.relax (.empty 64) = .done (u, d) stats ∧ u.sections[0]? = some s ∧
        s.block.fragments[6]? = some f ∧ f.tail = some (.leb128 x) ∧ x.Means u.sections 126 ∧ f.tailLen = 2 ∧
        x.emit ⟨s.start, u.sections.address?⟩ f.info = .ok (.ofBytes bytes) ∧
        ∀ rest, Leb128.read false (bytes ++ rest) = some (126, rest) := by
  have hm : absorbedJump.sections.Modest := by decide +kernel
  have hd : (absorbedJump.finalize (.empty 64)).2.hasErrors = false := by decide +kernel
  have hrefs := (built_absorbedJump.finalize (.empty 64)).refsMatch
  have hfits : (absorbedJump.finalize (.empty 64)).1.sections.FitsThroughout .standard (.empty 64) := by
    refine @Sections.fitsThroughout_of_drainsWithin .standard (.empty 64) _ 4 (by decide +kernel) (by decide +kernel)
      (by decide +kernel) ?_ _
    rw [Sections.prepared_of_sorted hrefs (by decide +kernel) (by decide +kernel)]
    decide +kernel
  have hw : (absorbedJump.finalize (.empty 64)).1.sections.RunsInWords .standard (.empty 64) :=
    Sections.runsInWords hrefs (by decide +kernel) (by decide +kernel) hfits
  have hrelax : ((absorbedJump.finalize (.empty 64)).1.sections.relax .standard (.empty 64)).result.toOption.isSome =
      true := by
    decide +kernel
  obtain ⟨stats, hstats⟩ := Option.isSome_iff_exists.1 hrelax
  obtain ⟨u, d, hdone, hsections⟩ := relax_of_sections (by decide +kernel) hstats
  have hends : u.sections.all (fun s => s.start + s.size < 2 ^ 62) = true := by
    rw [hsections]
    decide +kernel
  have hsize : u.sections[0]?.map Section.size = some 233 := by
    rw [hsections]
    decide +kernel
  have hplaces : u.sections.offset? ⟨⟨0, 5⟩, 0⟩ = some 131 ∧ u.sections.offset? ⟨⟨0, 2⟩, 0⟩ = some 5 := by
    rw [hsections]
    decide +kernel
  have hfield : (u.sections[0]?.bind (·.block.fragments[6]?)).any
      (isField ⟨.sum [.loc ⟨⟨0, 5⟩, 0⟩, .neg (.loc ⟨⟨0, 2⟩, 0⟩)], false, 2⟩ 2) = true := by
    rw [hsections]
    decide +kernel
  obtain ⟨s, f, hs, hf, hx, hlen, -⟩ := exists_field hfield
  rw [hs, Option.map_some, Option.some.injEq] at hsize
  have hmeans := Leb128.Field.Means.difference (s := s)
    (x := ⟨.sum [.loc ⟨⟨0, 5⟩, 0⟩, .neg (.loc ⟨⟨0, 2⟩, 0⟩)], false, 2⟩) (a := ⟨⟨0, 5⟩, 0⟩) (b := ⟨⟨0, 2⟩, 0⟩) (c := 0)
    ⟨false, by decide⟩ rfl hs hplaces.1 (by omega) hplaces.2 (by omega) (by decide)
  obtain ⟨bytes, hemit, -, -, hread, -⟩ :=
    leb128_read_back absorbedJump (.empty 64) (.empty 64) built_absorbedJump hm hd hw
    hdone (fun s hs => of_decide_eq_true (List.all_eq_true.1 hends s hs)) hs hf hx hmeans
  exact ⟨built_absorbedJump, hm, hd, hw, u, d, stats, s, f, _, bytes, hdone, hs, hf, hx, hmeans, hlen, hemit, hread⟩

/-- Two jumps, the longer form of the first being the shorter one, and paddings that follow them. For a moment there is
a copy of a gap, and the section is larger than `2 ^ 63`. -/
def fleetingGap : Object Empty :=
  let o := ((Object.empty .standard).addSection ".text" 0).modifyBlock 0 fun b =>
    ((b.appendTail (.branch (.ofEncodings (.sym "near") (some ⟨List.replicate 10 0x26 ++ [0xEB], 1⟩)
      ⟨List.replicate 5 0x26 ++ [0xE9], 4⟩)) .unknown).appendTail
      (.branch (.ofEncodings (.sym "end") (some ⟨[0xEB], 1⟩) ⟨[0xE9], 2⟩)) .unknown).appendBytes
      (List.replicate 125 0x90)
  let o := (o.defineLabel 0 "near" .unknown).state.modifyBlock 0 fun b =>
    b.appendTail (.align ⟨.const 2, none, none, false, 0, .zeros, none⟩) .unknown
  let o := (o.defineLabel 0 "even" .unknown).state.modifyBlock 0 fun b =>
    (b.appendTail (.align ⟨.const 4611686018427387904, none, some (.const 4611686018427387764), false, 0, .zeros, none⟩)
      .unknown).appendTail (.times (.minus (.sym "even") (.sym "near"))
        ((Block.empty 0).appendGap 4611686018427388904 .unknown) 0) .unknown
  (o.defineLabel 0 "end" .unknown).state.modifyBlock 0 fun b =>
    b.appendTail (.leb128 ⟨.sum [.sym "end", .neg (.sym "even"), .const (-2305843009213693952)], false, 1⟩) .unknown

theorem built_fleetingGap : fleetingGap.Built := by
  refine Built.modifyBlock
    (Built.defineLabel (Built.modifyBlock (Built.defineLabel (Built.modifyBlock (Built.defineLabel
    (Built.modifyBlock ((built_empty _).addSection _ _) 0 fun b hb => ?_) _ _ _) 0 fun b hb => ?_) _ _ _) 0
    fun b hb => ?_) _ _ _) 0 fun b hb => ?_
  · exact ((hb.appendTail (by decide)).appendTail (by decide)).appendBytes _
  · exact hb.appendTail (by decide)
  · exact (hb.appendTail (by decide)).appendTail (by decide)
  · exact hb.appendTail (by decide)

/-- The distance behind the padding is lost while the section is too large, and what has become of it is not noticed:
the field keeps nine bytes for a number that takes ten. -/
theorem leb128_overflow_fleetingGap :
    let p := (fleetingGap.finalize (.empty 64)).1
    fleetingGap.Built ∧ fleetingGap.sections.Modest ∧ (fleetingGap.finalize (.empty 64)).2.hasErrors = false ∧
      ∃ u d stats s f x, p.relax (.empty 64) = .done (u, d) stats ∧ u.sections[0]? = some s ∧
        (∀ s ∈ u.sections, s.start + s.size < 2 ^ 62) ∧ s.block.fragments[9]? = some f ∧ f.tail = some (.leb128 x) ∧
        x.Means u.sections (-2 ^ 61) ∧
        x.emit ⟨s.start, u.sections.address?⟩ f.info = .error (Cause.valueOverflow (-2 ^ 61) 9 .unknown) := by
  have hprepared := @Sections.prepared_of_sorted .standard (.empty 64) _
    (built_fleetingGap.finalize (.empty 64)).refsMatch (by decide +kernel) (by decide +kernel)
  have hrun := @Sections.relax_of_queued .standard (.empty 64) (fleetingGap.finalize (.empty 64)).1.sections
    (by rw [hprepared]; decide +kernel) (by decide +kernel)
  rw [hprepared] at hrun
  have hrelax : ((fleetingGap.finalize (.empty 64)).1.sections.relax .standard (.empty 64)).result.toOption.isSome =
      true := by
    rw [hrun]
    decide +kernel
  obtain ⟨stats, hstats⟩ := Option.isSome_iff_exists.1 hrelax
  obtain ⟨u, d, hdone, hsections⟩ := relax_of_sections (by decide +kernel) hstats
  rw [hrun] at hsections
  have hends : u.sections.all (fun s => s.start + s.size < 2 ^ 62) = true := by
    rw [hsections]
    decide +kernel
  have hsize : u.sections[0]?.map Section.size = some 147 := by
    rw [hsections]
    decide +kernel
  have hplaces : u.sections.offset? ⟨⟨0, 8⟩, 0⟩ = some 138 ∧ u.sections.offset? ⟨⟨0, 5⟩, 0⟩ = some 138 := by
    rw [hsections]
    decide +kernel
  have hfield : (u.sections[0]?.bind (·.block.fragments[9]?)).any (isField ⟨.sum [.loc ⟨⟨0, 8⟩, 0⟩,
      .neg (.loc ⟨⟨0, 5⟩, 0⟩), .const (-2305843009213693952)], false, 9⟩ 9) = true := by
    rw [hsections]
    decide +kernel
  obtain ⟨s, f, hs, hf, hx, hlen, hsource⟩ := exists_field hfield
  rw [hs, Option.map_some, Option.some.injEq] at hsize
  have hends : ∀ s ∈ u.sections, s.start + s.size < 2 ^ 62 :=
    fun s hs => of_decide_eq_true (List.all_eq_true.1 hends s hs)
  have hmeans := Leb128.Field.Means.difference (s := s)
    (x := ⟨.sum [.loc ⟨⟨0, 8⟩, 0⟩, .neg (.loc ⟨⟨0, 5⟩, 0⟩), .const (-2305843009213693952)], false, 9⟩)
    (a := ⟨⟨0, 8⟩, 0⟩) (b := ⟨⟨0, 5⟩, 0⟩) (c := -2305843009213693952)
    ⟨false, by decide⟩ rfl hs hplaces.1 (by omega) hplaces.2 (by omega) (by decide)
  refine ⟨built_fleetingGap, by decide +kernel, by decide +kernel, u, d, stats, s, f, _, hdone, hs, hends, hf, hx,
    hmeans, ?_⟩
  have hwide : 9 < Leb128.size false (-2 ^ 61) := by
    rw [← Nat.not_le, ← Leb128.contains_window_iff (by decide) (by decide) (by decide) (by decide)]
    decide
  have hemit := @Leb128.Field.emit_overflow _ _ f.info _ (hmeans.eval hends s.start)
    (show f.tailLen < _ by rw [hlen]; exact hwide)
  rwa [show f.info.tailLen = 9 from hlen, show f.info.source = .unknown from hsource] at hemit

end Object

end SpanLayout
