import Mathlib.Order.Bounds.Defs
import SpanLayout.Proofs.Expr.Difference
import SpanLayout.Proofs.Provenance
import SpanLayout.Proofs.Relaxation.Budget

/-!
# The layout is a solution

A relaxation that succeeds leaves a layout in which everything holds that the forms were chosen for: fragments follow
each other, paddings end where they should, a short branch reaches its target, and a number fits its width.
-/

namespace SpanLayout

/-! ## Exact values -/

namespace Sections

variable {ss : Sections Empty}

/-- Within a section, the valuation puts locations as far apart as the layout does. -/
def Measures (ss : Sections Empty) (ρ : Valuation Int) : Prop :=
  ∀ a b x y, a.fragment.sectionIndex = b.fragment.sectionIndex → ss.offset? a = some x → ss.offset? b = some y →
    ρ.loc b - ρ.loc a = (y : Int) - x

/-- The valuation gives every location its offset in its section. -/
def Locates (ss : Sections Empty) (ρ : Valuation Int) : Prop := ∀ l x, ss.offset? l = some x → ρ.loc l = x

theorem Locates.measures {ρ : Valuation Int} (h : ss.Locates ρ) : ss.Measures ρ := by
  intro a b x y _ ha hb
  rw [h a x ha, h b y hb]

theorem value_of_valueOf? {v : Value} {e : Expr} (he : v.abs = some e) {x : Int} (h : ss.valueOf? v = some x)
    {ρ : Valuation Int} (hρ : ∀ d ∈ e.distances.2, ρ.loc d.target - ρ.loc d.origin = ss.extent d) :
    ∃ slot, e.value { ρ with slot } = x := by
  refine ⟨fun n => (e.distances.2[n]?.map ss.extent).getD 0, ?_⟩
  unfold valueOf? at h
  split at h
  · cases h
  rw [he] at h
  dsimp only at h
  rw [← Expr.value_distances]
  · refine Expr.value_of_eval (fun n y hy => ?_) (fun l y hy => by cases hy) _ h
    dsimp only
    rw [show e.distances.2[n]?.map ss.extent = some y from hy]
    rfl
  · intro i d hd
    rw [Nat.zero_add]
    dsimp only
    rw [hd]
    exact (hρ d (List.mem_of_getElem? hd)).symm

end Sections

theorem Value.normal_of_finalized? {symbols : SymbolTable} {v v' : Value} (h : v.finalized? symbols = some v')
    (habs : v.abs ≠ none) : ∃ e, v'.abs = some e ∧ e.Normal := by
  rcases Value.finalize_cases symbols (Value.done_of_finalized? symbols h .unknown)
    with ⟨hnone, -⟩ | ⟨e, e', -, -, -, rfl⟩
  · exact absurd hnone habs
  · exact ⟨_, rfl, Expr.normal_simplify _⟩

/-! ## Short branches -/

theorem Branch.own_of_short {b : Branch} {s : Encoding} {v : Value} (hs : b.shortInUse? = some s)
    (hv : b.value = some v) :
    (Tail.branch b).own = [⟨1, v, ⟨s.range.low + signed s.len, s.range.high + signed s.len⟩⟩] := by
  rw [Tail.own, Branch.measure, hs, hv]
  rfl

theorem Fragment.mem_requests_of_short {f : Fragment (Tail Empty)} {b : Branch} {s : Encoding} {v : Value}
    (hf : f.tail = some (.branch b)) (hs : b.shortInUse? = some s) (hv : b.value = some v) :
    ⟨1, v, ⟨s.range.low + signed s.len, s.range.high + signed s.len⟩⟩ ∈ f.requests := by
  rw [requests_of_some hf, Tail.requests_of_plain rfl, Branch.own_of_short hs hv]
  exact List.mem_singleton_self _

theorem Branch.short_of_shortInUse? {b : Branch} {s : Encoding} (h : b.shortInUse? = some s) :
    b.form = .short ∧ b.short = some s := by
  unfold shortInUse? at h
  cases hf : b.form with
  | short =>
    rw [hf] at h
    exact ⟨rfl, h⟩
  | long =>
    rw [hf] at h
    cases h

namespace Relaxation.Ends

variable {start tt : Sections Empty} {s : Relaxation Empty}

theorem contains (h : s.Ends start tt) {r : FragmentRef} {g : Fragment (Tail Empty)} (hg : tt.fragment? r = some g)
    (hflat : g.flat = true) {q : SpanRequest} (hq : q ∈ g.requests) (htame : q.window.contains unknownValue = false)
    {e : Expr} (he : q.value.abs = some e) {ρ : Valuation Int} (hρ : tt.Measures ρ) :
    ∃ x slot, e.value { ρ with slot } = x ∧ q.window.contains x = true := by
  obtain ⟨span, hspan, hcovers⟩ := h.watched hg hflat hq
  rcases h.within (Fragment.requests_pos hq) hspan hcovers with hin | ⟨hlost, -⟩
  · cases hv : tt.valueOf? q.value with
    | none =>
      rw [hv, Option.getD_none, htame] at hin
      cases hin
    | some x =>
      rw [hv, Option.getD_some] at hin
      obtain ⟨slot, hx⟩ := Sections.value_of_valueOf? he hv (ρ := ρ) fun d hd => by
        obtain ⟨hsec, ho, ht⟩ := h.anchored hspan hcovers he hd
        exact hρ _ _ _ _ hsec ho ht
      exact ⟨x, slot, hx, hin⟩
  · rw [hcovers.inside _ hlost] at htame
    cases htame

theorem displacement (h : s.Ends start tt) {r : FragmentRef} {g : Fragment (Tail Empty)} (hg : tt.fragment? r = some g)
    (hflat : g.flat = true) {id : Int} {l : Location} {e : Expr} (hn : e.Normal) {v : Value} (he : v.abs = some e)
    {short : Encoding} (hp : short.proper = true)
    (hq : ⟨id, v.minusLoc l, ⟨short.range.low + signed short.len, short.range.high + signed short.len⟩⟩ ∈ g.requests)
    {ρ : Valuation Int} (hρ : tt.Measures ρ) (hslot : ∀ slot, e.value { ρ with slot } = e.value ρ) :
    short.range.contains (e.value ρ - ρ.loc l - short.len) = true := by
  obtain ⟨hlen, hsmall⟩ := Encoding.signed_len hp
  obtain ⟨hlow, hhigh⟩ := short.range_bounds
  rw [hlen] at hq
  have habs : (v.minusLoc l).abs = some (Expr.minus e (.loc l)).simplify := by
    rw [Value.minusLoc, he]
    rfl
  have htame : Window.contains ⟨short.range.low + short.len, short.range.high + short.len⟩ unknownValue = false := by
    rw [← Bool.not_eq_true, Window.contains_iff]
    unfold unknownValue wordBound
    dsimp only
    omega
  obtain ⟨x, slot, hx, hin⟩ := h.contains hg hflat hq htame habs hρ
  rw [hn.value_minus_loc, hslot] at hx
  rw [Window.contains_iff] at hin ⊢
  dsimp only at hx hin
  omega

end Relaxation.Ends

/-! ## Widths -/

theorem Leb128.window_of_unknown {signed : Bool} {len : Nat} (hlen : len < maxLen)
    (h : (window signed len).contains unknownValue = true) : window signed len = ⟨0, 9223372036854775807⟩ := by
  -- A width below the greatest that holds even what stands for a lost value is one of an unsigned field.
  unfold maxLen at hlen
  cases signed <;> interval_cases len <;> revert h <;> decide

theorem Span.Covers.valueFor_difference {locations : List Location} {r : FragmentRef} {q : SpanRequest} {span : Span}
    (h : span.Covers locations r q) {e : Expr} (hq : q.value = .ofExpr e) {a b : Location} {c : Int64}
    (he : e.IsDifference a b c) (hab : a ≠ b) (hsec : b.fragment.sectionIndex = a.fragment.sectionIndex) {t : Term}
    (hl : -wordBound ≤ t.length) (hh : t.length < wordBound) :
    span.valueFor [t] = (checked (t.length + c.toInt)).getD unknownValue := by
  have hexpr := h.expr
  rw [hq] at hexpr
  unfold valueFor Span.compute
  dsimp only
  rw [h.value, hq, hexpr]
  show (e.distances.1.eval _).getD unknownValue = _
  rw [he.eval hab hsec (x := t.length) rfl hl hh]

theorem Term.Seen.word {locations : List Location} {t : Term} (h : t.Seen locations)
    (ho : t.distance.origin ∈ locations)
    (ht : t.distance.target ∈ locations) : -wordBound ≤ t.length ∧ t.length < wordBound := by
  obtain ⟨ss, hss, hlen⟩ := h
  have := hss.positions _ ho
  have := hss.positions _ ht
  rw [hlen, Sections.span]
  unfold wordBound
  omega

theorem Span.Covers.terms_difference {locations : List Location} {r : FragmentRef} {q : SpanRequest} {span : Span}
    (h : span.Covers locations r q) {e : Expr} (hq : q.value = .ofExpr e) {a b : Location} {c : Int64}
    (he : e.IsDifference a b c) (hab : a ≠ b) (hsec : b.fragment.sectionIndex = a.fragment.sectionIndex) :
    ∃ t, span.terms = [t] ∧ t.distance = ⟨b, a⟩ := by
  have hterms := h.distances
  rw [hq] at hterms
  have hterms : span.terms.map (·.distance) = [⟨b, a⟩] := hterms.trans (congrArg Prod.snd (he.distances hab hsec))
  obtain ⟨t, ts, hspan, ht, hts⟩ := List.map_eq_cons_iff.1 hterms
  rw [List.map_eq_nil_iff.1 hts] at hspan
  exact ⟨t, hspan, ht⟩

/-- If the value of a difference was lost in a window that begins at zero, the difference is not negative in any layout:
it was too great once, and it never moves by as much as a word. -/
theorem Span.Covers.nonneg_of_lost {locations : List Location} {r : FragmentRef} {q : SpanRequest} {span : Span}
    (h : span.Covers locations r q) {e : Expr} (hq : q.value = .ofExpr e) {a b : Location} {c : Int64}
    (he : e.IsDifference a b c) (hab : a ≠ b) (hsec : b.fragment.sectionIndex = a.fragment.sectionIndex)
    (ha : a ∈ locations) (hb : b ∈ locations) (hseen : ∀ t ∈ span.terms, t.Seen locations) (hlost : span.Lost)
    (hw : q.window.low = 0) {ss : Sections Empty} (hss : ss.InWords locations) :
    0 ≤ (ss.position a : Int) - ss.position b + c.toInt := by
  obtain ⟨t, hterms, ht⟩ := h.terms_difference hq he hab hsec
  obtain ⟨ts, houtline, hfit, hknown, hin⟩ := h.fitted hlost.1
  rw [hterms] at houtline hseen
  obtain ⟨u, us, rfl, hu, hus⟩ := List.map_eq_cons_iff.1 houtline
  obtain rfl := List.map_eq_nil_iff.1 hus
  have hud : u.distance = t.distance := show u.outline.distance = t.outline.distance from congrArg _ hu
  -- The term as it was when the value was lost, and as it was when the window was chosen.
  have hst := hseen t (List.mem_singleton_self t)
  have hsu := hfit u (List.mem_singleton_self u)
  obtain ⟨htl, hth⟩ := hst.word (by rw [ht]; exact hb) (by rw [ht]; exact ha)
  obtain ⟨hul, huh⟩ := hsu.word (by rw [hud, ht]; exact hb) (by rw [hud, ht]; exact ha)
  have hvt : span.compute = (checked (t.length + c.toInt)).getD unknownValue := by
    rw [← h.valueFor_difference hq he hab hsec htl hth, ← hterms]
    rfl
  rw [h.valueFor_difference hq he hab hsec hul huh] at hknown hin
  have hchosen : 0 ≤ u.length + c.toInt := by
    cases hc : checked (u.length + c.toInt) with
    | none =>
      rw [hc] at hknown
      exact absurd rfl hknown
    | some v =>
      rw [hc] at hin
      have := (Window.contains_iff.1 (h.inside _ hin)).1
      rw [hw, Option.getD_some, Expr.eq_of_checked hc] at this
      exact this
  have hgone : t.length + c.toInt < -wordBound ∨ unknownValue ≤ t.length + c.toInt := by
    rw [hlost.2] at hvt
    by_contra hcon
    rw [not_or] at hcon
    unfold unknownValue at hcon hvt
    rw [Expr.checked_eq (by omega) (by omega), Option.getD_some] at hvt
    omega
  obtain ⟨st, hst, hlt⟩ := hst
  obtain ⟨su, hsu, hlu⟩ := hsu
  have hspan (tt : Sections Empty) : tt.span t = (tt.position a : Int) - tt.position b := by
    rw [Sections.span, ht]
  have hsame : su.span u = su.span t := by
    rw [Sections.span, Sections.span, hud]
  have hsect : t.distance.origin.fragment.sectionIndex = t.distance.target.fragment.sectionIndex := by
    rw [ht]
    exact hsec
  have h1 := Sections.span_sub_span_lt hsect (hst.lengths _) (hss.lengths _)
  have h2 := Sections.span_sub_span_lt hsect (hsu.lengths _) (hst.lengths _)
  rw [← hspan ss]
  unfold unknownValue wordBound at hgone
  omega

namespace Relaxation.Ends

variable {start tt : Sections Empty} {s : Relaxation Empty}

theorem position_of_offset? (h : s.Ends start tt) {l : Location} {x : Nat} (hl : tt.offset? l = some x) :
    x = s.sections.position l := by
  obtain ⟨g, hg, -⟩ := Option.map_eq_some_iff.1 hl
  rw [Sections.offset?_of_placed h.placed hg, h.position] at hl
  exact (Option.some.inj hl).symm

/-- A difference of locations that a field is watched for has a value in the window of the field. -/
theorem contains_difference (h : s.Ends start tt) {r : FragmentRef} {q : SpanRequest} {span : Span}
    (hspan : span ∈ s.spans)
    (hcovers : span.Covers s.measured r q) (hid : 0 < q.id) {e : Expr} (hq : q.value = .ofExpr e) {a b : Location}
    {c : Int64} (he : e.IsDifference a b c) (hab : a ≠ b) (hsec : b.fragment.sectionIndex = a.fragment.sectionIndex)
    {signed : Bool} {len : Nat} (hw : q.window = Leb128.window signed len) (hpos : 1 ≤ len) (hmax : len ≤ Leb128.maxLen)
    (hl : -wordBound ≤ (tt.position a : Int) - tt.position b + c.toInt)
    (hh : (tt.position a : Int) - tt.position b + c.toInt < wordBound) :
    tt.valueOf? q.value = some (tt.position a - tt.position b + c.toInt) ∧
      q.window.contains (tt.position a - tt.position b + c.toInt) = true := by
  obtain ⟨t, hterms, htd⟩ := hcovers.terms_difference hq he hab hsec
  have hmem := Relaxation.mem_measured hspan (t := t) (by rw [hterms]; exact List.mem_singleton_self t)
  rw [htd] at hmem
  have hxa := h.words.positions a hmem.2
  have hyb := h.words.positions b hmem.1
  rw [← h.position] at hxa hyb
  have hval : tt.valueOf? q.value = some (tt.position a - tt.position b + c.toInt) := by
    have hextent : tt.extent ⟨b, a⟩ = (tt.position a : Int) - tt.position b := rfl
    rw [hq]
    show e.distances.1.eval _ = _
    rw [he.eval hab hsec (x := tt.extent ⟨b, a⟩) (by rw [he.distances hab hsec]; rfl), hextent,
      Expr.checked_eq hl hh] <;> rw [hextent] <;> unfold wordBound <;> omega
  refine ⟨hval, ?_⟩
  rcases h.within hid hspan hcovers with hin | hlost
  · rwa [hval, Option.getD_some] at hin
  · have hlost' := hcovers.inside _ hlost.1
    rw [hw] at hlost'
    by_cases hten : len = Leb128.maxLen
    · rw [hw, Leb128.contains_window_iff hpos hmax hl hh, hten]
      exact Leb128.size_le_maxLen _ hl hh
    · have hwindow := Leb128.window_of_unknown (by omega) hlost'
      have hnonneg := hcovers.nonneg_of_lost hq he hab hsec hmem.2 hmem.1 (h.covered.seen span hspan) hlost
        (by rw [hw, hwindow]) h.words
      rw [hw, hwindow, Window.contains_iff, h.position, h.position]
      rw [h.position, h.position] at hh
      unfold wordBound at hh
      exact ⟨hnonneg, by dsimp only; omega⟩

theorem width (h : s.Ends start tt) {r : FragmentRef} {g : Fragment (Tail Empty)} (hg : tt.fragment? r = some g)
    {f : Leb128.Field} (ht : g.tail = some (.leb128 f)) (hfits : g.Fits) {a b : Location} {c : Int64}
    (he : f.value.IsDifference a b c) (hsec : b.fragment.sectionIndex = a.fragment.sectionIndex) {x y : Nat}
    (ha : tt.offset? a = some x) (hb : tt.offset? b = some y) (hl : -wordBound ≤ (x : Int) - y + c.toInt)
    (hh : (x : Int) - y + c.toInt < wordBound) : Leb128.size f.isSigned (x - y + c.toInt) ≤ g.tailLen := by
  obtain ⟨hlen, hpos, hmax, hconst⟩ := (Fragment.fits_of_some ht).1 hfits
  rw [hlen]
  by_cases hab : a = b
  · subst hab
    obtain rfl := Option.some.inj (ha.symm.trans hb)
    rw [Int.sub_self, Int.zero_add]
    exact hconst _ (by rw [he.const_of_eq]; rfl)
  have hnone : f.value.const? = none := by
    obtain ⟨reversed, heq⟩ := he.eq_sum hab
    rw [heq]
    rfl
  have hq : ⟨1, .ofExpr f.value, Leb128.window f.isSigned f.len⟩ ∈ g.requests := by
    rw [Fragment.requests_of_some ht, Tail.requests_of_plain rfl, Tail.own, Leb128.Field.measure, hnone]
    exact List.mem_singleton_self _
  obtain ⟨span, hspan, hcovers⟩ := h.watched hg (by rw [Fragment.flat, ht]; rfl) hq
  obtain rfl := h.position_of_offset? ha
  obtain rfl := h.position_of_offset? hb
  rw [← Leb128.contains_window_iff hpos hmax hl hh]
  rw [← h.position, ← h.position] at hl hh ⊢
  exact (h.contains_difference hspan hcovers Int.one_pos rfl he hab hsec rfl hpos hmax hl hh).2

end Relaxation.Ends

/-! ## Paddings -/

/-- The padding that an alignment asks for from `offset` on: up to the next multiple of the boundary, or none if that
would skip too much. -/
def Align.Pads (a : Align) (offset len : Nat) : Prop :=
  (a.boundaryVal ≤ 1 ∧ len = 0) ∨
    1 < a.boundaryVal ∧ ∃ next, IsLeast {n | a.boundaryVal ∣ n ∧ offset ≤ n} next ∧
      ((∀ m, a.maxSkipVal = some m → next - offset ≤ m) ∧ len = next - offset ∨
        (∃ m, a.maxSkipVal = some m ∧ m < next - offset) ∧ len = 0)

theorem Align.isLeast_alignUp {boundary : Nat} (h : 0 < boundary) (offset : Nat) :
    IsLeast {n | boundary ∣ n ∧ offset ≤ n} (alignUp boundary offset) :=
  ⟨⟨dvd_alignUp boundary offset, le_alignUp h offset⟩, fun _ hn => alignUp_le h hn.1 hn.2⟩

theorem Align.pads_paddingAt (a : Align) (offset : Nat) : a.Pads offset (a.paddingAt offset).1 := by
  unfold paddingAt
  split
  · exact .inl ⟨‹_›, rfl⟩
  · rename_i hb
    refine .inr ⟨by omega, alignUp a.boundaryVal offset, isLeast_alignUp (by omega) offset, ?_⟩
    cases hm : a.maxSkipVal with
    | none => exact .inl ⟨nofun, rfl⟩
    | some m =>
      dsimp only
      split
      · exact .inr ⟨⟨m, rfl, ‹_›⟩, rfl⟩
      · refine .inl ⟨fun m' hm' => ?_, rfl⟩
        obtain rfl := Option.some.inj hm'
        omega

theorem Fragment.PaddedAt.align {f : Fragment (Tail Empty)} {a : Align} (h : f.PaddedAt f.offset)
    (ht : f.tail = some (.align a)) : a.Pads f.tailOffset f.tailLen := by
  have hlen : (a.paddingAt f.tailOffset).1 = f.tailLen := Option.some.inj (h _ ht rfl)
  rw [← hlen]
  exact a.pads_paddingAt _

theorem Fragment.PaddedAt.origin {f : Fragment (Tail Empty)} {o : Origin} (h : f.PaddedAt f.offset)
    (ht : f.tail = some (.origin o)) : f.tailOffset + f.tailLen = o.start := by
  have hlen : (if o.start < f.tailOffset then none else some (o.start - f.tailOffset)) = some f.tailLen := h _ ht rfl
  by_cases ho : o.start < f.tailOffset
  · rw [if_pos ho] at hlen
    cases hlen
  · rw [if_neg ho] at hlen
    have := Option.some.inj hlen
    omega

/-! ## Solutions -/

/-- An object whose layout meets everything that its forms were chosen for. -/
structure Object.Solved (o : Object Empty) : Prop where
  first : ∀ k f, o.sections.fragment? ⟨k, 0⟩ = some f → f.offset = 0
  next : ∀ k i f g, o.sections.fragment? ⟨k, i⟩ = some f → o.sections.fragment? ⟨k, i + 1⟩ = some g →
    g.offset = f.offset + f.fixedLen + f.tailLen
  align : ∀ r f a, o.sections.fragment? r = some f → f.tail = some (.align a) →
    a.Resolved ∧ a.Pads f.tailOffset f.tailLen
  origin : ∀ r f x, o.sections.fragment? r = some f → f.tail = some (.origin x) → f.tailOffset + f.tailLen = x.start
  short : ∀ r f b s, o.sections.fragment? r = some f → f.tail = some (.branch b) → b.shortInUse? = some s →
    ∃ v e, ({ Value.ofExpr b.target with isSigned := true }).finalized? o.symbols = some v ∧ v.isRelative = false ∧
      v.abs = some e ∧ (e.mentionsSlot = false → ∀ ρ, o.sections.Locates ρ →
        s.range.contains (e.value ρ - f.tailOffset - s.len) = true)
  constant : ∀ r f x v, o.sections.fragment? r = some f → f.tail = some (.leb128 x) → x.value.const? = some v →
    Leb128.size x.isSigned v ≤ f.tailLen
  difference : ∀ r f x a b c, o.sections.fragment? r = some f → f.tail = some (.leb128 x) → x.value.IsDifference a b c →
    a.fragment.sectionIndex = b.fragment.sectionIndex → ∀ m n : Nat, o.sections.offset? a = some m →
      o.sections.offset? b = some n → -wordBound ≤ (m : Int) - n + c.toInt → (m : Int) - n + c.toInt < wordBound →
      Leb128.size x.isSigned (m - n + c.toInt) ≤ f.tailLen

namespace Relaxation.Ends

variable {start tt : Sections Empty} {s : Relaxation Empty}

theorem first (h : s.Ends start tt) {k : Nat} {f : Fragment (Tail Empty)} (hf : tt.fragment? ⟨k, 0⟩ = some f) :
    f.offset = 0 := by
  rw [h.placed _ f hf, Sections.begins, List.take_zero]
  rfl

theorem next (h : s.Ends start tt) {k i : Nat} {f g : Fragment (Tail Empty)} (hf : tt.fragment? ⟨k, i⟩ = some f)
    (hg : tt.fragment? ⟨k, i + 1⟩ = some g) : g.offset = f.offset + f.fixedLen + f.tailLen := by
  rw [h.placed _ f hf, h.placed _ g hg, Sections.begins, Sections.begins]
  rw [Sections.fragment?_eq] at hf
  rw [Fragment.sumLen_take_succ hf, Nat.add_assoc]
  rfl

end Relaxation.Ends

namespace Object

/-- A relaxation that succeeds leaves a solution. -/
theorem relax_solves (o : Object Empty) (diags diags' : Diagnostics) (hb : o.Built) (hflat : o.sections.Flat)
    (hp : o.sections.Proper) (hd : (o.finalize diags).2.hasErrors = false)
    (hw : (o.finalize diags).1.sections.FitsThroughout o.config diags') {u : Object Empty} {d : Diagnostics}
    {stats : Stats} (h : (o.finalize diags).1.relax diags' = .done (u, d) stats) : u.Solved := by
  obtain ⟨t, ht, -⟩ := relax_done h
  have hwords := Sections.runsInWords (hb.finalize diags).refsMatch (flat_finalize hflat diags)
    (Sections.relax_done ht).2.2.1 hw
  obtain ⟨hsymbols, s, hends, hgrown⟩ := relax_settles hb hp hd hwords h
  have hself {r : FragmentRef} {f : Fragment (Tail Empty)} (hf : u.sections.fragment? r = some f) {t : Tail Empty}
      (htail : f.tail = some t) (hplain : t.plain = true) :
      ∃ f', (o.finalize diags).1.sections.fragment? r = some f' ∧ Fragment.GrownFrom f'.parts f := by
    obtain ⟨f', hf', -, -, hparts⟩ := hgrown r f hf
    refine ⟨f', hf', hparts ?_ f ?_⟩
    · rw [Fragment.flat, htail]
      exact Tail.flat_of_plain hplain
    · rw [Fragment.parts_of_plain (by rw [htail]; exact hplain)]
      exact List.mem_singleton_self f
  have hpadded {r : FragmentRef} {f : Fragment (Tail Empty)} (hf : u.sections.fragment? r = some f) :
      f.PaddedAt f.offset := by
    rw [hends.placed r f hf]
    exact hends.padded r f hf
  constructor
  case first => exact fun k f hf => hends.first hf
  case next => exact fun k i f g hf hg => hends.next hf hg
  case align =>
    intro r f a hf ha
    obtain ⟨f', hf', hfrom⟩ := hself hf ha rfl
    exact ⟨align_resolved_of_grown hb hd hf' hfrom ha, (hpadded hf).align ha⟩
  case origin => exact fun r f x hf hx => (hpadded hf).origin hx
  case short =>
    intro r f b short hf htail hs
    obtain ⟨f', hf', hfrom⟩ := hself hf htail rfl
    obtain ⟨v, hv, hproper, -⟩ := resolved_of_grown hb hp hd hf' hfrom htail
    obtain ⟨hform, hshort⟩ := Branch.short_of_shortInUse? hs
    obtain ⟨e, he, hn⟩ := Value.normal_of_finalized? hv.target (Option.some_ne_none _)
    refine ⟨v, e, hsymbols ▸ hv.target, ?_, he, fun hslot ρ hρ => ?_⟩
    · by_contra hrel
      exact absurd (hform.symm.trans (hv.relative (by simpa using hrel))) (by decide)
    · rw [hshort] at hproper
      have hdisp :=
        hends.displacement hf (by rw [Fragment.flat, htail]; rfl) hn he hproper
          (Fragment.mem_requests_of_short htail hs hv.value) hρ.measures
        fun slot => Expr.value_slot_congr (show ({ ρ with slot } : Valuation Int).sym = ρ.sym from rfl) rfl e hslot
      have hloc : u.sections.offset? ⟨r, f.fixedLen⟩ = some f.tailOffset := by
        rw [Sections.offset?, hf]
        rfl
      rwa [hρ _ _ hloc] at hdisp
  case constant =>
    intro r f x v hf htail hx
    obtain ⟨f', -, hfrom⟩ := hself hf htail rfl
    obtain ⟨hlen, -, -, hconst⟩ := (Fragment.fits_of_some htail).1 hfrom.2
    rw [hlen]
    exact hconst v hx
  case difference =>
    intro r f x a b c hf htail hx hsec m n ha hb hl hh
    obtain ⟨f', -, hfrom⟩ := hself hf htail rfl
    exact hends.width hf htail hfrom.2 hx hsec.symm ha hb hl hh

theorem relax_of_sections {o : Object Empty} {config : Config} (hc : o.config = config) {diags : Diagnostics}
    {stats : Stats} (h : (o.sections.relax config diags).result.toOption = some stats) :
    ∃ u d, o.relax diags = .done (u, d) stats ∧ u.sections = (o.sections.relax config diags).state.sections := by
  subst hc
  unfold relax
  have hok := Attempt.ok_of_toOption h
  cases hx : o.sections.relax o.config diags with
  | mk t result =>
    rw [hx] at hok
    obtain rfl : result = .ok stats := hok
    exact ⟨_, _, rfl, rfl⟩

theorem prepared_paddedJumps :
    (paddedJumps.finalize (.empty 64)).1.sections.prepared .standard (.empty 64) =
      ((paddedJumps.finalize (.empty 64)).1.sections.rechecked .standard (.empty 64)).indexedInOrder.checkCycles :=
  Sections.prepared_of_sorted (built_paddedJumps.finalize _).refsMatch (by decide +kernel) (by decide +kernel)

/-- Two jumps, a number, an alignment, a repetition and an origin. The second jump is widened on the way, and then the
first. -/
theorem relax_solves_paddedJumps :
    let p := (paddedJumps.finalize (.empty 64)).1
    paddedJumps.Built ∧ paddedJumps.sections.Flat ∧ paddedJumps.sections.Proper ∧
      (paddedJumps.finalize (.empty 64)).2.hasErrors = false ∧ p.sections.FitsThroughout .standard (.empty 64) ∧
      ∃ u d stats, p.relax (.empty 64) = .done (u, d) stats ∧ stats.expansions = 2 ∧ u.Solved := by
  have hflat : paddedJumps.sections.Flat := by decide +kernel
  have hp : paddedJumps.sections.Proper := by decide +kernel
  have hd : (paddedJumps.finalize (.empty 64)).2.hasErrors = false := by decide +kernel
  have hw : (paddedJumps.finalize (.empty 64)).1.sections.FitsThroughout .standard (.empty 64) := by
    refine @Sections.fitsThroughout_of_drainsWithin .standard (.empty 64) _ 4 (by decide +kernel) (by decide +kernel)
      (by decide +kernel) ?_ _
    rw [prepared_paddedJumps]
    decide +kernel
  have hrelax : ((paddedJumps.finalize (.empty 64)).1.sections.relax .standard (.empty 64)).result.toOption.map
      (·.expansions) = some 2 := by
    rw [Sections.relax_of_queued (by rw [prepared_paddedJumps]; decide +kernel) (by decide +kernel),
      prepared_paddedJumps]
    decide +kernel
  obtain ⟨stats, hstats, hexp⟩ := Option.map_eq_some_iff.1 hrelax
  obtain ⟨u, d, hdone, -⟩ := relax_of_sections (by decide +kernel) hstats
  exact ⟨built_paddedJumps, hflat, hp, hd, hw, u, d, stats, hdone, hexp,
    relax_solves paddedJumps (.empty 64) (.empty 64) built_paddedJumps hflat hp hd hw hdone⟩

end Object

end SpanLayout
