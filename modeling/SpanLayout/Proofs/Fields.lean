import SpanLayout.Proofs.Bytes
import SpanLayout.Proofs.Tail.Emit

/-!
# Fields

A field is written over the fixed bytes that it lies on and over no others, so fields that lie apart can all be read
back. Where one of them cannot be written, the first such field says why. -/

namespace SpanLayout

/-! ## One field -/

theorem unsignedOf_lt (bytes : List UInt8) : unsignedOf bytes < 256 ^ bytes.length := by
  induction bytes with
  | nil => simp [unsignedOf]
  | cons b bs ih =>
    have hb := b.toNat_lt
    rw [unsignedOf, List.length_cons, pow_succ']
    omega

theorem unsignedOf_littleEndian (n : Nat) (x : Int) : (unsignedOf (littleEndian n x) : Int) = x % 2 ^ (8 * n) := by
  have hpow : (256 ^ n : Int) = 2 ^ (8 * n) := by
    rw [pow_mul]
    norm_num
  have hlt := unsignedOf_lt (littleEndian n x)
  rw [littleEndian_length] at hlt
  have hmod : (unsignedOf (littleEndian n x) : Int) % 256 ^ n = x % 256 ^ n :=
    Int.emod_eq_emod_iff_emod_sub_eq_zero.2 (Int.emod_eq_zero_of_dvd (dvd_unsignedOf_sub n x))
  rw [← hpow, ← hmod, Int.emod_eq_of_lt (Int.natCast_nonneg _) (by exact_mod_cast hlt)]

namespace Site

theorem fitsField_iff {size : Nat} {x : Int} :
    fitsField size x = true ↔ 8 ≤ size ∨ (-2 ^ (8 * size - 1) ≤ x ∧ x ≤ 2 ^ (8 * size) - 1) := by
  unfold fitsField
  rw [Nat.one_shiftLeft, Nat.one_shiftLeft]
  push_cast
  simp only [Bool.or_eq_true, Bool.and_eq_true, decide_eq_true_eq, Int.le_sub_one_iff]

theorem field_ok {site : Site} {at_ size : Nat} {v : Value} {pos : SourcePos} {e : Emission}
    (h : site.field at_ size v pos = .ok e) :
    0 < size ∧ ∃ x, v.abs.elim (some 0) site.eval = some x ∧ fitsField size x = true ∧
    e.bytes = littleEndian size x := by
  unfold field at h
  split at h
  · cases h
  · rename_i hsize
    split at h
    · cases h
    · rename_i x hx
      split at h
      · rename_i hfits
        cases h
        exact ⟨Nat.pos_of_ne_zero hsize, x, hx, hfits, rfl⟩
      · cases h

end Site

namespace Fixup

/-- The value of a field, if it can be computed. -/
def value? (site : Site) (x : Fixup) : Option Int := x.value.abs.elim (some 0) site.eval

/-- A field whose value is `v`, which is neither a signed nor an unsigned number of its size. -/
structure Overflows (site : Site) (x : Fixup) (v : Int) : Prop where
  value : x.value? site = some v
  pos : 0 < x.size
  lt : x.size < 8
  outside : v < -2 ^ (8 * x.size - 1) ∨ 2 ^ (8 * x.size) - 1 < v

variable {site : Site} {at_ : Nat} {pos : SourcePos} {x : Fixup} {xs : List Fixup} {bytes : List UInt8}

theorem field_eq_overflow_iff {v : Int} {size : Nat} {p : SourcePos} :
    site.field at_ x.size x.value pos = .error (Cause.valueOverflow v size p) ↔
      x.Overflows site v ∧ size = x.size ∧ p = pos := by
  unfold Site.field
  constructor
  · intro h
    split at h
    · cases h
    · rename_i hsize
      split at h
      · cases h
      · rename_i w hw
        split at h
        · cases h
        · rename_i hfits
          cases h
          rw [Site.fitsField_iff] at hfits
          exact ⟨⟨hw, by omega, by omega, by omega⟩, rfl, rfl⟩
  · rintro ⟨⟨hv, hpos, hlt, hout⟩, rfl, rfl⟩
    rw [if_neg (by omega)]
    unfold value? at hv
    rw [hv]
    dsimp only
    rw [if_neg]
    rw [Site.fitsField_iff]
    omega

/-! ## Several fields -/

/-- A position lies in a field. -/
def Covers (x : Fixup) (i : Nat) : Prop := x.offset ≤ i ∧ i < x.offset + x.size

instance (x : Fixup) (i : Nat) : Decidable (x.Covers i) :=
  inferInstanceAs (Decidable (x.offset ≤ i ∧ i < x.offset + x.size))

theorem patch_cons (h : x.offset + x.size ≤ bytes.length) :
    patch site at_ pos (x :: xs) bytes =
      (site.field (at_ + x.offset) x.size x.value pos).bind fun field =>
        (patch site at_ pos xs (bytes.take x.offset ++ field.bytes ++ bytes.drop (x.offset + x.size))).bind fun rest =>
          .ok { rest with relocs := field.relocs ++ rest.relocs } := by
  rw [patch, if_neg (Nat.not_lt.2 h)]
  rfl

theorem getElem?_splice {field : List UInt8} (h : x.offset + x.size ≤ bytes.length) (hfield : field.length = x.size)
    {i : Nat} (hi : ¬ x.Covers i) :
    (bytes.take x.offset ++ field ++ bytes.drop (x.offset + x.size))[i]? = bytes[i]? := by
  have htake : (bytes.take x.offset).length = x.offset := by
    rw [List.length_take]
    omega
  unfold Covers at hi
  rcases Nat.lt_or_ge i x.offset with hlt | hge
  · rw [List.append_assoc, List.getElem?_append_left (by omega), List.getElem?_take_of_lt hlt]
  · rw [List.getElem?_append_right (by rw [List.length_append]; omega), List.getElem?_drop, List.length_append]
    congr 1
    omega

theorem slice_splice {field : List UInt8} (h : x.offset + x.size ≤ bytes.length) (hfield : field.length = x.size) :
    ((bytes.take x.offset ++ field ++ bytes.drop (x.offset + x.size)).drop x.offset).take x.size = field := by
  rw [List.append_assoc, List.drop_left' (by rw [List.length_take]; omega), List.take_left' hfield]

theorem slice_congr {a b : List UInt8} (h : ∀ i, x.Covers i → a[i]? = b[i]?) :
    (a.drop x.offset).take x.size = (b.drop x.offset).take x.size := by
  refine List.ext_getElem? fun i => ?_
  rw [List.getElem?_take, List.getElem?_take]
  split
  · rw [List.getElem?_drop, List.getElem?_drop]
    exact h _ ⟨by omega, by omega⟩
  · rfl

theorem patch_cons_ok {e : Emission} (h : patch site at_ pos (x :: xs) bytes = .ok e) :
    x.offset + x.size ≤ bytes.length ∧ ∃ field rest, site.field (at_ + x.offset) x.size x.value pos = .ok field ∧
      patch site at_ pos xs (bytes.take x.offset ++ field.bytes ++ bytes.drop (x.offset + x.size)) = .ok rest ∧
      e.bytes = rest.bytes := by
  have hinside : x.offset + x.size ≤ bytes.length := by
    rw [patch] at h
    split at h
    · cases h
    · omega
  rw [patch_cons hinside] at h
  obtain ⟨field, hfield, h⟩ := Except.bind_eq_ok h
  obtain ⟨rest, hrest, h⟩ := Except.bind_eq_ok h
  cases h
  exact ⟨hinside, field, rest, hfield, hrest, rfl⟩

theorem getElem?_patch {e : Emission} (h : patch site at_ pos xs bytes = .ok e) {i : Nat}
    (hi : ∀ x ∈ xs, ¬ x.Covers i) : e.bytes[i]? = bytes[i]? := by
  induction xs generalizing bytes e with
  | nil =>
    cases h
    rfl
  | cons x xs ih =>
    obtain ⟨hinside, field, rest, hfield, hrest, he⟩ := patch_cons_ok h
    rw [he, ih hrest fun y hy => hi y (List.mem_cons_of_mem x hy),
      getElem?_splice hinside (Site.length_field hfield) (hi x List.mem_cons_self)]

/-- Fields that lie one behind the other all hold their values once all of them are written. -/
theorem slice_patch {e : Emission} (h : patch site at_ pos xs bytes = .ok e)
    (hapart : xs.Pairwise fun x y => x.offset + x.size ≤ y.offset) (hx : x ∈ xs) :
    0 < x.size ∧ ∃ v, x.value? site = some v ∧ Site.fitsField x.size v = true ∧
      (e.bytes.drop x.offset).take x.size = littleEndian x.size v := by
  induction xs generalizing bytes e with
  | nil => cases hx
  | cons y ys ih =>
    obtain ⟨hinside, field, rest, hfield, hrest, he⟩ := patch_cons_ok h
    obtain ⟨hy, hys⟩ := List.pairwise_cons.1 hapart
    rw [he]
    rcases List.mem_cons.1 hx with rfl | hx
    · obtain ⟨hpos, v, hv, hfits, hbytes⟩ := Site.field_ok hfield
      refine ⟨hpos, v, hv, hfits, ?_⟩
      -- The fields behind this one do not touch it again.
      have hkept : ∀ i, x.Covers i → rest.bytes[i]? = _ := fun i hi =>
        getElem?_patch hrest fun z hz hzi => by
          have := hy z hz
          unfold Covers at hi hzi
          omega
      rw [slice_congr hkept, slice_splice hinside (Site.length_field hfield), hbytes]
    · exact ih hrest hys hx

theorem length_splice {field : List UInt8} (h : x.offset + x.size ≤ bytes.length) (hfield : field.length = x.size) :
    (bytes.take x.offset ++ field ++ bytes.drop (x.offset + x.size)).length = bytes.length := by
  simp only [List.length_append, List.length_take, List.length_drop]
  omega

theorem exists_field_of_patch_error (hinside : ∀ x ∈ xs, x.offset + x.size ≤ bytes.length) {err : Error}
    (h : patch site at_ pos xs bytes = .error err) :
    ∃ (before : List Fixup) (x : Fixup) (after : List Fixup), xs = before ++ x :: after ∧
      (∀ y ∈ before, ∃ e, site.field (at_ + y.offset) y.size y.value pos = .ok e) ∧
      site.field (at_ + x.offset) x.size x.value pos = .error err := by
  induction xs generalizing bytes with
  | nil => cases h
  | cons x xs ih =>
    have hx := hinside x List.mem_cons_self
    rw [patch_cons hx] at h
    cases hfield : site.field (at_ + x.offset) x.size x.value pos with
    | error err' =>
      rw [hfield] at h
      cases h
      exact ⟨[], x, xs, rfl, fun y hy => absurd hy List.not_mem_nil, hfield⟩
    | ok field =>
      rw [hfield, Except.bind] at h
      have hrest : patch site at_ pos xs (bytes.take x.offset ++ field.bytes ++ bytes.drop (x.offset + x.size)) =
          .error err := by
        rcases hrest : patch site at_ pos xs (bytes.take x.offset ++ field.bytes ++ bytes.drop (x.offset + x.size)) with
          err' | rest
        · rw [hrest] at h
          cases h
          rfl
        · rw [hrest] at h
          cases h
      obtain ⟨before, z, after, rfl, hbefore, hz⟩ := ih (fun y hy => by
        rw [length_splice hx (Site.length_field hfield)]
        exact hinside y (List.mem_cons_of_mem x hy)) hrest
      refine ⟨x :: before, z, after, rfl, fun y hy => ?_, hz⟩
      rcases List.mem_cons.1 hy with rfl | hy
      · exact ⟨field, hfield⟩
      · exact hbefore y hy

theorem patch_of_field_error {before after : List Fixup}
    (hinside : ∀ y ∈ before ++ x :: after, y.offset + y.size ≤ bytes.length)
    (hbefore : ∀ y ∈ before, ∃ e, site.field (at_ + y.offset) y.size y.value pos = .ok e) {err : Error}
    (h : site.field (at_ + x.offset) x.size x.value pos = .error err) :
    patch site at_ pos (before ++ x :: after) bytes = .error err := by
  induction before generalizing bytes with
  | nil =>
    rw [List.nil_append, patch_cons (hinside x List.mem_cons_self), h]
    rfl
  | cons y before ih =>
    have hy := hinside y List.mem_cons_self
    obtain ⟨field, hfield⟩ := hbefore y List.mem_cons_self
    rw [List.cons_append, patch_cons hy, hfield, Except.bind,
      ih (fun z hz => ?_) fun z hz => hbefore z (List.mem_cons_of_mem y hz)]
    · rfl
    · rw [length_splice hy (Site.length_field hfield)]
      exact hinside z (List.mem_cons_of_mem y hz)

end Fixup

end SpanLayout
