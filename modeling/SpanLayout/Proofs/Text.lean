import SpanLayout.Proofs.Image

/-!
# The bytes and fields of a fragment

Fields are filled in one by one, each in its own place. What comes out is what would come out if each piece were written
when it was appended: the bytes as they are, and every field with the bytes of its value.
-/

namespace SpanLayout

/-- One text after the other, if there are both. -/
def joined (a b : Option (List UInt8)) : Option (List UInt8) := a.bind fun a => b.map (a ++ ·)

@[simp] theorem joined_nil (a : Option (List UInt8)) : joined a (some []) = a := by
  cases a <;> simp [joined]

@[simp] theorem nil_joined (a : Option (List UInt8)) : joined (some []) a = a := by
  cases a <;> simp [joined]

theorem joined_assoc (a b c : Option (List UInt8)) : joined (joined a b) c = joined a (joined b c) := by
  cases a <;> cases b <;> cases c <;> simp [joined]

@[simp] theorem joined_none (a : Option (List UInt8)) : joined a none = none := by
  cases a <;> simp [joined]

theorem joined_eq_some {a b : Option (List UInt8)} {c : List UInt8} (h : joined a b = some c) :
    ∃ x y, a = some x ∧ b = some y ∧ c = x ++ y := by
  cases a <;> cases b <;> simp [joined] at h
  exact ⟨_, _, rfl, rfl, h.symm⟩

/-- The bytes of an emission, if there is one. -/
def bytes? (x : Except Error Emission) : Option (List UInt8) := x.toOption.map (·.bytes)

@[simp] theorem bytes?_ok (e : Emission) : bytes? (.ok e) = some e.bytes := rfl

@[simp] theorem bytes?_error (e : Error) : bytes? (.error e) = none := rfl

/-! ## Fields -/

variable (symbols : SymbolTable) (site : Site)

theorem Site.bytes?_field (at_ at' size : Nat) (v : Value) (pos pos' : SourcePos) :
    bytes? (site.field at_ size v pos) = bytes? (site.field at' size v pos') := by
  unfold Site.field
  split
  · rfl
  · split
    · rfl
    · split <;> rfl

namespace Fixup

theorem bytes?_patch_cons (at_ : Nat) (pos : SourcePos) (f : Fixup) (fs : List Fixup) (bytes : List UInt8) :
    bytes? (patch site at_ pos (f :: fs) bytes) =
      if bytes.length < f.offset + f.size then none
      else (bytes? (site.field (at_ + f.offset) f.size f.value pos)).bind fun field =>
        bytes? (patch site at_ pos fs (bytes.take f.offset ++ field ++ bytes.drop (f.offset + f.size))) := by
  rw [patch]
  split
  · rfl
  · cases site.field (at_ + f.offset) f.size f.value pos with
    | error e => rfl
    | ok field =>
      dsimp only [bind, Except.bind, bytes?_ok, Option.bind_some]
      cases patch site at_ pos fs (bytes.take f.offset ++ field.bytes ++ bytes.drop (f.offset + f.size)) <;> rfl

theorem bytes?_patch (at_ at' : Nat) (pos pos' : SourcePos) (fs : List Fixup) (bytes : List UInt8) :
    bytes? (patch site at_ pos fs bytes) = bytes? (patch site at' pos' fs bytes) := by
  induction fs generalizing bytes with
  | nil => rfl
  | cons f fs ih =>
    rw [bytes?_patch_cons, bytes?_patch_cons, site.bytes?_field _ (at' + f.offset) _ _ _ pos']
    simp only [ih]

theorem length_bytes?_field {at_ size : Nat} {v : Value} {pos : SourcePos} {field : List UInt8}
    (h : bytes? (site.field at_ size v pos) = some field) : field.length = size := by
  cases hf : site.field at_ size v pos with
  | error e =>
    rw [hf] at h
    cases h
  | ok e =>
    rw [hf] at h
    cases h
    exact Site.length_field hf

theorem bytes?_patch_append (at_ : Nat) (pos : SourcePos) {fs : List Fixup} {bytes : List UInt8}
    (h : ∀ f ∈ fs, f.offset + f.size ≤ bytes.length) (more : List UInt8) :
    bytes? (patch site at_ pos fs (bytes ++ more)) = joined (bytes? (patch site at_ pos fs bytes)) (some more) := by
  induction fs generalizing bytes with
  | nil => rfl
  | cons f fs ih =>
    have hf := h f List.mem_cons_self
    rw [bytes?_patch_cons, bytes?_patch_cons, if_neg (by simp; omega), if_neg (by omega)]
    cases hfield : bytes? (site.field (at_ + f.offset) f.size f.value pos) with
    | none => rfl
    | some field =>
      have hlen := length_bytes?_field site hfield
      simp only [Option.bind_some]
      rw [List.take_append_of_le_length (by omega), List.drop_append_of_le_length (by omega), ← List.append_assoc]
      apply ih
      intro g hg
      have := h g (List.mem_cons_of_mem _ hg)
      simp only [List.length_append, List.length_take, List.length_drop]
      omega

theorem bytes?_patch_concat (at_ : Nat) (pos : SourcePos) (fs : List Fixup) (f : Fixup) (bytes : List UInt8) :
    bytes? (patch site at_ pos (fs ++ [f]) bytes) =
      (bytes? (patch site at_ pos fs bytes)).bind fun bytes => bytes? (patch site at_ pos [f] bytes) := by
  induction fs generalizing bytes with
  | nil => rfl
  | cons g fs ih =>
    rw [List.cons_append, bytes?_patch_cons, bytes?_patch_cons]
    split
    · rfl
    · cases bytes? (site.field (at_ + g.offset) g.size g.value pos) with
      | none => rfl
      | some field => exact ih _

theorem bytes?_patch_last (at_ : Nat) (pos : SourcePos) (f : Fixup) {bytes : List UInt8} (h : bytes.length = f.offset)
    {blank : List UInt8} (hb : blank.length = f.size) :
    bytes? (patch site at_ pos [f] (bytes ++ blank)) =
      joined (some bytes) (bytes? (site.field at_ f.size f.value pos)) := by
  rw [bytes?_patch_cons, if_neg (by simp; omega), site.bytes?_field _ at_ _ _ _ pos]
  cases bytes? (site.field at_ f.size f.value pos) with
  | none => rfl
  | some field =>
    simp only [Option.bind_some, patch, bytes?_ok, Emission.ofBytes, joined, Option.map_some]
    rw [← h, List.take_left', List.drop_eq_nil_of_le (by simp; omega), List.append_nil]
    rfl

end Fixup

/-! ## Finalizing -/

/-- The value that finalizing makes of another. -/
def Value.finalized? (v : Value) : Option Value :=
  match v.finalize symbols .unknown with
  | ⟨v', .ok _⟩ => some v'
  | ⟨_, .error _⟩ => none

theorem Value.finalize_cases {v v' : Value} {pos : SourcePos} (h : v.finalize symbols pos = .done v' ()) :
    (v.abs = none ∧ v' = v) ∨ ∃ e e', v.abs = some e ∧ e.expand symbols = .done e' () ∧
      ¬ (1 < (e'.simplify.addends.filterMap bareSym?).length + (if v.isRelative then 1 else 0) ∨
        (e'.simplify.addends.filter fun t => (bareSym? t).isNone).any Expr.mentionsSym = true) ∧
      v' = { v with
        abs := some (Expr.sum (e'.simplify.addends.filter fun t => (bareSym? t).isNone)).simplify
        rel := (e'.simplify.addends.filterMap bareSym?).getLast?.or v.rel } := by
  unfold Value.finalize at h
  cases ha : v.abs with
  | none =>
    rw [ha] at h
    cases h
    exact .inl ⟨rfl, rfl⟩
  | some e =>
    rw [ha] at h
    dsimp only at h
    split at h
    · cases h
    · rename_i e' _ he
      by_cases hc : 1 < (e'.simplify.addends.filterMap bareSym?).length + (if v.isRelative then 1 else 0) ∨
          (e'.simplify.addends.filter fun t => (bareSym? t).isNone).any Expr.mentionsSym = true
      · rw [if_pos hc] at h
        cases h
      · rw [if_neg hc] at h
        cases h
        exact .inr ⟨e, e', rfl, he, hc, rfl⟩

theorem Value.finalize_of_expand {v : Value} {e e' : Expr} (ha : v.abs = some e) (he : e.expand symbols = .done e' ())
    (hc : ¬ (1 < (e'.simplify.addends.filterMap bareSym?).length + (if v.isRelative then 1 else 0) ∨
      (e'.simplify.addends.filter fun t => (bareSym? t).isNone).any Expr.mentionsSym = true)) (pos : SourcePos) :
    v.finalize symbols pos = .done { v with
      abs := some (Expr.sum (e'.simplify.addends.filter fun t => (bareSym? t).isNone)).simplify
      rel := (e'.simplify.addends.filterMap bareSym?).getLast?.or v.rel } () := by
  unfold Value.finalize
  rw [ha]
  dsimp only
  rw [he]
  exact if_neg hc

theorem Value.finalize_done {v v' : Value} {pos : SourcePos} (h : v.finalize symbols pos = .done v' ())
    (pos' : SourcePos) : v.finalize symbols pos' = .done v' () ∧ v'.size = v.size := by
  rcases Value.finalize_cases symbols h with ⟨ha, rfl⟩ | ⟨e, e', ha, he, hc, rfl⟩
  · unfold Value.finalize
    rw [ha]
    exact ⟨rfl, rfl⟩
  · exact ⟨Value.finalize_of_expand symbols ha he hc pos', rfl⟩

theorem Value.finalized?_of_done {v v' : Value} {pos : SourcePos} (h : v.finalize symbols pos = .done v' ()) :
    v.finalized? symbols = some v' := by
  rw [Value.finalized?, (Value.finalize_done symbols h .unknown).1]
  rfl

theorem Value.done_of_finalized? {v v' : Value} (h : v.finalized? symbols = some v') (pos : SourcePos) :
    v.finalize symbols pos = .done v' () := by
  unfold Value.finalized? at h
  split at h
  · rename_i hx
    cases h
    exact (Value.finalize_done symbols hx pos).1
  · cases h

theorem Value.size_of_finalized? {v v' : Value} (h : v.finalized? symbols = some v') : v'.size = v.size :=
  (Value.finalize_done symbols (Value.done_of_finalized? symbols h .unknown) .unknown).2

/-- The fields that finalizing makes of others. -/
def Fixup.finalized? : List Fixup → Option (List Fixup)
  | [] => some []
  | f :: fs => (f.value.finalized? symbols).bind fun v => (finalized? fs).map ({ f with value := v } :: ·)

theorem Fixup.finalized?_of_done {pos : SourcePos} {fs gs : List Fixup} (h : finalizeAll symbols pos fs = .done gs ()) :
    finalized? symbols fs = some gs := by
  induction fs generalizing gs with
  | nil =>
    rw [finalizeAll] at h
    cases h
    rfl
  | cons f fs ih =>
    rw [finalizeAll] at h
    split at h
    · rename_i v _ hv
      obtain ⟨x, hx⟩ : ∃ x, finalizeAll symbols pos fs = x := ⟨_, rfl⟩
      obtain ⟨gs', r⟩ := x
      rw [hx] at h
      cases r with
      | error e => cases h
      | ok _ =>
        cases h
        rw [finalized?, Value.finalized?_of_done symbols hv, ih hx]
        rfl
    · cases h

theorem Fixup.finalized?_concat (fs : List Fixup) (f : Fixup) :
    finalized? symbols (fs ++ [f]) = (finalized? symbols fs).bind fun gs =>
      (f.value.finalized? symbols).map fun v => gs ++ [{ f with value := v }] := by
  induction fs with
  | nil =>
    simp only [List.nil_append, finalized?, Option.bind_some]
    cases f.value.finalized? symbols <;> rfl
  | cons g fs ih =>
    rw [List.cons_append, finalized?, finalized?, ih]
    cases g.value.finalized? symbols <;> cases finalized? symbols fs <;> cases f.value.finalized? symbols <;> rfl

theorem Fixup.places_of_finalized? {fs gs : List Fixup} (h : finalized? symbols fs = some gs) {n : Nat}
    (hfs : ∀ f ∈ fs, f.offset + f.size ≤ n) : ∀ g ∈ gs, g.offset + g.size ≤ n := by
  induction fs generalizing gs with
  | nil =>
    cases h
    exact nofun
  | cons f fs ih =>
    rw [finalized?] at h
    obtain ⟨v, hv, h⟩ := Option.bind_eq_some_iff.1 h
    obtain ⟨gs', hgs, rfl⟩ := Option.map_eq_some_iff.1 h
    intro g hg
    rcases List.mem_cons.1 hg with rfl | hg
    · have := hfs f List.mem_cons_self
      unfold Fixup.size at this ⊢
      rwa [Value.size_of_finalized? symbols hv]
    · exact ih hgs (fun f hf => hfs f (List.mem_cons_of_mem _ hf)) g hg

/-! ## Texts -/

/-- The bytes of a value in its field, once it has been finalized. -/
def Value.written? (v : Value) : Option (List UInt8) :=
  (v.finalized? symbols).bind fun v' => bytes? (site.field 0 ((v.size + 7) / 8) v' .unknown)

namespace Fragment

/-- The fixed bytes of a fragment, with its fields filled in. -/
def text? (f : Fragment (Tail Empty)) : Option (List UInt8) :=
  (Fixup.finalized? symbols f.fixups).bind fun fixups => bytes? (Fixup.patch site 0 .unknown fixups f.fixed)

/-- All fields lie within the fixed bytes. -/
def FieldsInside {τ : Type} (f : Fragment τ) : Prop := ∀ x ∈ f.fixups, x.offset + x.size ≤ f.fixed.length

theorem text?_appendBytes {f : Fragment (Tail Empty)} (h : f.FieldsInside) (bytes : List UInt8) :
    (f.appendBytes bytes).text? symbols site = joined (f.text? symbols site) (some bytes) := by
  unfold text?
  rw [show (f.appendBytes bytes).fixups = f.fixups from rfl, show (f.appendBytes bytes).fixed =
    f.fixed ++ bytes from rfl]
  cases hfin : Fixup.finalized? symbols f.fixups with
  | none => rfl
  | some gs => exact Fixup.bytes?_patch_append site 0 .unknown (Fixup.places_of_finalized? symbols hfin h) bytes

theorem text?_appendValue {f : Fragment (Tail Empty)} (h : f.FieldsInside) (v : Value) :
    (f.appendValue v).text? symbols site = joined (f.text? symbols site) (v.written? symbols site) := by
  unfold text? Value.written?
  rw [show (f.appendValue v).fixups = f.fixups ++ [⟨f.fixed.length, v⟩] from rfl,
    show (f.appendValue v).fixed = f.fixed ++ List.replicate ((v.size + 7) / 8) 0 from rfl, Fixup.finalized?_concat]
  cases hfin : Fixup.finalized? symbols f.fixups with
  | none => rfl
  | some gs =>
    cases hv : v.finalized? symbols with
    | none => simp
    | some v' =>
      have hsize := Value.size_of_finalized? symbols hv
      have hplaces := Fixup.places_of_finalized? symbols hfin h
      simp only [Option.bind_some, Option.map_some]
      rw [Fixup.bytes?_patch_concat, Fixup.bytes?_patch_append site 0 .unknown hplaces]
      cases hp : bytes? (Fixup.patch site 0 .unknown gs f.fixed) with
      | none => rfl
      | some text =>
        have hlen : text.length = f.fixed.length := by
          cases hx : Fixup.patch site 0 .unknown gs f.fixed with
          | error e =>
            rw [hx] at hp
            cases hp
          | ok e =>
            rw [hx] at hp
            cases hp
            exact Fixup.length_patch hx
        simp only [joined, Option.bind_some, Option.map_some]
        rw [Fixup.bytes?_patch_last site 0 .unknown _ hlen (by simp [Fixup.size, hsize])]
        simp [joined, Fixup.size, hsize]

theorem length_text? {f : Fragment (Tail Empty)} {text : List UInt8} (h : f.text? symbols site = some text) :
    text.length = f.fixedLen := by
  obtain ⟨gs, -, hp⟩ := Option.bind_eq_some_iff.1 h
  cases hx : Fixup.patch site 0 .unknown gs f.fixed with
  | error e =>
    rw [hx] at hp
    cases hp
  | ok e =>
    rw [hx] at hp
    cases hp
    exact Fixup.length_patch hx

end Fragment

end SpanLayout
