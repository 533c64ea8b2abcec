import SpanLayout.Proofs.Tail.Requests

/-!
# The way back into a repetition

A repetition passes on the spans of its body under packed ids. Such an id leads back to the fragment that asked for the
span exactly if the fragment used an id of its own that is small enough. The ids that a repetition passes on are not, so
what a repetition inside another one passes on does not find its way back.
-/

namespace SpanLayout

/-! ## Packed ids -/

namespace Repetition

theorem natAbs_pack (id : Int) (slot anchor : Nat) :
    (pack id slot anchor).natAbs = id.natAbs + 100 * (slot + 1) + 50 * anchor := by
  unfold pack
  simp only [stride, anchorStride]
  split <;> omega

theorem sign_pack {id : Int} (h : id ≠ 0) (slot anchor : Nat) : (pack id slot anchor).sign = id.sign := by
  unfold pack
  simp only [stride, anchorStride]
  split
  · rw [Int.sign_eq_one_of_pos (by omega), Int.sign_eq_one_of_pos (by omega)]
  · rw [Int.sign_eq_neg_one_of_neg (by omega), Int.sign_eq_neg_one_of_neg (by omega)]

theorem unpack_of_natAbs {id : Int} {slot : Nat} (h : id.natAbs / 100 = slot + 1) :
    unpack id = some (slot, (id.natAbs % 100 % 50 : Nat) * id.sign) := by
  simp only [unpack, stride, anchorStride, h]

theorem unpack_pack_iff (id : Int) (slot : Nat) {anchor : Nat} (ha : anchor ≤ 1) :
    unpack (pack id slot anchor) = some (slot, id) ↔ id.natAbs < anchorStride := by
  have hn := natAbs_pack id slot anchor
  constructor
  · intro h
    by_contra hle
    simp only [anchorStride, Nat.not_lt] at hle
    -- The slot is the right one only up to 100, and then the remainder has lost at least 50.
    obtain ⟨k, hk⟩ : ∃ k, (pack id slot anchor).natAbs / 100 = k + 1 := ⟨_, (Nat.succ_pred (by omega)).symm⟩
    rw [unpack_of_natAbs hk, Option.some.injEq, Prod.mk.injEq] at h
    have hid := congrArg Int.natAbs h.2
    rw [Int.natAbs_mul, Int.natAbs_natCast] at hid
    rw [Int.natAbs_sign_of_ne_zero (by omega)] at hid
    omega
  · intro h
    simp only [anchorStride] at h
    rw [unpack_of_natAbs (show _ = slot + 1 by omega)]
    have hr : (pack id slot anchor).natAbs % 100 % 50 = id.natAbs := by omega
    rw [hr]
    by_cases h0 : id = 0
    · simp [h0]
    · rw [sign_pack h0, Int.mul_comm, Int.sign_mul_natAbs]

theorem exists_anchor_of_mem_relay {owner : FragmentInfo} {slot : Nat} {r q : SpanRequest}
    (h : q ∈ relay owner slot r) : ∃ anchor ≤ 1, q.id = pack r.id slot anchor := by
  unfold relay at h
  dsimp only at h
  split at h
  · simp only [List.mem_singleton] at h
    exact ⟨0, by omega, by rw [h]⟩
  · simp only [List.mem_cons, List.not_mem_nil, or_false] at h
    rcases h with rfl | rfl
    · exact ⟨0, by omega, rfl⟩
    · exact ⟨1, by omega, rfl⟩

end Repetition

/-! ## Which fragment asked -/

section

variable {κ : Type} [Directive κ]

theorem exists_of_mem_measureBody {owner : FragmentInfo} {slot offset : Nat} {fs : List (Fragment (Tail κ))}
    {q : SpanRequest} (h : q ∈ (measureBody owner slot offset fs).state.2) :
    ∃ k f start r, fs[k]? = some f ∧ r ∈ (f.measureAt start).state.2 ∧ q ∈ Repetition.relay owner (slot + k) r := by
  induction fs generalizing slot offset with
  | nil => simp [measureBody, Attempt.done] at h
  | cons f fs ih =>
    have first {spans : List SpanRequest} (hs : (f.measureAt offset).state.2 = spans)
        (hq : q ∈ spans.flatMap (Repetition.relay owner slot)) :
        ∃ k g start r, (f :: fs)[k]? = some g ∧ r ∈ (g.measureAt start).state.2 ∧
          q ∈ Repetition.relay owner (slot + k) r := by
      obtain ⟨r, hr, hq⟩ := List.mem_flatMap.1 hq
      exact ⟨0, f, offset, r, rfl, hs ▸ hr, hq⟩
    rw [measureBody] at h
    split at h
    · rename_i hf
      exact first (by rw [hf]) h
    · rename_i g spans _ hf
      rw [Attempt.mapState_state, List.mem_append] at h
      rcases h with h | h
      · exact first (by rw [hf]) h
      · obtain ⟨k, g, start, r, hk, hr, hq⟩ := ih h
        exact ⟨k + 1, g, start, r, hk, hr, by rwa [show slot + (k + 1) = slot + 1 + k by omega]⟩

theorem Tail.mem_measure_times {info : FragmentInfo} {count : Expr} {body : Block (Tail κ)} {reps : Nat}
    {q : SpanRequest} (h : q ∈ ((Tail.times count body reps).measure info).state.2) :
    q.id = Repetition.countId ∨
      ∃ slot f start r, body.fragments[slot]? = some f ∧ r ∈ (f.measureAt start).state.2 ∧
        q ∈ Repetition.relay info slot r := by
  have passed {spans : List SpanRequest} (hs : (measureBody info 0 0 body.fragments).state.2 = spans) (hq : q ∈ spans) :
      ∃ slot f start r, body.fragments[slot]? = some f ∧ r ∈ (f.measureAt start).state.2 ∧
        q ∈ Repetition.relay info slot r := by
    subst hs
    simpa using exists_of_mem_measureBody hq
  rw [Tail.measure] at h
  split at h
  · rename_i hb
    exact .inr (passed (congrArg (·.state.2) hb) h)
  · rename_i hb
    split at h
    · simp only [Attempt.done, List.mem_append, List.mem_singleton] at h
      rcases h with h | rfl
      · exact .inr (passed (congrArg (·.state.2) hb) h)
      · exact .inl rfl
    · split at h
      · exact .inr (passed (congrArg (·.state.2) hb) h)
      · exact .inr (passed (congrArg (·.state.2) hb) h)

/-- What a repetition passes on has an id that no packing can hide again. -/
theorem Tail.stride_le_of_mem_measure_times {info : FragmentInfo} {count : Expr} {body : Block (Tail κ)} {reps : Nat}
    {q : SpanRequest} (h : q ∈ ((Tail.times count body reps).measure info).state.2) (hid : q.id ≠ Repetition.countId) :
    Repetition.stride ≤ q.id.natAbs := by
  obtain hc | ⟨slot, f, start, r, -, -, hq⟩ := Tail.mem_measure_times h
  · exact absurd hc hid
  · obtain ⟨anchor, -, hpack⟩ := Repetition.exists_anchor_of_mem_relay hq
    rw [hpack, Repetition.natAbs_pack, Repetition.stride]
    omega

/-! ## Delivery -/

/-- A repetition in which fragment `slot` of the body, `f`, takes up an expansion called `id`. All other fragments stay
as they are, behind a longer or shorter one. -/
def Tail.deliver (slot : Nat) (f : Fragment (Tail κ)) (id old new : Int) (count : Expr) (body : Block (Tail κ))
    (reps : Nat) : Attempt Error (Tail κ) Expansion :=
  let x := f.expand id old new
  let fragments := body.fragments.set slot x.state
  match x.result with
  | .error e => .fail (.times count { body with fragments } reps) e
  | .ok y =>
    .done (.times count { body with fragments := Fragment.placeFrom 0 fragments } reps)
      { y with len := Fragment.sumLen fragments * reps }

theorem Tail.expand_of_unpack {id id' : Int} {slot : Nat} (hc : id ≠ Repetition.countId)
    (hu : Repetition.unpack id = some (slot, id')) (info : FragmentInfo) (old new : Int) (count : Expr)
    {body : Block (Tail κ)} (reps : Nat) {f : Fragment (Tail κ)} (hf : body.fragments[slot]? = some f) :
    (Tail.times count body reps).expand info id old new = Tail.deliver slot f id' old new count body reps := by
  rw [Tail.expand, if_neg hc, hu]
  simp only [expandInBody_eq, hf, Option.map_some, Attempt.mapState, Tail.deliver]
  cases (f.expand id' old new).result <;> rfl

/-- Every span that a repetition passes on was asked for by one fragment of its body. Where the packed id is a 32-bit
word, an expansion under it is delivered to that fragment, under the id that it used, if this id is below the distance
of the two anchors; otherwise it is not, and so it never is for what a repetition in the body has passed on itself. -/
theorem Tail.expand_passed_on (info : FragmentInfo) (count : Expr) (body : Block (Tail κ)) (reps : Nat)
    (q : SpanRequest)
    (hq : q ∈ ((Tail.times count body reps).measure info).state.2) (hid : q.id ≠ Repetition.countId) (id : Int32)
    (hword : id.toInt = q.id) :
    ∃ slot f start r, body.fragments[slot]? = some f ∧ r ∈ (f.measureAt start).state.2 ∧
      q ∈ Repetition.relay info slot r ∧
      (r.id.natAbs < Repetition.anchorStride →
        ∀ (info' : FragmentInfo) (old new : Int) (count' : Expr) (body' : Block (Tail κ)) (reps' : Nat)
          (g : Fragment (Tail κ)), body'.fragments[slot]? = some g →
            (Tail.times count' body' reps').expand info' id.toInt old new =
              Tail.deliver slot g r.id old new count' body' reps') ∧
      (Repetition.anchorStride ≤ r.id.natAbs → Repetition.unpack id.toInt ≠ some (slot, r.id)) ∧
      ((∃ count' body' reps', f.tail = some (.times count' body' reps')) → r.id ≠ Repetition.countId →
        Repetition.unpack id.toInt ≠ some (slot, r.id)) := by
  rw [hword]
  obtain hc | ⟨slot, f, start, r, hf, hr, hrelay⟩ := Tail.mem_measure_times hq
  · exact absurd hc hid
  obtain ⟨anchor, ha, hpack⟩ := Repetition.exists_anchor_of_mem_relay hrelay
  have hiff := Repetition.unpack_pack_iff r.id slot ha
  rw [← hpack] at hiff
  refine ⟨slot, f, start, r, hf, hr, hrelay, ?_, ?_, ?_⟩
  · intro hsmall info' old new count' body' reps' g hg
    exact Tail.expand_of_unpack hid (hiff.2 hsmall) info' old new count' reps' hg
  · intro hle h
    exact absurd (hiff.1 h) (by omega)
  · rintro ⟨count', body', reps', ht⟩ hne h
    have hlt := hiff.1 h
    have hbig : Repetition.stride ≤ r.id.natAbs := by
      rw [Fragment.measureAt_of_some ht] at hr
      have hmem : r ∈ ((Tail.times count' body' reps').measure { f.info with offset := start }).state.2 := by
        split at hr <;> rename_i heq <;> rw [heq] <;> exact hr
      exact Tail.stride_le_of_mem_measure_times hmem hne
    simp only [Repetition.stride, Repetition.anchorStride] at hlt hbig
    omega

end

/-! ## A jump in a repetition, and in two -/

/-- A repetition as the first fragment behind the empty one of its section. -/
def repeater : FragmentInfo := ⟨⟨0, 1⟩, 0, 0, 0, 1, .unknown⟩

/-- A body that holds one tail. -/
def bodyOf (t : Tail Empty) : Block (Tail Empty) := (Block.empty 0).appendTail t .unknown

/-- A jump from the beginning of the repetition to some place behind it, once it has been finalized. -/
def forwardJump : Tail Empty :=
  let target : Expr := .loc ⟨⟨0, 5⟩, 0⟩
  .branch { Branch.jump target with
    value := some ({ Value.ofExpr target with isSigned := true }.minusLoc repeater.tailLoc) }

/-- The span that a repeated jump asks for on behalf of its first copy. -/
def forwardSpan : SpanRequest :=
  ⟨201, { Value.ofExpr (.loc ⟨⟨0, 5⟩, 0⟩) with isSigned := true }.minusLoc repeater.tailLoc, ⟨-126, 129⟩⟩

theorem Tail.expand_passed_on_forwardJump :
    forwardSpan ∈ ((Tail.times (.const 1) (bodyOf forwardJump) 0).measure repeater).state.2 ∧
      ∃ slot f id, (bodyOf forwardJump).fragments[slot]? = some f ∧ ∀ old new,
        (Tail.times (.const 1) (bodyOf forwardJump) 0).expand repeater 201 old new =
          Tail.deliver slot f id old new (.const 1) (bodyOf forwardJump) 0 := by
  have hq : forwardSpan ∈ ((Tail.times (.const 1) (bodyOf forwardJump) 0).measure repeater).state.2 := by decide +kernel
  refine ⟨hq, ?_⟩
  obtain ⟨slot, f, start, r, hf, hr, -, hsmall, -, -⟩ :=
    Tail.expand_passed_on repeater (.const 1) (bodyOf forwardJump) 0 forwardSpan hq (by decide) 201 (by decide)
  have hlt : r.id.natAbs < Repetition.anchorStride := by
    have hplain : ∀ g ∈ (bodyOf forwardJump).fragments, g.tail.all Tail.plain = true := by decide +kernel
    rw [(Fragment.measureAt_own start (hplain f (List.mem_of_getElem? hf))).1] at hr
    rw [Fragment.own_id hr]
    decide
  exact ⟨slot, f, r.id, hf, fun old new => hsmall hlt repeater old new _ _ _ f hf⟩

/-- In a repetition within a repetition the jump asks for its span under id 1, the inner repetition passes it on as 201
and the outer one as 401. Under this id there is no fragment in the outer body. -/
theorem Tail.expand_nested_jump :
    let inner : Tail Empty := .times (.const 1) (bodyOf forwardJump) 0
    let outer : Tail Empty := .times (.const 1) (bodyOf inner) 0
    (forwardJump.measure repeater).state.2.map (·.id) = [1] ∧
      (inner.measure repeater).state.2.map (·.id) = [201, 251] ∧
      (outer.measure repeater).state.2.map (·.id) = [401, 451, 451] ∧
      ∀ id ∈ [(401 : Int), 451], ((outer.measure repeater).state.1.expand repeater id 0 1000).result.isOk = false := by
  decide +kernel

end SpanLayout
