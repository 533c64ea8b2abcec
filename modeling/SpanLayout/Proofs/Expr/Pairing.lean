import Mathlib.Data.List.Count
import Mathlib.Data.List.Forall2
import Mathlib.Data.List.Perm.Subperm
import SpanLayout.Object
import SpanLayout.Proofs.Expr.Mentions

/-!
# Which distances are taken out

Every sum gives up as many distances in a section as it can: one for each location that another is subtracted from. The
slots that stand for them are numbered in the order in which they are found, and the expression keeps its exact value.
So it comes to the same whether it is computed from distances or from addresses. -/

namespace SpanLayout

/-- Whether a location lies in section `k`. -/
def Location.inSection (k : Nat) (l : Location) : Bool := l.fragment.sectionIndex == k

namespace Expr

/-! ## Sums and slots -/

mutual

/-- The terms of the sums in an expression, inner sums first. -/
def sums : Expr → List (List Expr)
  | .neg e => e.sums
  | .sum ts => sumsAll ts ++ [ts]
  | .mul a b => a.sums ++ b.sums
  | .const _ | .sym _ | .loc _ | .slot _ => []

/-- The terms of the sums in the terms of a sum. -/
def sumsAll : List Expr → List (List Expr)
  | [] => []
  | t :: ts => t.sums ++ sumsAll ts

end

mutual

/-- The slots that occur in an expression. -/
def slots : Expr → List Nat
  | .slot n => [n]
  | .neg e => e.slots
  | .sum ts => slotsAll ts
  | .mul a b => a.slots ++ b.slots
  | .const _ | .sym _ | .loc _ => []

/-- The slots that occur in the terms of a sum. -/
def slotsAll : List Expr → List Nat
  | [] => []
  | t :: ts => t.slots ++ slotsAll ts

end

/-- The location that a term is. -/
def asLoc? : Expr → Option Location
  | .loc l => some l
  | _ => none

/-- The location that a term subtracts. -/
def asNegLoc? : Expr → Option Location
  | .neg e => e.asLoc?
  | _ => none

/-- The locations that a sum adds. -/
def added (terms : List Expr) : List Location := terms.filterMap asLoc?

/-- The distances pair locations that a sum adds with locations of the same section that it subtracts, and in every
section they are as many as they can be. -/
structure PairsOf (terms : List Expr) (ds : List Distance) : Prop where
  targets : (ds.map (·.target)).Sublist (added terms)
  origins : (ds.map (·.origin)).Subperm (subtracted terms)
  sameSection : ∀ d ∈ ds, d.origin.sameSection d.target = true
  countP_eq : ∀ k, ds.countP (·.target.inSection k) =
    min ((added terms).countP (·.inSection k)) ((subtracted terms).countP (·.inSection k))

/-! ## One sum -/

theorem added_cons_loc (l : Location) (ts : List Expr) : added (.loc l :: ts) = l :: added ts := rfl

theorem added_cons_of_not_loc {t : Expr} (ht : ∀ l, t = .loc l → False) (ts : List Expr) :
    added (t :: ts) = added ts := by
  cases t with
  | loc l => exact (ht l rfl).elim
  | const _ | sym _ | slot _ | neg _ | sum _ | mul _ _ => rfl

theorem targets_pairTerms (next : Nat) (origins : List Location) (ts : List Expr) :
    ((pairTerms next origins ts).2.map (·.target)).Sublist (added ts) := by
  fun_induction pairTerms next origins ts with
  | case1 => exact .slnil
  | case2 next origins l ts o ho us ds hds ih =>
    rw [hds] at ih
    exact ih.cons_cons l
  | case3 next origins l ts ho us ds hds ih =>
    rw [hds] at ih
    exact ih.cons l
  | case4 next origins t ts hloc us ds hds ih =>
    rw [hds] at ih
    rw [added_cons_of_not_loc hloc]
    exact ih

theorem sameSection_of_mem_pairTerms {d : Distance} {next : Nat} {origins : List Location} {ts : List Expr}
    (h : d ∈ (pairTerms next origins ts).2) : d.origin.sameSection d.target = true := by
  fun_induction pairTerms next origins ts with
  | case1 => cases h
  | case2 next origins l ts o ho us ds hds ih =>
    rcases List.mem_cons.1 h with rfl | h
    · simpa using List.find?_some ho
    · exact ih (by rw [hds]; exact h)
  | case3 next origins l ts ho us ds hds ih | case4 next origins t ts hloc us ds hds ih =>
    exact ih (by rw [hds]; exact h)

theorem countP_pairTerms (k next : Nat) (origins : List Location) (ts : List Expr) :
    (pairTerms next origins ts).2.countP (·.target.inSection k) =
      min ((added ts).countP (·.inSection k)) (origins.countP (·.inSection k)) := by
  -- Pairing goes on until the locations or the origins of a section are used up.
  fun_induction pairTerms next origins ts with
  | case1 => simp [added]
  | case2 next origins l ts o ho us ds hds ih =>
    rw [hds, List.countP_erase] at ih
    have hmem := List.mem_of_find?_eq_some ho
    have hsame : o.inSection k = l.inSection k := by
      have hsection := List.find?_some ho
      simp only [Location.sameSection, beq_iff_eq] at hsection
      rw [Location.inSection, Location.inSection, hsection]
    rw [added_cons_loc, List.countP_cons, List.countP_cons, ih]
    cases hk : l.inSection k with
    | true =>
      have hpos : 0 < origins.countP (·.inSection k) := List.countP_pos_iff.2 ⟨o, hmem, hsame.trans hk⟩
      simp only [hmem, hsame, hk, and_self, if_true]
      omega
    | false => simp [hsame, hk]
  | case3 next origins l ts ho us ds hds ih =>
    rw [hds] at ih
    rw [added_cons_loc, List.countP_cons, ih]
    cases hk : l.inSection k with
    | true =>
      -- There is no origin left in the section of the location.
      have hzero : origins.countP (·.inSection k) = 0 := by
        refine List.countP_eq_zero.2 fun o hmem hsection => List.find?_eq_none.1 ho o hmem ?_
        simp only [Location.inSection, beq_iff_eq] at hk hsection
        simp [Location.sameSection, hk, hsection]
      simp [hzero]
    | false => simp
  | case4 next origins t ts hloc us ds hds ih =>
    rw [hds] at ih
    rw [added_cons_of_not_loc hloc, ih]

theorem pairSum_distances (next : Nat) (ts : List Expr) :
    (pairSum next ts).2 = (pairTerms next (subtracted ts) ts).2 := by
  unfold pairSum
  split
  · rename_i h
    rw [h]
  · rename_i h
    rw [h]
    split <;> rfl

theorem pairsOf_pairSum (next : Nat) (ts : List Expr) : PairsOf ts (pairSum next ts).2 := by
  rw [pairSum_distances]
  constructor
  case targets => exact targets_pairTerms next _ ts
  case origins => exact List.subperm_iff_count.2 (count_origins_pairTerms next _ ts)
  case sameSection => exact fun d => sameSection_of_mem_pairTerms
  case countP_eq => exact fun k => countP_pairTerms k next _ ts

/-! ## What stays in place -/

theorem exists_slot_mem_pairTerms {next : Nat} {origins : List Location} {ts : List Expr}
    (h : (pairTerms next origins ts).2 ≠ []) : ∃ n, Expr.slot n ∈ (pairTerms next origins ts).1 := by
  fun_induction pairTerms next origins ts with
  | case1 => exact absurd rfl h
  | case2 next origins l ts o ho us ds hds ih => exact ⟨next, List.mem_cons_self⟩
  | case3 next origins l ts ho us ds hds ih | case4 next origins t ts hloc us ds hds ih =>
    obtain ⟨n, hn⟩ := ih (by rw [hds]; exact h)
    rw [hds] at hn
    exact ⟨n, List.mem_cons_of_mem _ hn⟩

theorem slot_mem_dropSubtracted {n : Nat} {used : List Location} {ts : List Expr} (h : Expr.slot n ∈ ts) :
    Expr.slot n ∈ dropSubtracted used ts := by
  induction used generalizing ts with
  | nil => exact h
  | cons o used ih => exact ih ((List.mem_erase_of_ne (by simp)).2 h)

theorem pairSum_cases (next : Nat) (ts : List Expr) :
    (∃ us, (pairSum next ts).1 = .sum us) ∨ ∃ n, (pairSum next ts).1 = .slot n := by
  unfold pairSum
  split
  · exact .inl ⟨ts, rfl⟩
  · rename_i paired ds hne hp
    have hds : (pairTerms next (subtracted ts) ts).2 ≠ [] := by
      rw [hp]
      exact hne
    obtain ⟨n, hn⟩ := exists_slot_mem_pairTerms hds
    rw [hp] at hn
    have hkept : Expr.slot n ∈ (dropSubtracted (ds.map (·.origin)) paired).filter (· ≠ .const 0) :=
      List.mem_filter.2 ⟨slot_mem_dropSubtracted hn, by simp⟩
    split
    · rename_i hnil
      rw [hnil] at hkept
      cases hkept
    · rename_i t hone
      rw [hone] at hkept
      exact .inr ⟨n, (List.mem_singleton.1 hkept).symm⟩
    · exact .inl ⟨_, rfl⟩

theorem extract_sum_cases (next : Nat) (ts : List Expr) :
    (∃ us, ((Expr.sum ts).extract next).1 = .sum us) ∨ ∃ n, ((Expr.sum ts).extract next).1 = .slot n :=
  pairSum_cases _ _

theorem asLoc?_extract (next : Nat) (e : Expr) : (e.extract next).1.asLoc? = e.asLoc? := by
  cases e with
  | const _ | sym _ | loc _ | slot _ | neg _ | mul _ _ => rfl
  | sum ts =>
    obtain ⟨us, h⟩ | ⟨n, h⟩ := extract_sum_cases next ts
    · rw [h]; rfl
    · rw [h]; rfl

theorem asNegLoc?_extract (next : Nat) (e : Expr) : (e.extract next).1.asNegLoc? = e.asNegLoc? := by
  cases e with
  | const _ | sym _ | loc _ | slot _ | mul _ _ => rfl
  | sum ts =>
    obtain ⟨us, h⟩ | ⟨n, h⟩ := extract_sum_cases next ts
    · rw [h]; rfl
    · rw [h]; rfl
  | neg e => exact asLoc?_extract next e

theorem filterMap_extractAll {f : Expr → Option Location} (hf : ∀ next e, f (e.extract next).1 = f e) (next : Nat)
    (ts : List Expr) : (extractAll next ts).1.filterMap f = ts.filterMap f := by
  induction ts generalizing next with
  | nil => rfl
  | cons t ts ih => rw [extractAll, List.filterMap_cons, List.filterMap_cons, ih, hf]

theorem subtracted_eq (ts : List Expr) : subtracted ts = ts.filterMap asNegLoc? := by
  refine List.filterMap_congr fun t _ => ?_
  cases t with
  | neg e => cases e <;> rfl
  | const _ | sym _ | loc _ | slot _ | sum _ | mul _ _ => rfl

/-! ## All sums -/

/-- Taking distances out of the terms of a sum first does not change which locations the sum itself adds and subtracts.
-/
theorem pairsOf_extractAll {next : Nat} {ts : List Expr} {ds : List Distance} (h : PairsOf (extractAll next ts).1 ds) :
    PairsOf ts ds := by
  have hadded : added (extractAll next ts).1 = added ts := filterMap_extractAll asLoc?_extract next ts
  have hsubtracted : subtracted (extractAll next ts).1 = subtracted ts := by
    rw [subtracted_eq, subtracted_eq, filterMap_extractAll asNegLoc?_extract]
  obtain ⟨htargets, horigins, hsame, hcount⟩ := h
  rw [hadded] at htargets hcount
  rw [hsubtracted] at horigins hcount
  exact ⟨htargets, horigins, hsame, hcount⟩

mutual

theorem extract_blocks (next : Nat) (e : Expr) :
    ∃ blocks, (e.extract next).2 = blocks.flatten ∧ List.Forall₂ PairsOf e.sums blocks := by
  match e with
  | .const _ | .sym _ | .loc _ | .slot _ => exact ⟨[], rfl, .nil⟩
  | .neg e => exact extract_blocks next e
  | .mul a b =>
    obtain ⟨as, ha, hpa⟩ := extract_blocks next a
    obtain ⟨bs, hb, hpb⟩ := extract_blocks (next + (a.extract next).2.length) b
    exact ⟨as ++ bs, by rw [extract, List.flatten_append, ← ha, ← hb], List.rel_append hpa hpb⟩
  | .sum ts =>
    obtain ⟨bs, hb, hp⟩ := extractAll_blocks next ts
    have hsum := pairsOf_pairSum (next + (extractAll next ts).2.length) (extractAll next ts).1
    refine ⟨bs ++ [_], ?_, List.rel_append hp (.cons (pairsOf_extractAll hsum) .nil)⟩
    rw [extract, List.flatten_append, ← hb, List.flatten_singleton]

theorem extractAll_blocks (next : Nat) (ts : List Expr) :
    ∃ blocks, (extractAll next ts).2 = blocks.flatten ∧ List.Forall₂ PairsOf (sumsAll ts) blocks := by
  match ts with
  | [] => exact ⟨[], rfl, .nil⟩
  | t :: ts =>
    obtain ⟨as, ha, hpa⟩ := extract_blocks next t
    obtain ⟨bs, hb, hpb⟩ := extractAll_blocks (next + (t.extract next).2.length) ts
    exact ⟨as ++ bs, by rw [extractAll, List.flatten_append, ← ha, ← hb], List.rel_append hpa hpb⟩

end

theorem sameSection_of_mem_blocks {d : Distance} {tss : List (List Expr)} {blocks : List (List Distance)}
    (h : List.Forall₂ PairsOf tss blocks) (hd : d ∈ blocks.flatten) : d.origin.sameSection d.target = true := by
  induction h with
  | nil => cases hd
  | cons hpairs _ ih =>
    rw [List.flatten_cons, List.mem_append] at hd
    rcases hd with hd | hd
    · exact hpairs.sameSection d hd
    · exact ih hd

/-! ## The numbers of the slots -/

theorem slotsAll_pairTerms (next : Nat) (origins : List Location) (ts : List Expr) :
    (slotsAll (pairTerms next origins ts).1).Perm
      (slotsAll ts ++ List.range' next (pairTerms next origins ts).2.length) := by
  fun_induction pairTerms next origins ts with
  | case1 => exact .refl _
  | case2 next origins l ts o ho us ds hds ih =>
    rw [hds] at ih
    rw [slotsAll, slots, slotsAll, slots, List.length_cons, List.range'_succ]
    exact (ih.cons next).trans List.perm_middle.symm
  | case3 next origins l ts ho us ds hds ih | case4 next origins t ts hloc us ds hds ih =>
    rw [hds] at ih
    rw [slotsAll, slotsAll, List.append_assoc]
    exact ih.append_left _

theorem slotsAll_erase (o : Location) (ts : List Expr) : slotsAll (ts.erase (.neg (.loc o))) = slotsAll ts := by
  induction ts with
  | nil => rfl
  | cons t ts ih =>
    by_cases ht : t = .neg (.loc o)
    · rw [ht, List.erase_cons_head, slotsAll, slots, slots, List.nil_append]
    · rw [List.erase_cons_tail (by simpa using ht), slotsAll, slotsAll, ih]

theorem slotsAll_dropSubtracted (used : List Location) (ts : List Expr) :
    slotsAll (dropSubtracted used ts) = slotsAll ts := by
  induction used generalizing ts with
  | nil => rfl
  | cons o used ih => exact (ih _).trans (slotsAll_erase o ts)

theorem slotsAll_filter_ne_zero (ts : List Expr) : slotsAll (ts.filter (· ≠ .const 0)) = slotsAll ts := by
  induction ts with
  | nil => rfl
  | cons t ts ih =>
    by_cases ht : t = .const 0
    · rw [List.filter_cons_of_neg (by simpa using ht), ih, slotsAll, ht, slots, List.nil_append]
    · rw [List.filter_cons_of_pos (by simpa using ht), slotsAll, slotsAll, ih]

theorem slots_pairSum (next : Nat) (ts : List Expr) :
    (pairSum next ts).1.slots.Perm (slotsAll ts ++ List.range' next (pairSum next ts).2.length) := by
  have hpaired := slotsAll_pairTerms next (subtracted ts) ts
  rw [pairSum_distances]
  unfold pairSum
  split
  · rename_i h
    rw [h] at hpaired ⊢
    simp [slots]
  · rename_i paired ds hne h
    rw [h] at hpaired ⊢
    have hkept : slotsAll ((dropSubtracted (ds.map (·.origin)) paired).filter (· ≠ .const 0)) = slotsAll paired := by
      rw [slotsAll_filter_ne_zero, slotsAll_dropSubtracted]
    rw [← hkept] at hpaired
    split
    · rename_i hnil
      rwa [hnil] at hpaired
    · rename_i t hone
      rw [hone, slotsAll, slotsAll, List.append_nil] at hpaired
      exact hpaired
    · exact hpaired

theorem perm_range'_append {as bs cs ds : List Nat} {next m n : Nat} (h : as.Perm (cs ++ List.range' next m))
    (h' : bs.Perm (ds ++ List.range' (next + m) n)) : (as ++ bs).Perm (cs ++ ds ++ List.range' next (m + n)) := by
  have hcomm : (List.range' next m ++ ds).Perm (ds ++ List.range' next m) := List.perm_append_comm
  calc (as ++ bs).Perm ((cs ++ List.range' next m) ++ (ds ++ List.range' (next + m) n)) := h.append h'
    _ = cs ++ ((List.range' next m ++ ds) ++ List.range' (next + m) n) := by simp
    List.Perm _ (cs ++ ((ds ++ List.range' next m) ++ List.range' (next + m) n)) :=
    (hcomm.append_right _).append_left cs
    _ = cs ++ ds ++ List.range' next (m + n) := by rw [List.append_assoc, List.range'_append_1, List.append_assoc]

mutual

theorem slots_extract (next : Nat) (e : Expr) :
    (e.extract next).1.slots.Perm (e.slots ++ List.range' next (e.extract next).2.length) := by
  match e with
  | .const _ | .sym _ | .loc _ | .slot _ => simp [extract, slots]
  | .neg e => exact slots_extract next e
  | .mul a b =>
    rw [extract, slots, slots, List.length_append]
    exact perm_range'_append (slots_extract next a) (slots_extract _ b)
  | .sum ts =>
    rw [extract, slots, List.length_append, ← List.range'_append_1, ← List.append_assoc]
    exact (slots_pairSum _ _).trans ((slotsAll_extractAll next ts).append_right _)

theorem slotsAll_extractAll (next : Nat) (ts : List Expr) :
    (slotsAll (extractAll next ts).1).Perm (slotsAll ts ++ List.range' next (extractAll next ts).2.length) := by
  match ts with
  | [] => exact .refl _
  | t :: ts =>
    rw [extractAll, slotsAll, slotsAll, List.length_append]
    exact perm_range'_append (slots_extract next t) (slotsAll_extractAll _ ts)

end

mutual

theorem slots_of_not_mentionsSlot (e : Expr) (h : e.mentionsSlot = false) : e.slots = [] := by
  match e with
  | .const _ | .sym _ | .loc _ => rfl
  | .slot _ => cases h
  | .neg e => exact slots_of_not_mentionsSlot e h
  | .sum ts => exact slotsAll_of_not_mentionsSlot ts h
  | .mul a b =>
    rw [mentionsSlot, Bool.or_eq_false_iff] at h
    rw [slots, slots_of_not_mentionsSlot a h.1, slots_of_not_mentionsSlot b h.2, List.nil_append]

theorem slotsAll_of_not_mentionsSlot (ts : List Expr) (h : anyMentionsSlot ts = false) : slotsAll ts = [] := by
  match ts with
  | [] => rfl
  | t :: ts =>
    rw [anyMentionsSlot, Bool.or_eq_false_iff] at h
    rw [slotsAll, slots_of_not_mentionsSlot t h.1, slotsAll_of_not_mentionsSlot ts h.2, List.nil_append]

end

/-! ## Values -/

/-- The slots are worth the distances `ds`. -/
def withDistances (ρ : Valuation Int) (ds : List Distance) : Valuation Int :=
  { ρ with slot := fun n => (ds[n]?.map fun d => ρ.loc d.target - ρ.loc d.origin).getD 0 }

theorem value_distances_withDistances (e : Expr) (h : e.mentionsSlot = false) (ρ : Valuation Int) :
    e.distances.1.value (withDistances ρ e.distances.2) = e.value ρ := by
  have hslots : SlotsHold (withDistances ρ e.distances.2) 0 e.distances.2 := by
    intro i d hi
    simp [withDistances, hi]
  rw [value_distances e hslots]
  refine value_slot_congr ?_ ?_ e h <;> rfl

end Expr

/-! ## Distances and addresses -/

namespace Sections

variable {κ : Type}

theorem address?_of_offset? {ss : Sections κ} {l : Location} {x : Nat} (h : ss.offset? l = some x) :
    ∃ s, ss[l.fragment.sectionIndex]? = some s ∧ ss.address? l = some (s.start + x) := by
  obtain ⟨f, hf, -⟩ := Option.map_eq_some_iff.1 h
  obtain ⟨s, hs, -⟩ := Option.bind_eq_some_iff.1 hf
  exact ⟨s, hs, by rw [address?, hs, Option.bind_some, h, Option.map_some]⟩

theorem distance?_eq_sub_address? {ss : Sections κ} {a b : Location} {x : Int} (h : ss.distance? a b = some x) :
    ∃ m n, ss.address? a = some m ∧ ss.address? b = some n ∧
      (m < 9223372036854775808 → n < 9223372036854775808 → x = (n : Int) - m) := by
  unfold distance? at h
  split at h
  · rename_i hsame
    obtain ⟨m, hm, h⟩ := Option.bind_eq_some_iff.1 h
    obtain ⟨n, hn, rfl⟩ := Option.map_eq_some_iff.1 h
    obtain ⟨s, hs, ha⟩ := address?_of_offset? hm
    obtain ⟨t, ht, hb⟩ := address?_of_offset? hn
    obtain rfl : s = t := by
      rw [Location.sameSection, beq_iff_eq] at hsame
      rw [hsame, ht] at hs
      exact (Option.some.inj hs).symm
    refine ⟨_, _, ha, hb, fun hlt hlt' => ?_⟩
    rw [signed_eq m (by omega), signed_eq n (by omega)]
    omega
  · cases h

end Sections

namespace Expr

variable {κ : Type}

/-- Slots are worth the distances `ds`, as they are in the sections. -/
def Env.ofDistances (ss : Sections κ) (ds : List Distance) : Env :=
  .ofSlots fun n => ds[n]?.bind fun d => ss.distance? d.origin d.target

/-- Locations are worth the addresses that they have in the sections. -/
def Env.ofAddresses (ss : Sections κ) : Env := .ofLocs fun l => (ss.address? l).map signed

theorem eval_distances_eq_eval (e : Expr) (h : e.mentionsSlot = false) (ss : Sections κ)
    (hss : ∀ l ∈ e.locs, ∀ a, ss.address? l = some a → a < 9223372036854775808) {v w : Int}
    (hv : e.distances.1.eval (.ofDistances ss e.distances.2) = some v) (hw : e.eval (.ofAddresses ss) = some w) :
    v = w := by
  let ρ : Valuation Int := ⟨fun _ => 0, fun l => (((ss.address? l).getD 0 : Nat) : Int), fun _ => 0⟩
  have hdist : e.distances.1.value (withDistances ρ e.distances.2) = v := by
    refine value_of_eval (fun n x hx => ?_) (fun l x hx => by cases hx) e.distances.1 hv
    obtain ⟨d, hd, hx⟩ := Option.bind_eq_some_iff.1 hx
    obtain ⟨ho, ht⟩ := mem_distances (List.mem_of_getElem? hd)
    obtain ⟨a, b, ha, hb, hsub⟩ := Sections.distance?_eq_sub_address? hx
    have hx' := hsub (hss _ ho a ha) (hss _ ht b hb)
    simp [withDistances, hd, ρ, ha, hb, hx']
  have haddr : e.value ρ = w := by
    refine value_of_eval_ofLocs e hw fun l hl x hx => ?_
    obtain ⟨a, ha, rfl⟩ := Option.map_eq_some_iff.1 hx
    simp [ρ, ha, signed_eq a (hss l hl a ha)]
  have hsame := value_distances_withDistances e h ρ
  rw [hdist, haddr] at hsame
  exact hsame

/-- Every sum gives up all the distances that it has, each within one section, for slots that are numbered from zero and
occur once each. What is left has the exact value of the expression, so distances and addresses give the same result. -/
theorem distances_exact (e : Expr) (h : e.mentionsSlot = false) :
    e.distances.1.slots.Perm (List.range e.distances.2.length) ∧
      (∀ d ∈ e.distances.2, d.origin.sameSection d.target = true) ∧
      (∃ blocks, e.distances.2 = blocks.flatten ∧ List.Forall₂ PairsOf e.sums blocks) ∧
      (∀ ρ : Valuation Int, e.distances.1.value (withDistances ρ e.distances.2) = e.value ρ) ∧
      ∀ (κ : Type) (ss : Sections κ), (∀ l ∈ e.locs, ∀ a, ss.address? l = some a → a < 2 ^ 63) → ∀ v w,
        e.distances.1.eval (.ofDistances ss e.distances.2) = some v → e.eval (.ofAddresses ss) = some w → v = w := by
  obtain ⟨blocks, hblocks, hpairs⟩ := extract_blocks 0 e
  refine ⟨?_, fun d hd => ?_, ⟨blocks, hblocks, hpairs⟩, value_distances_withDistances e h,
    fun κ ss hss v w => eval_distances_eq_eval e h ss hss⟩
  · have hslots := slots_extract 0 e
    rwa [slots_of_not_mentionsSlot e h, List.nil_append, ← List.range_eq_range'] at hslots
  · rw [distances, hblocks] at hd
    exact sameSection_of_mem_blocks hpairs hd

/-- Two sections, of one empty fragment each. -/
def twoSections : Sections Empty := [⟨".text", 4096, .empty 0⟩, ⟨".data", 8192, .empty 1⟩]

/-- A sum that subtracts in both sections, with another such sum under a product. -/
def crossedSpans : Expr :=
  .sum [.loc ⟨⟨0, 0⟩, 24⟩, .mul (.const 3) (.sum [.loc ⟨⟨1, 0⟩, 16⟩, .const 0, .neg (.loc ⟨⟨1, 0⟩, 4⟩)]),
    .neg (.loc ⟨⟨1, 0⟩, 2⟩), .neg (.loc ⟨⟨0, 0⟩, 8⟩), .loc ⟨⟨1, 0⟩, 6⟩, .const 5]

theorem distances_exact_crossedSpans :
    crossedSpans.mentionsSlot = false ∧ crossedSpans.distances.1.slots.Perm [0, 1, 2] ∧
      (∀ l ∈ crossedSpans.locs, ∀ a, twoSections.address? l = some a → a < 2 ^ 63) ∧
      ∃ v w, crossedSpans.distances.1.eval (.ofDistances twoSections crossedSpans.distances.2) = some v ∧
        crossedSpans.eval (.ofAddresses twoSections) = some w ∧ v = w := by
  have hss : ∀ l ∈ crossedSpans.locs, ∀ a, twoSections.address? l = some a → a < 2 ^ 63 := by
    have hall : ∀ l ∈ crossedSpans.locs, (twoSections.address? l).all (· < 2 ^ 63) = true := by decide +kernel
    intro l hl a ha
    simpa [ha] using hall l hl
  have hv : crossedSpans.distances.1.eval (.ofDistances twoSections crossedSpans.distances.2) =
      some 61 := by decide +kernel
  have hw : crossedSpans.eval (.ofAddresses twoSections) = some 61 := by decide +kernel
  obtain ⟨hslots, -, -, -, heval⟩ := distances_exact crossedSpans (by decide +kernel)
  exact ⟨by decide +kernel, hslots, hss, 61, 61, hv, hw, heval Empty twoSections hss 61 61 hv hw⟩

end Expr

end SpanLayout
