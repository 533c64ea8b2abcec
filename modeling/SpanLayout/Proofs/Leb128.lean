import Mathlib.Tactic.IntervalCases
import Mathlib.Tactic.SplitIfs
import SpanLayout.Tail.Leb128

/-!
# Widths of LEB128 fields

A window holds exactly the words that fit its width, so a field that has been widened for a value holds that value.
-/

namespace SpanLayout.Leb128

/-! ## Groups -/

theorem groups_pos (signed : Bool) (x : Int) : 1 ≤ groups signed x := by
  unfold groups
  split <;> omega

theorem groups_of_fits {signed : Bool} {x : Int} (h : fits signed x = true) : groups signed x = 1 := by
  rw [groups, dif_pos h]

theorem groups_of_not_fits {signed : Bool} {x : Int} (h : fits signed x = false) :
    groups signed x = groups signed (x / 128) + 1 := by
  rw [groups, dif_neg (by simp [h])]

theorem pow_seven_succ (n : Nat) : (2 : Int) ^ (7 * (n + 1)) = 128 * 2 ^ (7 * n) := by
  rw [Nat.mul_add, Int.pow_add, Int.mul_comm]
  rfl

theorem groups_signed_le_iff (n : Nat) (x : Int) :
    groups true x ≤ n + 1 ↔ -2 ^ (7 * n) * 64 ≤ x ∧ x < 2 ^ (7 * n) * 64 := by
  induction n generalizing x with
  | zero =>
    by_cases hf : fits true x = true
    · rw [groups_of_fits hf]
      simp only [fits, if_true, decide_eq_true_eq] at hf
      simp
      omega
    · have hf : fits true x = false := by simpa using hf
      rw [groups_of_not_fits hf]
      have := groups_pos true (x / 128)
      simp only [fits, if_true, decide_eq_false_iff_not] at hf
      simp
      omega
  | succ n ih =>
    have hpos : (0 : Int) < 2 ^ (7 * n) := Int.pow_pos (by decide)
    rw [pow_seven_succ]
    by_cases hf : fits true x = true
    · rw [groups_of_fits hf]
      simp only [fits, if_true, decide_eq_true_eq] at hf
      constructor
      · intro _
        omega
      · intro _
        omega
    · have hf : fits true x = false := by simpa using hf
      rw [groups_of_not_fits hf, Nat.add_le_add_iff_right, ih]
      omega

theorem groups_unsigned_le_iff (n : Nat) (x : Int) : groups false x ≤ n + 1 ↔ x < 2 ^ (7 * n) * 128 := by
  induction n generalizing x with
  | zero =>
    by_cases hf : fits false x = true
    · rw [groups_of_fits hf]
      simp only [fits, Bool.false_eq_true, if_false, decide_eq_true_eq] at hf
      simp
      omega
    · have hf : fits false x = false := by simpa using hf
      rw [groups_of_not_fits hf]
      have := groups_pos false (x / 128)
      simp only [fits, Bool.false_eq_true, if_false, decide_eq_false_iff_not] at hf
      simp
      omega
  | succ n ih =>
    have hpos : (0 : Int) < 2 ^ (7 * n) := Int.pow_pos (by decide)
    rw [pow_seven_succ]
    by_cases hf : fits false x = true
    · rw [groups_of_fits hf]
      simp only [fits, Bool.false_eq_true, if_false, decide_eq_true_eq] at hf
      constructor
      · intro _
        omega
      · intro _
        omega
    · have hf : fits false x = false := by simpa using hf
      rw [groups_of_not_fits hf, Nat.add_le_add_iff_right, ih]
      omega

/-! ## Windows -/

theorem contains_window_iff {signed : Bool} {len : Nat} {v : Int} (h1 : 1 ≤ len) (h10 : len ≤ maxLen)
    (hl : -wordBound ≤ v) (hh : v < wordBound) :
    (window signed len).contains v = true ↔ size signed v ≤ len := by
  obtain ⟨n, rfl⟩ : ∃ n, len = n + 1 := ⟨len - 1, by omega⟩
  have hn : n ≤ 9 := by
    unfold maxLen at h10
    omega
  rw [Window.contains_iff]
  simp only [window, size, payload]
  unfold wordBound at hl hh
  cases signed with
  | true =>
    rw [if_pos rfl, groups_signed_le_iff]
    simp only [lowest, highest, if_true]
    interval_cases n <;> simp <;> omega
  | false =>
    rw [if_neg (by simp), groups_unsigned_le_iff]
    simp only [lowest, highest, Bool.false_eq_true, if_false, maxLen]
    interval_cases n <;> simp <;> omega

theorem size_pos (signed : Bool) (v : Int) : 1 ≤ size signed v := groups_pos signed _

theorem size_le_maxLen (signed : Bool) {v : Int} (hl : -wordBound ≤ v) (hh : v < wordBound) :
    size signed v ≤ maxLen := by
  rw [← contains_window_iff (by decide) (by decide) hl hh]
  unfold wordBound at hl hh
  rw [Window.contains_iff]
  cases signed <;> simp [window, lowest, highest, maxLen] <;> omega

theorem contains_window_mono {signed : Bool} {m n : Nat} {v : Int} (h : m ≤ n)
    (hv : (window signed m).contains v = true) : (window signed n).contains v = true := by
  have hp : ∀ a b : Nat, a ≤ b → (2 : Int) ^ a ≤ 2 ^ b := fun a b hab => by
    have := Nat.pow_le_pow_right (n := 2) (by decide) hab
    exact_mod_cast this
  have h62 := hp (7 * m - 1) 62
  have h56 := hp (7 * m) 62
  have hmn := hp (7 * m - 1) (7 * n - 1) (by omega)
  have hmn' := hp (7 * m) (7 * n) (by omega)
  rw [Window.contains_iff] at hv ⊢
  simp only [window, lowest, highest, maxLen, Nat.one_shiftLeft] at hv ⊢
  push_cast at hv ⊢
  obtain ⟨hlow, hhigh⟩ := hv
  cases signed with
  | true =>
    simp only [if_true] at hlow hhigh ⊢
    split_ifs at hlow hhigh ⊢ <;> omega
  | false =>
    simp only [Bool.false_eq_true, if_false] at hlow hhigh ⊢
    split_ifs at hlow hhigh ⊢ <;> omega

theorem contains_window_widened (signed : Bool) (len : Nat) {v : Int} (hl : -wordBound ≤ v) (hh : v < wordBound) :
    (window signed (min (max len (size signed v)) maxLen)).contains v = true := by
  have hpos := size_pos signed v
  have hmax := size_le_maxLen signed hl hh
  rw [contains_window_iff (by unfold maxLen; omega) (by omega) hl hh]
  omega

end SpanLayout.Leb128
