/-!
# Words

Offsets and lengths are natural numbers, values are integers, and both are limited to 64 bits where they meet. This
module says how a natural number reads as a signed word, which integers fit one, and how an integer is laid out in
bytes.
-/

namespace SpanLayout

/-- One past the largest signed 64-bit integer. -/
def wordBound : Int := 9223372036854775808

/-- `x`, if it fits a signed 64-bit word. -/
def checked (x : Int) : Option Int :=
  if -wordBound ≤ x ∧ x < wordBound then some x else none

/-- A natural number read as a signed 64-bit word. -/
def signed (n : Nat) : Int := Int.bmod n 18446744073709551616

theorem signed_eq (n : Nat) (h : n < 9223372036854775808) : signed n = n := by
  unfold signed
  rw [Int.bmod_def]
  omega

/-- The `n` lowest bytes of `x` in two's complement, lowest first. -/
def littleEndian : Nat → Int → List UInt8
  | 0, _ => []
  | n + 1, x => UInt8.ofNat (x % 256).toNat :: littleEndian n (x / 256)

@[simp] theorem littleEndian_length (n : Nat) (x : Int) : (littleEndian n x).length = n := by
  induction n generalizing x with
  | zero => rfl
  | succ n ih => simp [littleEndian, ih]

end SpanLayout
