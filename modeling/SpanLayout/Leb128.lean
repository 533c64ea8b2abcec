/-!
# LEB128

Integers as groups of seven bits, lowest group first, every byte but the last with its top bit set. A signed integer
ends once the rest is the sign of the last group; an unsigned one is read as a 64-bit word and ends once the rest is
zero.
-/

namespace SpanLayout.Leb128

/-- The integer that the bytes stand for: `v` itself, or its bits as an unsigned word. -/
def payload (signed : Bool) (v : Int) : Int := if signed then v else v % 18446744073709551616

/-- Whether the group of seven bits at the bottom of `x` says all there is to say about it. -/
def fits (signed : Bool) (x : Int) : Bool :=
  if signed then decide (-64 ≤ x ∧ x < 64) else decide (x < 128)

theorem natAbs_div_lt {signed : Bool} {x : Int} (h : fits signed x = false) :
    (x / 128).natAbs < x.natAbs := by
  unfold fits at h
  split at h <;> simp at h <;> omega

/-- After a byte that is not the last, fewer bytes are owed, or what is left of the payload is nearer to zero. -/
theorem owed_add_natAbs_lt {signed : Bool} {minLen count : Nat} {x : Int}
    (h : ¬ (fits signed x = true ∧ minLen ≤ count)) :
    minLen - (count + 1) + (x / 128).natAbs < minLen - count + x.natAbs := by
  by_cases hf : fits signed x = true
  · have : ¬ minLen ≤ count := fun hle => h ⟨hf, hle⟩
    omega
  · have := natAbs_div_lt (by simpa using hf : fits signed x = false)
    omega

/-- How many groups of seven bits a payload needs. -/
def groups (signed : Bool) (x : Int) : Nat :=
  if h : fits signed x then 1 else groups signed (x / 128) + 1
termination_by x.natAbs
decreasing_by exact natAbs_div_lt (by simpa using h)

/-- How many bytes `v` takes. -/
def size (signed : Bool) (v : Int) : Nat := groups signed (payload signed v)

/-- The groups of a payload as bytes, at least `minLen` of them. -/
def encodeGroups (signed : Bool) (minLen : Nat) (x : Int) : List UInt8 :=
  if h : fits signed x ∧ minLen ≤ 1 then [UInt8.ofNat (x % 128).toNat]
  else UInt8.ofNat (x % 128 + 128).toNat :: encodeGroups signed (minLen - 1) (x / 128)
termination_by minLen + x.natAbs
decreasing_by
  have := owed_add_natAbs_lt h
  omega

/-- `v` in at least `minLen` bytes; the sign is repeated as often as it takes to fill them. -/
def encode (signed : Bool) (minLen : Nat) (v : Int) : List UInt8 :=
  encodeGroups signed minLen (payload signed v)

/-- Pushes the groups of a payload onto `out`, the next one as byte number `count`. A byte has the top bit unless the
rest of the payload is said by then and `minLen` bytes are there. -/
def pushGroups (signed : Bool) (minLen count : Nat) (x : Int) (out : Array UInt8) : Array UInt8 :=
  if h : fits signed x ∧ minLen ≤ count then out.push (UInt8.ofNat (x % 128).toNat)
  else pushGroups signed minLen (count + 1) (x / 128) (out.push (UInt8.ofNat (x % 128 + 128).toNat))
termination_by minLen - count + x.natAbs
decreasing_by exact owed_add_natAbs_lt h

/-- Appends `v` to `out`, in at least `minLen` bytes. -/
def append (signed : Bool) (minLen : Nat) (v : Int) (out : Array UInt8) : Array UInt8 :=
  pushGroups signed minLen 1 (payload signed v) out

/-- The most bytes a 64-bit integer takes. -/
def maxLen : Nat := 10

/-- The least integer that fits `len` bytes. -/
def lowest (signed : Bool) (len : Nat) : Int :=
  if signed then if 64 ≤ 7 * len then -9223372036854775808 else -(1 <<< (7 * len - 1) : Nat)
  else if maxLen ≤ len then -9223372036854775808 else 0

/-- The greatest integer that fits `len` bytes. -/
def highest (signed : Bool) (len : Nat) : Int :=
  if signed then if 64 ≤ 7 * len then 9223372036854775807 else (1 <<< (7 * len - 1) : Nat) - 1
  else if 63 ≤ 7 * len then 9223372036854775807 else (1 <<< (7 * len) : Nat) - 1

end SpanLayout.Leb128
