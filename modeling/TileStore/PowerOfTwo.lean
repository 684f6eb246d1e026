/-!
# Powers of two

The powers of two next to a positive number, one not above it and one not below it, each less than a
factor of two away. On words the one that is not below may not fit.
-/

namespace TileStore

/-! ### Words -/

/-- Whether exactly one bit of a word is set. -/
def isPowerOfTwo (n : UInt64) : Bool := n != 0 && n &&& (n - 1) == 0

/-- The least power of two that is not below a word: one more than as many ones as it takes to write
the number before. It wraps round to zero if it does not fit. -/
def nextPowerOfTwo (n : UInt64) : UInt64 :=
  if n ≤ 1 then 1 else (0 - 1) >>> (63 - (n - 1).log2) + 1

/-! ### Numbers -/

/-- The greatest power of two that is not above a positive number. -/
def powerOfTwoUpTo (n : Nat) : Nat := 1 <<< n.log2

/-- The least power of two that is not below a positive number. -/
def powerOfTwoFrom (n : Nat) : Nat :=
  if powerOfTwoUpTo n = n then n else 2 * powerOfTwoUpTo n

theorem powerOfTwoUpTo_le {n : Nat} (h : n ≠ 0) : powerOfTwoUpTo n ≤ n := by
  rw [powerOfTwoUpTo, Nat.one_shiftLeft]
  exact Nat.log2_self_le h

theorem lt_two_mul_powerOfTwoUpTo (n : Nat) : n < 2 * powerOfTwoUpTo n := by
  rw [powerOfTwoUpTo, Nat.one_shiftLeft, ← Nat.pow_succ']
  exact Nat.lt_log2_self

theorem le_powerOfTwoFrom (n : Nat) : n ≤ powerOfTwoFrom n := by
  unfold powerOfTwoFrom
  split
  · exact Nat.le_refl n
  · exact Nat.le_of_lt (lt_two_mul_powerOfTwoUpTo n)

theorem powerOfTwoFrom_lt {n : Nat} (h : n ≠ 0) : powerOfTwoFrom n < 2 * n := by
  have hle := powerOfTwoUpTo_le h
  unfold powerOfTwoFrom
  split <;> omega

end TileStore
