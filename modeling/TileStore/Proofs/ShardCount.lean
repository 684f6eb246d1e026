import Mathlib.Algebra.Ring.Nat
import Mathlib.Order.Bounds.Basic
import TileStore.Settings

/-!
# How many partitions there are

The number of partitions is what is affordable, rounded down to a power of two by taking the next one
and halving it. That is wrong for a power of two, which is its own next one, and for a word whose next
one does not fit: `isGreatest_half` and `isLeast_nextPowerOfTwo` say where it is right. The
first is asked about before, and what is affordable is far too small for the second. So
`supportedShards` is the greatest power of two up to what is affordable, and what that implies holds:
`isGreatest_supportedShards` and the lemmas after it.
-/

namespace TileStore

/-! ### Rounding up -/

theorem isPowerOfTwo_iff (n : UInt64) : isPowerOfTwo n ↔ n.toNat.isPowerOfTwo := by
  by_cases h : n = 0
  · subst h
    exact iff_of_false (by decide) Nat.not_isPowerOfTwo_zero
  · have hn : n.toNat ≠ 0 := fun h0 => h (UInt64.toNat_inj.1 h0)
    have hsub : (n - 1).toNat = n.toNat - 1 :=
      UInt64.toNat_sub_of_le n 1 (UInt64.le_iff_toNat_le.2 (Nat.one_le_iff_ne_zero.2 hn))
    rw [← Nat.and_sub_one_eq_zero_iff_isPowerOfTwo hn, isPowerOfTwo, Bool.and_eq_true, bne_iff_ne,
      beq_iff_eq, ← UInt64.toNat_inj, UInt64.toNat_and, hsub]
    exact and_iff_right h

/-- The next power of two has one bit more than the number before, if it fits. -/
theorem toNat_nextPowerOfTwo {n : UInt64} (h : 1 < n.toNat) (hn : n.toNat ≤ 2 ^ 63) :
    (nextPowerOfTwo n).toNat = 2 ^ ((n.toNat - 1).log2 + 1) := by
  have hsub : (n - 1).toNat = n.toNat - 1 :=
    UInt64.toNat_sub_of_le n 1 (UInt64.le_iff_toNat_le.2 (Nat.le_of_lt h))
  have hlog : (n - 1).log2.toNat = (n.toNat - 1).log2 := congrArg Nat.log2 hsub
  have hbits : (n.toNat - 1).log2 < 63 := (Nat.log2_lt (by omega)).2 (by omega)
  have hshift : (63 - (n - 1).log2).toNat = 63 - (n.toNat - 1).log2 := by
    rw [UInt64.toNat_sub_of_le _ _ (UInt64.le_iff_toNat_le.2 (hlog ▸ hbits.le)), hlog]
    rfl
  generalize (n.toNat - 1).log2 = k at hbits hshift
  have hpow : 2 ^ 64 = 2 ^ (63 - k) * 2 ^ (k + 1) := by
    rw [← Nat.pow_add]
    congr 1
    omega
  have hlt : 2 ^ (k + 1) < 2 ^ 64 := Nat.pow_lt_pow_right Nat.one_lt_two (by omega)
  -- so many ones are left of all
  have hones : (2 ^ 64 - 1) / 2 ^ (63 - k) = 2 ^ (k + 1) - 1 := by
    have hpos : 0 < 2 ^ (63 - k) := Nat.two_pow_pos _
    refine Nat.div_eq_of_lt_le ?_ ?_
    · rw [hpow, Nat.sub_mul, Nat.one_mul, Nat.mul_comm]
      omega
    · rw [Nat.sub_add_cancel Nat.one_le_two_pow, hpow, Nat.mul_comm]
      have hone : 0 < 2 ^ (k + 1) * 2 ^ (63 - k) := Nat.mul_pos (Nat.two_pow_pos _) hpos
      omega
  have hnot : ¬n ≤ 1 := fun hle => Nat.not_lt.2 (UInt64.le_iff_toNat_le.1 hle) h
  rw [nextPowerOfTwo, if_neg hnot, UInt64.toNat_add, UInt64.toNat_shiftRight, hshift,
    Nat.mod_eq_of_lt (by omega : 63 - k < 64), Nat.shiftRight_eq_div_pow]
  change ((2 ^ 64 - 1) / 2 ^ (63 - k) + 1) % 2 ^ 64 = 2 ^ (k + 1)
  rw [hones, Nat.sub_add_cancel Nat.one_le_two_pow, Nat.mod_eq_of_lt hlt]

/-- The least power of two from a word on, if it fits. -/
theorem isLeast_nextPowerOfTwo {n : UInt64} (hn : n.toNat ≤ 2 ^ 63) :
    IsLeast {p | n.toNat ≤ p ∧ p.isPowerOfTwo} (nextPowerOfTwo n).toNat := by
  rcases Nat.lt_or_ge 1 n.toNat with h | h
  · have hbefore : n.toNat - 1 ≠ 0 := by omega
    rw [toNat_nextPowerOfTwo h hn]
    refine ⟨⟨?_, _, rfl⟩, ?_⟩
    · exact Nat.le_of_pred_lt Nat.lt_log2_self
    · rintro _ ⟨hle, j, rfl⟩
      refine Nat.pow_le_pow_right Nat.two_pos ?_
      exact (Nat.log2_lt hbefore).2 (by omega)
  · have hone : nextPowerOfTwo n = 1 := if_pos (UInt64.le_iff_toNat_le.2 h)
    rw [hone]
    exact ⟨⟨h, Nat.isPowerOfTwo_one⟩, fun p hp => Nat.pos_of_isPowerOfTwo hp.2⟩

/-! ### Rounding down -/

/-- Half the next power of two is the greatest one up to a number that is none itself. -/
theorem isGreatest_half {n p : Nat} (hn : ¬n.isPowerOfTwo) (hpos : 0 < n)
    (hp : IsLeast {p | n ≤ p ∧ p.isPowerOfTwo} p) :
    IsGreatest {p | p ≤ n ∧ p.isPowerOfTwo} (p / 2) := by
  obtain ⟨⟨hle, k, rfl⟩, hleast⟩ := hp
  have hlt : n < 2 ^ k := hle.lt_of_ne fun h => hn ⟨k, h⟩
  cases k with
  | zero => omega
  | succ k =>
    have hhalf : 2 ^ (k + 1) / 2 = 2 ^ k := Nat.mul_div_cancel _ Nat.two_pos
    rw [hhalf]
    refine ⟨⟨?_, k, rfl⟩, ?_⟩
    · refine Nat.le_of_not_le fun h => ?_
      have hback : 2 ^ (k + 1) ≤ 2 ^ k := hleast ⟨h, k, rfl⟩
      exact absurd ((Nat.pow_le_pow_iff_right Nat.one_lt_two).1 hback) (by omega)
    · rintro _ ⟨hj, j, rfl⟩
      have hjk := (Nat.pow_lt_pow_iff_right Nat.one_lt_two).1 (Nat.lt_of_le_of_lt hj hlt)
      exact Nat.pow_le_pow_right Nat.two_pos (by omega)

/-! ### Partitions -/

/-- So many partitions are affordable. -/
theorem toNat_affordableShards (capacity wished : UInt64) :
    (affordableShards capacity wished).toNat =
      max 1 (min wished.toNat (capacity.toNat / 4096)) := by
  have hleast : leastShardBytes.toNat = 4096 := rfl
  rw [affordableShards, UInt64.toNat_max, UInt64.toNat_min, UInt64.toNat_max, UInt64.toNat_div,
    UInt64.toNat_one, hleast]
  omega

theorem toNat_affordableShards_le (capacity wished : UInt64) :
    (affordableShards capacity wished).toNat ≤ 2 ^ 63 := by
  have hcapacity := capacity.toNat_lt
  rw [toNat_affordableShards]
  omega

/-- The greatest power of two up to what is affordable. -/
theorem isGreatest_supportedShards (capacity wished : UInt64) :
    IsGreatest {p | p ≤ (affordableShards capacity wished).toNat ∧ p.isPowerOfTwo}
      (supportedShards capacity wished).toNat := by
  have hpos : 0 < (affordableShards capacity wished).toNat := by
    rw [toNat_affordableShards]
    omega
  have hnext := isLeast_nextPowerOfTwo (toNat_affordableShards_le capacity wished)
  unfold supportedShards
  dsimp only
  split
  · next h => exact ⟨⟨Nat.le_refl _, (isPowerOfTwo_iff _).1 h⟩, fun p hp => hp.1⟩
  · next h =>
    rw [UInt64.toNat_div]
    exact isGreatest_half (mt (isPowerOfTwo_iff _).2 h) hpos hnext

theorem supportedShards_mono {capacity capacity' wished wished' : UInt64} (hc : capacity ≤ capacity')
    (hw : wished ≤ wished') :
    (supportedShards capacity wished).toNat ≤ (supportedShards capacity' wished').toNat := by
  have hcapacity := UInt64.le_iff_toNat_le.1 hc
  have hwished := UInt64.le_iff_toNat_le.1 hw
  have hmore : (affordableShards capacity wished).toNat ≤ (affordableShards capacity' wished').toNat := by
    have hdiv := Nat.div_le_div_right (c := 4096) hcapacity
    rw [toNat_affordableShards, toNat_affordableShards]
    omega
  refine (isGreatest_supportedShards capacity' wished').2 ?_
  obtain ⟨hle, hpow⟩ := (isGreatest_supportedShards capacity wished).1
  exact ⟨hle.trans hmore, hpow⟩

namespace Settings

variable (s : Settings)

theorem isPowerOfTwo_shardCount : s.shardCount.isPowerOfTwo :=
  (isGreatest_supportedShards s.capacity s.shards).1.2

/-- Wishes are not exceeded. -/
theorem shardCount_le_shards (h : s.shards ≠ 0) : s.shardCount ≤ s.shards.toNat := by
  have hpos : s.shards.toNat ≠ 0 := fun h0 => h (UInt64.toNat_inj.1 h0)
  have hle := (isGreatest_supportedShards s.capacity s.shards).1.1
  rw [toNat_affordableShards] at hle
  unfold shardCount
  omega

/-- Several partitions have enough capacity each. -/
theorem mul_shardCount_le_capacity (h : 1 < s.shardCount) :
    4096 * s.shardCount ≤ s.capacity.toNat := by
  have hle := (isGreatest_supportedShards s.capacity s.shards).1.1
  have hdiv := Nat.mul_div_le s.capacity.toNat 4096
  rw [toNat_affordableShards] at hle
  unfold shardCount at h ⊢
  omega

end Settings

end TileStore
