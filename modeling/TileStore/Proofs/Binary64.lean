import Mathlib.Algebra.Order.Field.Rat
import Mathlib.Algebra.Order.Field.Basic
import Mathlib.Tactic.NormNum
import TileStore.Binary64

/-!
# What numbers are worth

A bit pattern stands for a number, `value`. Among patterns without a sign a greater pattern stands
for a greater number, since the units grow with the magnitude: `unitsAt_strictMono`. So a comparison of
patterns is one of numbers, and `isFraction_iff` says which patterns pass for a fraction: those that
stand for a number between zero and one, negative zero among them.
-/

namespace TileStore.Binary64

variable {x y : Binary64}

/-! ### Units -/

/-- The units of the number with a magnitude. -/
def unitsAt (m : Nat) : Nat :=
  (if m < exponentStep then m else exponentStep + m % exponentStep) <<< (m / exponentStep - 1)

/-- A magnitude is made of a significand and of how far it is shifted. -/
theorem exists_parts (m : Nat) : ∃ s r, m = s * exponentStep + r ∧ r < 2 * exponentStep ∧
    (s = 0 ∨ exponentStep ≤ r) := by
  have hr := Nat.mod_lt m (by decide : 0 < exponentStep)
  have hm := Nat.div_add_mod' m exponentStep
  rcases hs : m / exponentStep with _ | s
  · rw [hs, Nat.zero_mul] at hm
    exact ⟨0, m, by omega, by omega, .inl rfl⟩
  · rw [hs, Nat.succ_mul] at hm
    exact ⟨s, exponentStep + m % exponentStep, by omega, by omega, .inr (Nat.le_add_right ..)⟩

/-- The units are the significand, shifted. So they are when it has just become too large. -/
theorem unitsAt_parts {s r : Nat} (hr : r ≤ 2 * exponentStep) (hs : s = 0 ∨ exponentStep ≤ r) :
    unitsAt (s * exponentStep + r) = r * 2 ^ s := by
  have hstep : 0 < exponentStep := by decide
  unfold unitsAt
  rw [Nat.shiftLeft_eq, Nat.mul_comm s, Nat.mul_add_div hstep, Nat.mul_add_mod]
  rcases Nat.lt_or_ge r exponentStep with hlt | hge
  · obtain rfl : s = 0 := hs.resolve_right (Nat.not_le.2 hlt)
    rw [Nat.mul_zero, Nat.zero_add, if_pos hlt, Nat.div_eq_of_lt hlt]
  rw [if_neg (by omega)]
  rcases hr.eq_or_lt with rfl | hlt
  · rw [Nat.mul_mod_left, Nat.mul_div_cancel _ hstep, Nat.add_zero]
    change exponentStep * 2 ^ (s + 1) = _
    rw [pow_succ', ← mul_assoc, mul_comm exponentStep]
  · obtain ⟨f, rfl⟩ := Nat.exists_eq_add_of_le hge
    have hf : f < exponentStep := by omega
    rw [Nat.add_mod_left, Nat.mod_eq_of_lt hf, Nat.add_div_left _ hstep, Nat.div_eq_of_lt hf]
    rfl

/-- The units grow with the magnitude. -/
theorem unitsAt_strictMono : StrictMono unitsAt := by
  refine strictMono_nat_of_lt_succ fun m => ?_
  obtain ⟨s, r, rfl, hr, hs⟩ := exists_parts m
  rw [Nat.add_assoc, unitsAt_parts hr.le hs, unitsAt_parts hr (hs.imp_right Nat.le_succ_of_le)]
  exact Nat.mul_lt_mul_of_pos_right (Nat.lt_succ_self r) (Nat.two_pow_pos s)

theorem units_eq (x : Binary64) : x.units = unitsAt x.magnitude := rfl

theorem units_le_units_iff : x.units ≤ y.units ↔ x.magnitude ≤ y.magnitude :=
  unitsAt_strictMono.le_iff_le

theorem units_eq_zero_iff : x.units = 0 ↔ x.magnitude = 0 := by
  have h := units_le_units_iff (x := x) (y := zero)
  rw [show zero.units = 0 from by decide, show zero.magnitude = 0 from by decide] at h
  simpa only [Nat.le_zero] using h

theorem units_one : one.units = unitsPerOne := by decide +kernel

/-! ### Values -/

/-- The number that a pattern stands for. Infinity counts as the number that would follow the
greatest finite one, and a NaN as the number that its magnitude would be. -/
def value (x : Binary64) : ℚ := (if x.isNegative then -(x.units : ℚ) else x.units) / unitsPerOne

theorem unitsPerOne_pos : 0 < (unitsPerOne : ℚ) := by
  exact_mod_cast (by decide +kernel : 0 < unitsPerOne)

theorem value_nonneg_iff : 0 ≤ x.value ↔ x.isZero ∨ x.isNegative = false := by
  rw [value, le_div_iff₀ unitsPerOne_pos, zero_mul]
  cases x.isNegative with
  | false => simp
  | true => simp [isZero, units_eq_zero_iff]

theorem value_le_one_iff : x.value ≤ 1 ↔ x.isNegative ∨ x.magnitude ≤ one.magnitude := by
  rw [value, div_le_one unitsPerOne_pos, ← units_le_units_iff, units_one]
  cases x.isNegative with
  | false => simp
  | true =>
    simp only [if_true, true_or, iff_true]
    exact (neg_nonpos.2 x.units.cast_nonneg).trans unitsPerOne_pos.le

theorem magnitude_of_nonneg (h : x.isNegative = false) : x.magnitude = x.bits.toNat := by
  rw [isNegative, decide_eq_false_iff_not, Nat.not_le] at h
  exact Nat.mod_eq_of_lt h

/-- Numbers without a sign are in the order of their patterns. -/
theorem value_le_value_iff (hx : x.isNegative = false) (hy : y.isNegative = false) :
    x.value ≤ y.value ↔ x.bits ≤ y.bits := by
  rw [value, value, hx, hy, div_le_div_iff_of_pos_right unitsPerOne_pos]
  simp only [Bool.false_eq_true, if_false, Nat.cast_le]
  rw [units_le_units_iff, magnitude_of_nonneg hx, magnitude_of_nonneg hy, UInt64.le_iff_toNat_le]

/-- What passes for a fraction is a number between zero and one. -/
theorem isFraction_iff : x.isFraction ↔ x.isNaN = false ∧ 0 ≤ x.value ∧ x.value ≤ 1 := by
  have hzero : x.isZero → x.magnitude ≤ one.magnitude := fun h =>
    (decide_eq_true_iff.1 h).trans_le (Nat.zero_le _)
  rw [value_nonneg_iff, value_le_one_iff, isFraction]
  cases x.isNaN <;> cases hz : x.isZero <;> cases x.isNegative <;> simp_all

/-- A pattern stands for no number between zero and one. -/
def Outside (x : Binary64) : Prop := x.isNaN ∨ x.value < 0 ∨ 1 < x.value

theorem isFraction_iff_not_outside : x.isFraction ↔ ¬x.Outside := by
  rw [isFraction_iff, Outside, not_or, not_or, not_lt, not_lt, Bool.not_eq_true]

/-- Negative zero passes for a fraction, as zero does. -/
example : (⟨0x8000000000000000⟩ : Binary64).isFraction ∧ zero.isFraction := by decide

end TileStore.Binary64
