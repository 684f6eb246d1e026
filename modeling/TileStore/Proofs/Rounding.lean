import TileStore.Proofs.Binary64
import Mathlib.Tactic.Ring

/-!
# Rounding to the nearest number

A ratio is rounded to the nearest of the numbers that there are. It is enough to compare it with the
middle between two neighbours: what lies below is not rounded beyond the first of them,
`magnitudeOfRatio_le`, and what lies above is, `lt_magnitudeOfRatio`. A ratio that is a number stays what
it is.

Whole numbers up to `2 ^ 53` are numbers, but of the greater words some are rounded to a greater one:
`nearest`. A product with one is the other factor. A product with less than one lies below the other
factor by half the distance to the number before it, or more, and so it is rounded to a lesser number,
`magnitudeOfRatio_mul_le`.
-/

namespace TileStore.Binary64
variable {x : Binary64} {num den k : Nat}

/-! ### The middle between neighbours -/

theorem unitsAt_lt_succ (k : Nat) : unitsAt k < unitsAt (k + 1) :=
  unitsAt_strictMono (Nat.lt_succ_self k)

theorem zero_lt_unitsPerOne : 0 < unitsPerOne := by decide +kernel

/-- The quotient is one of the two whole numbers around, and the one that is not farther away. -/
theorem roundedQuotient_cases (n d : Nat) :
    roundedQuotient n d = n / d ∧ 2 * n ≤ (2 * (n / d) + 1) * d ∨
      roundedQuotient n d = n / d + 1 ∧ (2 * (n / d) + 1) * d ≤ 2 * n := by
  have hdiv : n / d * d + n % d = n := Nat.div_add_mod' n d
  rw [Nat.add_mul, Nat.mul_assoc, Nat.one_mul]
  unfold roundedQuotient
  dsimp only
  split
  · next h => exact .inr ⟨rfl, by omega⟩
  · next h => exact .inl ⟨rfl, by omega⟩

/-- A ratio is scaled down to a significand, and this or the next one is what it is rounded to, whichever
is not farther away. -/
theorem exists_rounding (num : Nat) (hden : 0 < den) : ∃ s q r, magnitudeOfRatio num den =
    min (s * exponentStep + r) infinityBits ∧ q < 2 * exponentStep ∧ (s = 0 ∨ exponentStep ≤ q) ∧
    (r = q ∧ q * (den * 2 ^ s) ≤ num * unitsPerOne ∧
        2 * (num * unitsPerOne) ≤ (2 * q + 1) * (den * 2 ^ s) ∨
      r = q + 1 ∧ (2 * q + 1) * (den * 2 ^ s) ≤ 2 * (num * unitsPerOne) ∧
        num * unitsPerOne < (q + 1) * (den * 2 ^ s)) := by
  let scaled := num * unitsPerOne
  let s := (scaled / den).log2 - 52
  have hd : 0 < den * 2 ^ s := Nat.mul_pos hden (Nat.two_pow_pos s)
  have hquotient : scaled / (den * 2 ^ s) = scaled / den / 2 ^ s :=
    (Nat.div_div_eq_div_mul ..).symm
  refine ⟨s, scaled / (den * 2 ^ s), roundedQuotient scaled (den * 2 ^ s), ?_, ?_, ?_, ?_⟩
  · rw [magnitudeOfRatio, Nat.shiftLeft_eq]
  · rw [hquotient, Nat.div_lt_iff_lt_mul (Nat.two_pow_pos s)]
    have hlog : scaled / den < 2 ^ ((scaled / den).log2 + 1) := Nat.lt_log2_self
    refine hlog.trans_le ?_
    change _ ≤ 2 ^ 53 * 2 ^ s
    rw [← pow_add]
    exact Nat.pow_le_pow_right (by decide) (by omega)
  · rcases Nat.le_total (scaled / den).log2 52 with hle | hge
    · exact .inl (Nat.sub_eq_zero_of_le hle)
    · right
      rw [hquotient, Nat.le_div_iff_mul_le (Nat.two_pow_pos s)]
      change 2 ^ 52 * 2 ^ s ≤ _
      rw [← pow_add, Nat.add_sub_cancel' hge]
      exact Nat.log2_self_le fun h0 => by rw [h0] at hge; exact absurd hge (by decide)
  · have hbelow := Nat.div_mul_le_self scaled (den * 2 ^ s)
    have habove := Nat.lt_mul_of_div_lt (Nat.lt_succ_self (scaled / (den * 2 ^ s))) hd
    exact (roundedQuotient_cases scaled (den * 2 ^ s)).imp (fun h => ⟨h.1, hbelow, h.2⟩)
      fun h => ⟨h.1, h.2, habove⟩

/-- What lies below the middle between two numbers is not rounded beyond the first. -/
theorem magnitudeOfRatio_le (hden : 0 < den)
    (h : 2 * (num * unitsPerOne) < (unitsAt k + unitsAt (k + 1)) * den) :
    magnitudeOfRatio num den ≤ k := by
  obtain ⟨s, q, r, hround, hq, hs, hr⟩ := exists_rounding num hden
  have hq₀ := unitsAt_parts hq.le hs
  have hq₁ := unitsAt_parts hq (hs.imp_right Nat.le_succ_of_le)
  rw [hround]
  refine min_le_iff.2 (.inl (Nat.le_of_not_lt fun hlt => Nat.not_le.2 h ?_))
  have hk : unitsAt (k + 1) ≤ unitsAt (s * exponentStep + r) := unitsAt_strictMono.monotone hlt
  rcases hr with ⟨rfl, hle, -⟩ | ⟨rfl, hhalf, -⟩
  · have hk' : unitsAt k ≤ unitsAt (k + 1) := (unitsAt_lt_succ k).le
    calc
      (unitsAt k + unitsAt (k + 1)) * den ≤ (2 * (r * 2 ^ s)) * den :=
        Nat.mul_le_mul_right _ (by omega)
      _ = 2 * (r * (den * 2 ^ s)) := by ring
      _ ≤ 2 * (num * unitsPerOne) := Nat.mul_le_mul_left 2 hle
  · have hk' : unitsAt k ≤ unitsAt (s * exponentStep + q) :=
      unitsAt_strictMono.monotone (Nat.le_of_lt_succ hlt)
    calc
      (unitsAt k + unitsAt (k + 1)) * den ≤ (q * 2 ^ s + (q + 1) * 2 ^ s) * den :=
        Nat.mul_le_mul_right _ (Nat.add_le_add (hk'.trans_eq hq₀) (hk.trans_eq hq₁))
      _ = (2 * q + 1) * (den * 2 ^ s) := by ring
      _ ≤ 2 * (num * unitsPerOne) := hhalf

/-- What lies above the middle is rounded beyond it. -/
theorem lt_magnitudeOfRatio (hden : 0 < den) (hk : k < infinityBits)
    (h : (unitsAt k + unitsAt (k + 1)) * den < 2 * (num * unitsPerOne)) :
    k < magnitudeOfRatio num den := by
  obtain ⟨s, q, r, hround, hq, hs, hr⟩ := exists_rounding num hden
  have hq₀ := unitsAt_parts hq.le hs
  have hq₁ := unitsAt_parts hq (hs.imp_right Nat.le_succ_of_le)
  rw [hround]
  refine lt_min (Nat.lt_of_not_le fun hle => Nat.not_le.2 h ?_) hk
  have hk : unitsAt (s * exponentStep + r) ≤ unitsAt k := unitsAt_strictMono.monotone hle
  rcases hr with ⟨rfl, -, hhalf⟩ | ⟨rfl, -, habove⟩
  · have hk' : unitsAt (s * exponentStep + (r + 1)) ≤ unitsAt (k + 1) :=
      unitsAt_strictMono.monotone (Nat.succ_le_succ hle)
    calc
      2 * (num * unitsPerOne) ≤ (2 * r + 1) * (den * 2 ^ s) := hhalf
      _ = (r * 2 ^ s + (r + 1) * 2 ^ s) * den := by ring
      _ ≤ (unitsAt k + unitsAt (k + 1)) * den :=
        Nat.mul_le_mul_right _ (Nat.add_le_add (hq₀.ge.trans hk) (hq₁.ge.trans hk'))
  · have hk' : unitsAt k ≤ unitsAt (k + 1) := (unitsAt_lt_succ k).le
    calc
      2 * (num * unitsPerOne) ≤ 2 * ((q + 1) * (den * 2 ^ s)) := Nat.mul_le_mul_left 2 habove.le
      _ = ((q + 1) * 2 ^ s + (q + 1) * 2 ^ s) * den := by ring
      _ ≤ (unitsAt k + unitsAt (k + 1)) * den :=
        Nat.mul_le_mul_right _ (hq₁ ▸ Nat.add_le_add hk (hk.trans hk'))

/-- A ratio that is a number is not changed. -/
theorem magnitudeOfRatio_eq (hden : 0 < den) (hk : k ≤ infinityBits)
    (h : num * unitsPerOne = unitsAt k * den) : magnitudeOfRatio num den = k := by
  refine le_antisymm (magnitudeOfRatio_le hden ?_) ?_
  · rw [h, ← mul_assoc]
    refine Nat.mul_lt_mul_of_pos_right ?_ hden
    have := unitsAt_lt_succ k
    omega
  · cases k with
    | zero => exact Nat.zero_le _
    | succ k =>
      refine lt_magnitudeOfRatio hden hk ?_
      rw [h, ← mul_assoc]
      refine Nat.mul_lt_mul_of_pos_right ?_ hden
      have := unitsAt_lt_succ k
      omega

/-! ### Magnitudes and words -/

theorem magnitude_ofMagnitude (negative : Bool) (hk : k ≤ infinityBits) :
    (ofMagnitude negative k).magnitude = k := by
  have hlt : k < signBit := hk.trans_lt (by decide)
  unfold magnitude ofMagnitude
  rw [show signBit = 2 ^ 63 from rfl] at *
  cases negative <;> simp only [UInt64.toNat_ofNat', if_true, Bool.false_eq_true, if_false] <;> omega

theorem isNegative_ofMagnitude (negative : Bool) (hk : k ≤ infinityBits) :
    (ofMagnitude negative k).isNegative = negative := by
  have hlt : k < signBit := hk.trans_lt (by decide)
  unfold isNegative ofMagnitude
  rw [show signBit = 2 ^ 63 from rfl] at *
  cases negative <;> simp <;> omega

theorem isNaN_ofMagnitude (negative : Bool) (hk : k ≤ infinityBits) :
    (ofMagnitude negative k).isNaN = false := by
  rw [isNaN, magnitude_ofMagnitude negative hk]
  exact decide_eq_false (Nat.not_lt.2 hk)

theorem magnitudeOfRatio_le_infinityBits (num den : Nat) :
    magnitudeOfRatio num den ≤ infinityBits := Nat.min_le_right _ _

/-- The whole part, up to the greatest word. -/
theorem toWord_ofMagnitude (hk : k ≤ infinityBits) :
    (ofMagnitude false k).toWord =
      UInt64.ofNat (min (unitsAt k / unitsPerOne) (UInt64.size - 1)) := by
  rw [toWord, isNaN_ofMagnitude _ hk, isNegative_ofMagnitude _ hk, units_eq,
    magnitude_ofMagnitude _ hk]
  rfl

/-- The whole part of a number less than a word. -/
theorem toWord_ofMagnitude_lt {w : UInt64} (hk : k ≤ infinityBits)
    (h : unitsAt k < w.toNat * unitsPerOne) : (ofMagnitude false k).toWord < w := by
  have hwhole : unitsAt k / unitsPerOne < w.toNat :=
    Nat.div_lt_of_lt_mul (h.trans_eq (Nat.mul_comm ..))
  have hw : w.toNat < 2 ^ 64 := w.toNat_lt
  rw [toWord_ofMagnitude hk, UInt64.lt_iff_toNat_lt, UInt64.toNat_ofNat',
    Nat.min_eq_left (by change _ ≤ 2 ^ 64 - 1; omega), Nat.mod_eq_of_lt (by omega)]
  exact hwhole

/-! ### Whole numbers -/

/-- The word nearest to a word, of those that are numbers. Where there is none the greatest word
stands for it. -/
def nearest (n : UInt64) : UInt64 := (ofNat n.toNat).toWord

/-- Whole numbers up to this bound are numbers. -/
theorem exists_unitsAt_eq {n : Nat} (hn : n ≤ 2 ^ 53) :
    ∃ m ≤ infinityBits, unitsAt m = n * unitsPerOne := by
  rcases Nat.eq_zero_or_pos n with rfl | hpos
  · exact ⟨0, Nat.zero_le _, by decide⟩
  let j := 52 - n.log2
  have hlog : 2 ^ n.log2 ≤ n := Nat.log2_self_le hpos.ne'
  have hlow : exponentStep ≤ n * 2 ^ j := by
    calc
      exponentStep = 2 ^ 52 := rfl
      _ ≤ 2 ^ (n.log2 + j) := Nat.pow_le_pow_right (by decide) (by omega)
      _ ≤ n * 2 ^ j := by
        rw [pow_add]
        exact Nat.mul_le_mul_right _ hlog
  have hhigh : n * 2 ^ j ≤ 2 * exponentStep := by
    rcases Nat.le_total n.log2 52 with hle | hge
    · calc
        n * 2 ^ j ≤ 2 ^ (n.log2 + 1) * 2 ^ j := Nat.mul_le_mul_right _ Nat.lt_log2_self.le
        _ = 2 ^ 53 := by rw [← pow_add, show n.log2 + 1 + j = 53 by omega]
    · rw [show j = 0 from Nat.sub_eq_zero_of_le hge, pow_zero, Nat.mul_one]
      exact hn
  refine ⟨(1074 - j) * exponentStep + n * 2 ^ j, ?_, ?_⟩
  · calc
      (1074 - j) * exponentStep + n * 2 ^ j ≤ 1074 * exponentStep + 2 * exponentStep :=
        Nat.add_le_add (Nat.mul_le_mul_right _ (Nat.sub_le ..)) hhigh
      _ ≤ infinityBits := by decide
  · rw [unitsAt_parts hhigh (.inr hlow), mul_assoc, ← pow_add, show j + (1074 - j) = 1074 by omega]
    rw [unitsPerOne, Nat.one_shiftLeft]

theorem nearest_of_le {n : UInt64} (hn : n.toNat ≤ 2 ^ 53) : nearest n = n := by
  obtain ⟨m, hm, hunits⟩ := exists_unitsAt_eq hn
  have heq : magnitudeOfRatio n.toNat 1 = m := magnitudeOfRatio_eq Nat.one_pos hm (by omega)
  rw [nearest, ofNat, ofRatio, heq, toWord_ofMagnitude hm, hunits,
    Nat.mul_div_cancel _ zero_lt_unitsPerOne,
    Nat.min_eq_left (Nat.le_sub_one_of_lt n.toNat_lt), UInt64.ofNat_toNat]

/-- A whole number that is a word is rounded to a number that is neither small nor infinite. -/
theorem magnitudeOfRatio_word {n : UInt64} (hn : n ≠ 0) :
    exponentStep < magnitudeOfRatio n.toNat 1 ∧ magnitudeOfRatio n.toNat 1 < infinityBits := by
  have hpos : 1 ≤ n.toNat := Nat.pos_of_ne_zero fun h => hn (UInt64.toNat_inj.1 h)
  have hlt : n.toNat < 2 ^ 64 := n.toNat_lt
  have hlow : unitsAt exponentStep + unitsAt (exponentStep + 1) < 2 * unitsPerOne := by
    decide +kernel
  have hhigh : 2 * (2 ^ 64 * unitsPerOne) < unitsAt (infinityBits - 1) := by decide +kernel
  constructor
  · refine lt_magnitudeOfRatio Nat.one_pos (by decide) ?_
    have := Nat.mul_le_mul_right unitsPerOne hpos
    omega
  · refine Nat.lt_of_le_sub_one (by decide) (magnitudeOfRatio_le Nat.one_pos ?_)
    have := Nat.mul_le_mul_right unitsPerOne hlt.le
    omega

/-- The number before the one that a whole number is rounded to is less than it. -/
theorem unitsAt_lt_of_lt_magnitudeOfRatio {n : Nat} (h : k < magnitudeOfRatio n 1) :
    unitsAt k < n * unitsPerOne := by
  by_contra hle
  refine Nat.not_le.2 h (magnitudeOfRatio_le Nat.one_pos ?_)
  have := unitsAt_lt_succ k
  omega

/-! ### Products with fractions -/

theorem magnitude_le_of_isFraction (h : x.isFraction) : x.magnitude ≤ one.magnitude := by
  unfold isFraction isZero at h
  simp only [Bool.and_eq_true, Bool.or_eq_true, decide_eq_true_iff] at h
  rcases h.2 with hzero | ⟨-, hle⟩
  · exact hzero ▸ Nat.zero_le _
  · exact hle

/-- A product with a fraction is finite and has the sign of the fraction. -/
theorem mul_of_isFraction (hk : k < infinityBits) (h : x.isFraction) :
    (ofMagnitude false k).mul x = ofMagnitude x.isNegative
      (magnitudeOfRatio (unitsAt k * x.units) (unitsPerOne * unitsPerOne)) := by
  have hx : x.magnitude < infinityBits := (magnitude_le_of_isFraction h).trans_lt (by decide)
  have hnan : x.isNaN = false := decide_eq_false (Nat.not_lt.2 hx.le)
  have hinf : x.isInfinite = false := decide_eq_false hx.ne
  have hinf' : (ofMagnitude false k).isInfinite = false := by
    rw [isInfinite, magnitude_ofMagnitude _ hk.le]
    exact decide_eq_false hk.ne
  unfold mul
  rw [hnan, hinf, hinf', isNaN_ofMagnitude _ hk.le, isNegative_ofMagnitude _ hk.le, units_eq,
    magnitude_ofMagnitude _ hk.le]
  simp

/-- A product with one is the other factor. -/
theorem mul_one_ofMagnitude (hk : k < infinityBits) :
    (ofMagnitude false k).mul one = ofMagnitude false k := by
  have hpos := Nat.mul_pos zero_lt_unitsPerOne zero_lt_unitsPerOne
  rw [mul_of_isFraction hk (by decide), units_one, magnitudeOfRatio_eq hpos hk.le (by ring)]
  rfl

/-- A product with less than one is rounded to a lesser number than the other factor. -/
theorem magnitudeOfRatio_mul_le (hk : exponentStep ≤ k) (h : x.magnitude < one.magnitude) :
    magnitudeOfRatio (unitsAt (k + 1) * x.units) (unitsPerOne * unitsPerOne) ≤ k := by
  -- what is less than one is so by at least the distance to the number before it
  have hx : 2 ^ 53 * x.units ≤ (2 ^ 53 - 1) * unitsPerOne :=
    (Nat.mul_le_mul_left _ (unitsAt_strictMono.monotone (Nat.le_sub_one_of_lt h))).trans
      (by decide +kernel)
  obtain ⟨s, q, rfl, hq, hs⟩ := exists_parts k
  have hq' : 2 ^ 52 ≤ q := by
    rcases hs with rfl | hs
    · rwa [Nat.zero_mul, Nat.zero_add] at hk
    · exact hs
  have hpos := zero_lt_unitsPerOne
  refine magnitudeOfRatio_le (Nat.mul_pos hpos hpos) ?_
  rw [Nat.add_assoc, unitsAt_parts hq.le hs, unitsAt_parts hq (hs.imp_right Nat.le_succ_of_le)]
  have hbelow : 2 * ((q + 1) * x.units) < (2 * q + 1) * unitsPerOne := by
    refine Nat.lt_of_mul_lt_mul_left (a := 2 ^ 53) ?_
    calc
      2 ^ 53 * (2 * ((q + 1) * x.units)) = 2 * (q + 1) * (2 ^ 53 * x.units) := by ring
      _ ≤ 2 * (q + 1) * ((2 ^ 53 - 1) * unitsPerOne) := Nat.mul_le_mul_left _ hx
      _ = (2 * (q + 1) * (2 ^ 53 - 1)) * unitsPerOne := by ring
      _ < (2 ^ 53 * (2 * q + 1)) * unitsPerOne :=
        Nat.mul_lt_mul_of_pos_right (by omega) hpos
      _ = 2 ^ 53 * ((2 * q + 1) * unitsPerOne) := by ring
  calc
    2 * ((q + 1) * 2 ^ s * x.units * unitsPerOne) =
        2 * ((q + 1) * x.units) * (2 ^ s * unitsPerOne) := by ring
    _ < (2 * q + 1) * unitsPerOne * (2 ^ s * unitsPerOne) :=
      Nat.mul_lt_mul_of_pos_right hbelow (Nat.mul_pos (Nat.two_pow_pos s) hpos)
    _ = (q * 2 ^ s + (q + 1) * 2 ^ s) * (unitsPerOne * unitsPerOne) := by ring
end TileStore.Binary64
