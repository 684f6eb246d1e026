import Mathlib.Data.EReal.Basic
import TileStore.Proofs.Sharded.Victims

/-!
# Costs in two orders

A linked store compares costs as bit patterns, and ranks compare them in the total order of all
patterns. Neither order is that of the numbers: negative numbers have the greatest patterns, negative
zero comes before zero, and there are NaNs at both ends. But an entry keeps only some of the costs it is
given, `keptCost`, and on these both orders are that of the numbers, infinity included:
`compare_bits` and `totalCompare_of_nonneg`. What is not kept counts as nothing, which is `amount`.

`cost_orders_agree` says so for any entries, and that ranks put entries with different numbers in a
strict order, whatever happened to them.
-/

namespace TileStore

open Std (LawfulEqOrd)

/-! ### Numbers -/

namespace Binary64

variable {x y : Binary64}

/-- The number that a pattern stands for, which may be infinite. -/
noncomputable def toEReal (x : Binary64) : EReal :=
  if x.isInfinite then if x.isNegative then ⊥ else ⊤ else ((x.value : ℝ) : EReal)

theorem value_zero : zero.value = 0 := by
  rw [value, show zero.units = 0 from by decide]
  simp

theorem toEReal_zero : zero.toEReal = 0 := by
  rw [toEReal, if_neg (by decide), value_zero]
  norm_num

theorem value_pos_iff : 0 < x.value ↔ x.isNegative = false ∧ x.isZero = false := by
  rw [value, lt_div_iff₀ unitsPerOne_pos, zero_mul, isZero, decide_eq_false_iff_not,
    ← units_eq_zero_iff]
  cases x.isNegative with
  | false => simp [Nat.pos_iff_ne_zero]
  | true => simp

/-- What passes for positive stands for a positive number. -/
theorem isPositive_iff (h : x.isNaN = false) : x.isPositive ↔ 0 < x.toEReal := by
  rw [isPositive, h, toEReal]
  by_cases hinf : x.isInfinite
  · have hzero : x.isZero = false := by
      rw [isInfinite, decide_eq_true_iff] at hinf
      rw [isZero, hinf]
      decide
    rw [if_pos hinf, hzero]
    cases x.isNegative <;> simp
  · rw [if_neg hinf, EReal.coe_pos, Rat.cast_pos, value_pos_iff]
    simp

/-- Numbers without a sign are in the order of their patterns, infinity included. -/
theorem toEReal_le_toEReal_iff (hx : x.isNegative = false) (hy : y.isNegative = false)
    (hx' : x.isNaN = false) (hy' : y.isNaN = false) :
    x.toEReal ≤ y.toEReal ↔ x.bits ≤ y.bits := by
  have hmagnitude : x.bits ≤ y.bits ↔ x.magnitude ≤ y.magnitude := by
    rw [UInt64.le_iff_toNat_le, magnitude_of_nonneg hx, magnitude_of_nonneg hy]
  have hle : x.magnitude ≤ infinityBits := Nat.le_of_not_lt (of_decide_eq_false hx')
  have hle' : y.magnitude ≤ infinityBits := Nat.le_of_not_lt (of_decide_eq_false hy')
  rw [hmagnitude, toEReal, toEReal, hx, hy]
  by_cases hinf : x.isInfinite <;> by_cases hinf' : y.isInfinite
  · rw [if_pos hinf, if_pos hinf', of_decide_eq_true hinf, of_decide_eq_true hinf']
    exact iff_of_true le_rfl le_rfl
  · rw [if_pos hinf, if_neg hinf', of_decide_eq_true hinf]
    have hlt := hle'.lt_of_ne fun h => hinf' (decide_eq_true h)
    exact iff_of_false (not_le.2 (EReal.coe_lt_top _)) (Nat.not_le.2 hlt)
  · rw [if_neg hinf, if_pos hinf', of_decide_eq_true hinf']
    exact iff_of_true le_top hle
  · rw [if_neg hinf, if_neg hinf', EReal.coe_le_coe_iff, Rat.cast_le, value_le_value_iff hx hy,
      hmagnitude]

/-- Comparing the patterns of numbers without a sign is comparing the numbers. -/
theorem compare_bits (hx : x.isNegative = false) (hy : y.isNegative = false)
    (hx' : x.isNaN = false) (hy' : y.isNaN = false) :
    compare x.bits y.bits = cmp x.toEReal y.toEReal := by
  have hle := toEReal_le_toEReal_iff hx hy hx' hy'
  have hge := toEReal_le_toEReal_iff hy hx hy' hx'
  rcases lt_trichotomy x.toEReal y.toEReal with h | h | h
  · rw [h.cmp_eq_lt, Std.compare_eq_lt, ← UInt64.not_le, ← hge]
    exact not_le.2 h
  · rw [h, cmp_self_eq_eq, Std.compare_eq_iff_eq]
    exact UInt64.le_antisymm (hle.1 h.le) (hge.1 h.ge)
  · rw [h.cmp_eq_gt, Std.compare_eq_gt, ← UInt64.not_le, ← hle]
    exact not_le.2 h

/-- A pattern is a sign and a magnitude. -/
theorem toNat_bits (x : Binary64) :
    x.bits.toNat = (if x.isNegative then 2 ^ 63 else 0) + x.magnitude := by
  have hlt := x.bits.toNat_lt
  have hsign : signBit = 2 ^ 63 := rfl
  rw [isNegative, magnitude, hsign]
  split
  · next h => rw [decide_eq_true_iff] at h; omega
  · next h => rw [decide_eq_true_iff] at h; omega

theorem magnitude_lt (x : Binary64) : x.magnitude < 2 ^ 63 := Nat.mod_lt _ (by decide)

/-- Patterns in the same place are the same. -/
theorem eq_of_place_eq (h : x.place = y.place) : x = y := by
  have hbits : x.bits.toNat = y.bits.toNat := by
    rw [toNat_bits, toNat_bits]
    unfold place at h
    cases hx : x.isNegative <;> cases hy : y.isNegative <;>
      simp only [hx, hy, Bool.false_eq_true, if_true, if_false] at h ⊢ <;> omega
  have heq := UInt64.toNat_inj.1 hbits
  cases x
  cases y
  exact congrArg mk heq

theorem xor_two_pow_sub_one {n m : Nat} (h : m < 2 ^ n) : m ^^^ (2 ^ n - 1) = 2 ^ n - 1 - m := by
  have hnot := congrArg BitVec.toNat (BitVec.xor_allOnes (x := BitVec.ofNat n m))
  rwa [BitVec.toNat_xor, BitVec.toNat_not, BitVec.toNat_allOnes, BitVec.toNat_ofNat,
    Nat.mod_eq_of_lt h] at hnot

/-- The place is the pattern read as a signed word, after all bits but the sign were flipped if the
sign is set. -/
theorem place_eq_toInt (x : Binary64) : x.place =
    (x.bits.toBitVec ^^^ (x.bits.toBitVec.sshiftRight 63 >>> 1)).toInt := by
  have hbits : x.bits.toBitVec.toNat = (if x.isNegative then 2 ^ 63 else 0) + x.magnitude :=
    x.toNat_bits
  have hlt := x.magnitude_lt
  have hmsb : x.bits.toBitVec.msb = x.isNegative := by
    rw [BitVec.msb_eq_decide, hbits]
    cases x.isNegative with
    | false => exact decide_eq_false (by simpa using hlt)
    | true => exact decide_eq_true (Nat.le_add_right _ _)
  unfold place
  cases hsign : x.isNegative with
  | false =>
    rw [hsign, if_neg Bool.false_ne_true, Nat.zero_add] at hbits
    have hshift : x.bits.toBitVec.sshiftRight 63 = 0 := by
      refine BitVec.eq_of_toNat_eq ?_
      rw [BitVec.sshiftRight_eq_of_msb_false (hmsb.trans hsign), BitVec.toNat_ushiftRight, hbits,
        Nat.shiftRight_eq_div_pow, Nat.div_eq_of_lt hlt]
      rfl
    rw [hshift, BitVec.toInt_eq_toNat_cond]
    simp [hbits]
    omega
  | true =>
    rw [hsign, if_pos rfl] at hbits
    have hmask : (x.bits.toBitVec.sshiftRight 63 >>> 1).toNat = 2 ^ 63 - 1 := by
      rw [BitVec.toNat_ushiftRight, BitVec.toNat_sshiftRight_of_msb_true (hmsb.trans hsign), hbits,
        Nat.shiftRight_eq_div_pow, Nat.shiftRight_eq_div_pow]
      omega
    have hflipped := xor_two_pow_sub_one hlt
    -- the sign stays, and below it all bits are flipped
    have hhigh : (x.bits.toBitVec.toNat ^^^ (2 ^ 63 - 1)) / 2 ^ 63 = 1 := by
      rw [Nat.xor_div_two_pow, hbits, Nat.add_div_left _ (by decide), Nat.div_eq_of_lt hlt]
      rfl
    have hlow : (x.bits.toBitVec.toNat ^^^ (2 ^ 63 - 1)) % 2 ^ 63 = 2 ^ 63 - 1 - x.magnitude := by
      rw [Nat.xor_mod_two_pow, hbits, Nat.add_mod_left, Nat.mod_eq_of_lt hlt]
      exact hflipped
    rw [BitVec.toInt_eq_toNat_cond, BitVec.toNat_xor, hmask]
    generalize x.bits.toBitVec.toNat ^^^ (2 ^ 63 - 1) = n at hhigh hlow
    rw [if_pos rfl, if_neg (by omega)]
    omega

end Binary64

/-! ### Costs -/

/-- What a cost comes to if one is given: nothing if it is negative or not a number. -/
noncomputable def amount (cost : Option Binary64) : EReal :=
  max 0 ((cost.filter (!·.isNaN)).elim 0 Binary64.toEReal)

theorem keptCost_eq_none_iff {cost : Option Binary64} :
    keptCost cost = none ↔ cost = none ∨ ∃ c, cost = some c ∧ c.isNaN := by
  cases cost <;> simp [keptCost]

/-- A number that is given is kept if it is positive, else zero is. -/
theorem keptCost_some {c : Binary64} (h : c.isNaN = false) :
    keptCost (some c) = some (if 0 < c.toEReal then c else .zero) := by
  simp only [keptCost, Option.filter, h, ← Binary64.isPositive_iff h, Bool.not_false, if_true,
    Option.map_some]

/-- What counts is nothing, or a positive number that was given. -/
theorem getD_keptCost (cost : Option Binary64) :
    ((keptCost cost).getD .zero = .zero ∧ amount cost = 0) ∨
      ∃ c, (keptCost cost).getD .zero = c ∧ c.isNaN = false ∧ amount cost = c.toEReal := by
  rcases cost with _ | c
  · exact .inl ⟨rfl, max_self 0⟩
  cases h : c.isNaN with
  | true =>
    have hnone : keptCost (some c) = none := keptCost_eq_none_iff.2 (.inr ⟨c, rfl, h⟩)
    refine .inl ⟨by rw [hnone, Option.getD_none], ?_⟩
    simp [amount, Option.filter, h]
  | false =>
    have hamount : amount (some c) = max 0 c.toEReal := by simp [amount, Option.filter, h]
    rw [keptCost_some h, Option.getD_some, hamount]
    split
    · next hpos => exact .inr ⟨c, rfl, h, max_eq_right hpos.le⟩
    · next hpos => exact .inl ⟨rfl, max_eq_left (not_lt.1 hpos)⟩

theorem isNaN_keptCost (cost : Option Binary64) : ((keptCost cost).getD .zero).isNaN = false := by
  rcases getD_keptCost cost with ⟨h, -⟩ | ⟨c, h, hc, -⟩
  · rw [h]
    decide
  · rw [h, hc]

/-- What is kept comes to what was given. -/
theorem toEReal_keptCost (cost : Option Binary64) :
    ((keptCost cost).getD .zero).toEReal = amount cost := by
  rcases getD_keptCost cost with ⟨h, hamount⟩ | ⟨c, h, -, hamount⟩
  · rw [h, hamount, Binary64.toEReal_zero]
  · rw [h, hamount]

/-- Kept costs compare, as patterns, as the amounts do. -/
theorem compare_keptCost (a b : Option Binary64) :
    compare ((keptCost a).getD .zero).bits ((keptCost b).getD .zero).bits =
      cmp (amount a) (amount b) := by
  rw [Binary64.compare_bits (isNegative_keptCost a) (isNegative_keptCost b) (isNaN_keptCost a)
    (isNaN_keptCost b), toEReal_keptCost, toEReal_keptCost]

/-! ### Ranks -/

namespace Rank

instance : LawfulEqOrd Rank where
  eq_of_compare {a b} h := by
    change (compare a.live b.live).then ((a.cost.totalCompare b.cost).then
      ((compare a.lastAccess b.lastAccess).then (compare a.seq b.seq))) = .eq at h
    simp only [Ordering.then_eq_eq, Binary64.totalCompare, Std.compare_eq_iff_eq] at h
    obtain ⟨hlive, hcost, hlast, hseq⟩ := h
    obtain ⟨_, _, _, _⟩ := a
    obtain ⟨_, _, _, _⟩ := b
    obtain rfl := Binary64.eq_of_place_eq hcost
    cases hlive
    cases hlast
    cases hseq
    rfl

/-- Ranks put entries with different numbers in a strict order, whatever their statuses are. -/
theorem isStrictTotalOrder_before (m : Moment) (status : Entry → Status) {es : Set Entry}
    (hes : es.InjOn Entry.seq) :
    IsStrictTotalOrder es fun e f =>
      (Rank.of m e (status e)).before (Rank.of m f (status f)) where
  irrefl e h := by
    rw [before_iff, Std.compare_self] at h
    cases h
  trans e f g hef hfg := before_iff.2 (Std.TransCmp.lt_trans (before_iff.1 hef) (before_iff.1 hfg))
  trichotomous e f hef hfe := by
    rw [before_iff] at hef hfe
    have heq : compare (Rank.of m e (status e)) (Rank.of m f (status f)) = .eq := by
      cases h : compare (Rank.of m e (status e)) (Rank.of m f (status f)) with
      | lt => exact absurd h hef
      | eq => rfl
      | gt => exact absurd (Std.OrientedCmp.gt_iff_lt.1 h) hfe
    exact Subtype.ext (hes e.2 f.2 (congrArg Rank.seq (Std.compare_eq_iff_eq.1 heq)))

end Rank

/-! ### Entries -/

/-- An entry was made with a cost given, or with none. -/
def Entry.MadeFor (cost : Option Binary64) (e : Entry) : Prop :=
  ∃ owner p payload overhead seq, e = .new owner p payload cost overhead seq

/-- **Both orders of costs are that of the numbers.** An entry keeps no cost if none was given or a
NaN, else it keeps what was given if that is positive, and zero if it is not. Turns, which compare
patterns, and ranks, which compare in the total order of patterns, then compare entries as the
amounts compare that were given. Whatever their statuses are, entries with different numbers are in a
strict order by their ranks, and equal only to themselves. -/
theorem cost_orders_agree {e f : Entry} {a b : Option Binary64} (he : e.MadeFor a)
    (hf : f.MadeFor b) :
    (e.cost = none ↔ a = none ∨ ∃ c, a = some c ∧ c.isNaN) ∧
    (∀ c, a = some c → c.isNaN = false →
      e.cost = some (if 0 < c.toEReal then c else .zero)) ∧
    (∀ t u, compare (Turn.of e t).cost (Turn.of f u).cost = cmp (amount a) (amount b)) ∧
    (∀ m s m' s', (Rank.of m e s).cost.totalCompare (Rank.of m' f s').cost =
      cmp (amount a) (amount b)) ∧
    ∀ (m : Moment) (status : Entry → Status) {es : Set Entry}, es.InjOn Entry.seq →
      (IsStrictTotalOrder es fun e f =>
        (Rank.of m e (status e)).before (Rank.of m f (status f))) ∧
      ∀ e ∈ es, ∀ f ∈ es,
        compare (Rank.of m e (status e)) (Rank.of m f (status f)) = .eq ↔ e = f := by
  obtain ⟨owner, p, payload, overhead, seq, rfl⟩ := he
  obtain ⟨owner', p', payload', overhead', seq', rfl⟩ := hf
  refine ⟨keptCost_eq_none_iff, ?_, fun _ _ => compare_keptCost a b, fun m s m' s' => ?_,
    fun m status es hes => ⟨Rank.isStrictTotalOrder_before m status hes, fun e he f hf => ?_⟩⟩
  · rintro c rfl hc
    exact keptCost_some hc
  · exact (Binary64.totalCompare_of_nonneg (isNegative_keptCost a) (isNegative_keptCost b)).trans
      (compare_keptCost a b)
  · rw [Std.compare_eq_iff_eq]
    exact ⟨fun h => hes he hf (congrArg Rank.seq h), fun h => h ▸ rfl⟩

/-- Negative zero is kept as zero, and the least positive number as it is. Both orders put the one
before the other, which is as it should be. -/
theorem cost_orders_agree_negative_zero :
    let a : Option Binary64 := some ⟨0x8000000000000000⟩
    let b : Option Binary64 := some ⟨1⟩
    let e := Entry.new ⟨0, .hashed 1⟩ .origin ⟨⟨8, 100, 1⟩, 0⟩ a 256 0
    let f := Entry.new ⟨0, .hashed 1⟩ .origin ⟨⟨8, 100, 1⟩, 0⟩ b 256 1
    let m : Moment := ⟨0, fun _ => true⟩
    e.MadeFor a ∧ f.MadeFor b ∧ e.cost = some .zero ∧ f.cost = some ⟨1⟩ ∧
      cmp (amount a) (amount b) = .lt ∧ compare (Turn.of e 5).cost (Turn.of f 3).cost = .lt ∧
      (Rank.of m e ⟨9, .added⟩).cost.totalCompare (Rank.of m f ⟨2, .added⟩).cost = .lt ∧
      Set.InjOn Entry.seq {e, f} ∧
      compare (Rank.of m e ⟨9, .added⟩) (Rank.of m f ⟨9, .added⟩) ≠ .eq := by
  intro a b e f m
  have he : e.MadeFor a := ⟨_, _, _, _, _, rfl⟩
  have hf : f.MadeFor b := ⟨_, _, _, _, _, rfl⟩
  have hne : e ≠ f := fun h => absurd (congrArg Entry.seq h) (by decide)
  have hinj : Set.InjOn Entry.seq {e, f} := by
    rintro x (rfl | rfl) y (rfl | rfl) h
    · rfl
    · cases h
    · cases h
    · rfl
  obtain ⟨-, -, hturns, hranks, hstrict⟩ := cost_orders_agree he hf
  have hlt : cmp (amount a) (amount b) = .lt := (hturns 5 3).symm.trans (by decide)
  obtain ⟨-, heq⟩ := hstrict m (fun _ => ⟨9, .added⟩) hinj
  refine ⟨he, hf, by decide, by decide, hlt, (hturns 5 3).trans hlt, (hranks _ _ _ _).trans hlt,
    hinj, fun h => hne ?_⟩
  exact (heq e (Set.mem_insert e _) f (Set.mem_insert_of_mem e rfl)).1 h

end TileStore
