import TileStore.Proofs.Bound
import TileStore.Proofs.Rounding

/-!
# Eviction targets and the capacity

The target of a pass is a product of numbers, rounded twice: once when the capacity is made a number, and
once when it is multiplied by the threshold. Unless the threshold is one the second rounding makes up for
the first, and the target is less than the capacity. With a threshold of one the target is the capacity as
a number, which may be greater: `capacity_lt_target_iff`.

So a pass goes down to the capacity but for this case, and the capacity holds as soon as it is set:
`capacity_restored`. Up to `2 ^ 53` bytes there is no exception, and beyond there are some:
`capacity_overshot`.
-/

namespace TileStore

open Binary64

/-! ### The target -/

namespace Ledger

variable {l : Ledger}

/-- With less than one for a threshold the target is less than the capacity. -/
theorem target_lt (hc : l.capacity ≠ 0) (ht : l.threshold.isFraction) (hone : l.threshold ≠ .one) :
    l.target < l.capacity := by
  obtain ⟨hlow, hhigh⟩ := magnitudeOfRatio_word hc
  rw [target, ofNat, ofRatio, mul_of_isFraction hhigh ht]
  cases hsign : l.threshold.isNegative with
  | true =>
    have hzero : (ofMagnitude true (magnitudeOfRatio
        (unitsAt (magnitudeOfRatio l.capacity.toNat 1) * l.threshold.units)
        (unitsPerOne * unitsPerOne))).toWord = 0 := by
      rw [toWord, isNegative_ofMagnitude _ (magnitudeOfRatio_le_infinityBits ..), Bool.or_true,
        if_pos rfl]
    rw [hzero]
    exact UInt64.pos_iff_ne_zero.2 hc
  | false =>
    have hless : l.threshold.magnitude < Binary64.one.magnitude := by
      refine (magnitude_le_of_isFraction ht).lt_of_ne fun heq => hone ?_
      rw [magnitude_of_nonneg hsign] at heq
      exact congrArg Binary64.mk (UInt64.toNat_inj.1 heq)
    obtain ⟨k, hk⟩ : ∃ k, magnitudeOfRatio l.capacity.toNat 1 = k + 1 :=
      Nat.exists_eq_succ_of_ne_zero (Nat.ne_zero_of_lt hlow)
    refine toWord_ofMagnitude_lt (magnitudeOfRatio_le_infinityBits ..) ?_
    have hproduct := magnitudeOfRatio_mul_le (Nat.le_of_lt_succ (hk ▸ hlow)) hless
    rw [hk]
    exact (unitsAt_strictMono.monotone hproduct).trans_lt
      (unitsAt_lt_of_lt_magnitudeOfRatio (hk ▸ Nat.lt_succ_self k))

/-- With one for a threshold the target is the number that the capacity is rounded to. -/
theorem target_of_one (hc : l.capacity ≠ 0) (hone : l.threshold = .one) :
    l.target = nearest l.capacity := by
  have ha := (magnitudeOfRatio_word hc).2
  rw [target, hone, ofNat, ofRatio, mul_one_ofMagnitude ha]
  rfl

/-- The target is greater than the capacity only if the threshold is one, and the capacity is not a number
and rounded up. -/
theorem capacity_lt_target_iff (hc : l.capacity ≠ 0) (ht : l.threshold.isFraction) :
    l.capacity < l.target ↔ l.threshold = .one ∧ l.capacity < nearest l.capacity := by
  by_cases hone : l.threshold = .one
  · rw [target_of_one hc hone]
    exact ⟨fun h => ⟨hone, h⟩, And.right⟩
  · exact ⟨fun h => absurd (target_lt hc ht hone) (UInt64.lt_asymm h), fun h => absurd h.1 hone⟩

end Ledger

/-! ### The capacity -/

namespace Cache

variable {ok : Moment → Cache → Request Owner Identity → Prop} {c c' : Cache} {m : Moment}
  {bytes : UInt64} {x : Reply × List Notice} {t : Tile}

/-- Whatever was asked of a cache, its capacity and its threshold are good. -/
theorem Reaches.bounds_good (h : Reaches ok c) :
    c.ledger.capacity ≠ 0 ∧ c.ledger.threshold.isFraction := by
  induction h with
  | @built s observers c hb =>
    obtain ⟨-, rfl⟩ := eq_new_of_build hb
    unfold build at hb
    cases hv : s.validate with
    | error r =>
      rw [hv] at hb
      cases hb
    | ok =>
      obtain ⟨hcapacity, hfraction, -⟩ := s.validate_eq_ok_iff.1 hv
      unfold new
      cases s.layout <;> exact ⟨hcapacity, hfraction⟩
  | @performed c c' m r x hc _ hx ih =>
    obtain ⟨hcapacity, hthreshold⟩ := ((Request.perform_meets m r hc.sound).of_ok hx).bounds
    rw [hcapacity, hthreshold]
    cases r with
    | setCapacity bytes =>
      rw [Request.rebound, Ledger.setCapacity_eq]
      split
      · exact ih
      · next h => exact ⟨h, ih.2⟩
    | setThreshold t =>
      rw [Request.rebound, Ledger.setThreshold_eq]
      split
      · next h => exact ⟨ih.1, h⟩
      · exact ih
    | _ => exact ih
  | counted a _ ih => rwa [Cache.count, ledger_editLedger]

/-- A pass that spares nothing goes down to the target. -/
theorem memoryUsed_le_of_sheds {k : Contents} {target : UInt64} {victims : List Entry} (h : c.Sound)
    (hx : c.Exact) (hs : k.Sheds target.toNat none victims c.contents) :
    c.ledger.memoryUsed ≤ target := by
  rcases hs.enough with hmet | hnone
  · exact UInt64.le_iff_toNat_le.2 hmet
  · rw [memoryUsed_eq_zero h hx fun u =>
      Option.not_isSome_iff_eq_none.1 fun hu => nomatch hnone u hu]
    exact UInt64.zero_le

/-- A capacity that is set is not below what is in use then, or not the target. -/
theorem memoryUsed_of_setCapacity (hx : c.Exact) (hbytes : bytes ≠ 0)
    (ha : (Request.setCapacity bytes).Answered m c x c') :
    x.1 = .accepted ∧ c'.ledger.capacity = bytes ∧ c'.ledger.threshold = c.ledger.threshold ∧
      (c'.ledger.memoryUsed ≤ bytes ∨ c'.ledger.memoryUsed ≤ c'.ledger.target) := by
  have hs : c.Exact ∧ c.HasRoom m (.setCapacity bytes) := ⟨hx, trivial⟩
  have hbounds := ha.bounds
  rw [Request.rebound, Ledger.setCapacity_eq, if_neg hbytes] at hbounds
  obtain ⟨hreply, hserves⟩ := ha.serves hs
  have hgood : ∀ e, ¬(.setCapacity bytes : Request Owner Identity).Refused e := by
    intro e he
    cases he
    exact hbytes rfl
  refine ⟨hreply.eq_accepted hgood, hbounds.1, hbounds.2, ?_⟩
  split at hserves
  · rw [hbounds.target]
    exact .inr (memoryUsed_le_of_sheds ha.sound (ha.exact hs) hserves)
  · next hfits =>
    have hused : c.contents.used ≤ bytes.toNat := Nat.not_lt.1 fun hlt => hfits ⟨hbytes, hlt⟩
    rw [← hserves.2] at hused
    exact .inl (UInt64.le_iff_toNat_le.2 hused)

end Cache

/-- A capacity that is set is kept to as soon as the request is answered, unless the threshold is one
and the capacity is rounded up to a number: then the memory may be up to that number. In this case, and
in no other, the target of a pass is above the capacity. Up to `2 ^ 53` bytes it cannot be. -/
theorem capacity_restored {c : Cache} (h : Cache.Reaches Cache.HasRoom c) (m : Moment)
    {bytes : UInt64} (hbytes : bytes ≠ 0) :
    ∃ notices c',
      ((Request.setCapacity bytes).perform m).result c = (.ok (.accepted, notices), c') ∧
      c'.ledger.capacity = bytes ∧ c'.ledger.threshold = c.ledger.threshold ∧
      (bytes < c'.ledger.target ↔ c.ledger.threshold = .one ∧ bytes < nearest bytes) ∧
      (bytes < c'.ledger.memoryUsed →
        c.ledger.threshold = .one ∧ bytes < nearest bytes ∧ c'.ledger.memoryUsed ≤ nearest bytes) ∧
      (bytes.toNat ≤ 2 ^ 53 → c'.ledger.memoryUsed ≤ bytes) := by
  obtain ⟨⟨reply, notices⟩, c', hresult, ha⟩ :=
    (Request.perform_meets m (.setCapacity bytes) h.sound).exists_ok ⟨h.exact, trivial⟩
  obtain ⟨rfl, hcapacity, hthreshold, hused⟩ :=
    Cache.memoryUsed_of_setCapacity h.exact hbytes ha
  have hiff : bytes < c'.ledger.target ↔ c.ledger.threshold = .one ∧ bytes < nearest bytes := by
    have hiff := Ledger.capacity_lt_target_iff (l := c'.ledger) (hcapacity ▸ hbytes)
      (hthreshold ▸ h.bounds_good.2)
    rwa [hcapacity, hthreshold] at hiff
  have hover : bytes < c'.ledger.memoryUsed → c.ledger.threshold = .one ∧ bytes < nearest bytes ∧
      c'.ledger.memoryUsed ≤ nearest bytes := by
    intro hlt
    have hused := hused.resolve_left (UInt64.not_le.2 hlt)
    obtain ⟨hone, hnearest⟩ := hiff.1 (UInt64.lt_of_lt_of_le hlt hused)
    rw [Ledger.target_of_one (hcapacity ▸ hbytes) (hthreshold.trans hone), hcapacity] at hused
    exact ⟨hone, hnearest, hused⟩
  refine ⟨notices, c', hresult, hcapacity, hthreshold, hiff, hover, fun hsmall => ?_⟩
  by_contra hle
  obtain ⟨-, hnearest, -⟩ := hover (UInt64.not_le.1 hle)
  rw [nearest_of_le hsmall] at hnearest
  exact UInt64.lt_irrefl _ hnearest

/-- Two tiles are cached, and then there is room for one of them only. -/
theorem capacity_restored_lowered :
    let m : Moment := ⟨0, fun _ => true⟩
    let add (x : Int32) : Request Owner Identity := .add ⟨0, .hashed 1⟩ ⟨x, 0⟩ ⟨⟨8, 100, 1⟩, 0⟩ none
    let next (c : Cache) (q : Request Owner Identity) := ((q.perform m).result c).2
    let c := [add 0, add 1].foldl next (Cache.new {} 0)
    Cache.Reaches Cache.HasRoom c ∧ c.ledger.memoryUsed = 712 ∧
      ∃ notices c', ((Request.setCapacity 500).perform m).result c = (.ok (.accepted, notices), c') ∧
        c'.ledger.memoryUsed ≤ 500 ∧ ¬500 < c'.ledger.target := by
  intro m add next c
  have hc : Cache.Reaches Cache.HasRoom c := by
    refine .next (.next (.built (s := {}) rfl) ?_) ?_ <;> decide +kernel
  have hthreshold : c.ledger.threshold ≠ .one := by decide +kernel
  obtain ⟨notices, c', hresult, -, -, htarget, -, hsmall⟩ :=
    capacity_restored hc m (by decide : (500 : UInt64) ≠ 0)
  exact ⟨hc, by decide +kernel, notices, c', hresult, hsmall (by decide),
    fun h => hthreshold (htarget.1 h).1⟩

/-- With one for a threshold, a capacity is set that is rounded up by one byte. The only tile is larger
by as much, and stays. -/
theorem capacity_overshot :
    let m : Moment := ⟨0, fun _ => true⟩
    let s : Settings :=
      { layout := .linked, capacity := 0x40000000000000, threshold := .one, overhead := 0x20000000000004 }
    let c := (((Request.add ⟨0, .hashed 1⟩ .origin ⟨⟨8, 0, 1⟩, 0⟩ none).perform m).result
      (Cache.new s 0)).2
    Cache.Reaches Cache.HasRoom c ∧
      ∃ notices c', ((Request.setCapacity 0x20000000000003).perform m).result c =
        (.ok (.accepted, notices), c') ∧
        c'.ledger.capacity = 0x20000000000003 ∧ c'.ledger.memoryUsed = 0x20000000000004 := by
  intro m s c
  have hc : Cache.Reaches Cache.HasRoom c := by
    refine .next (.built (s := s) rfl) ?_
    decide +kernel
  have hused : (((Request.setCapacity 0x20000000000003).perform m).result c).2.ledger.memoryUsed =
      0x20000000000004 := by decide +kernel
  clear_value c
  obtain ⟨⟨reply, notices⟩, c', hresult, ha⟩ :=
    (Request.perform_meets m (.setCapacity 0x20000000000003) hc.sound).exists_ok ⟨hc.exact, trivial⟩
  obtain ⟨rfl, hcapacity, -⟩ := Cache.memoryUsed_of_setCapacity hc.exact (by decide) ha
  rw [hresult] at hused
  exact ⟨hc, notices, c', hresult, hcapacity, hused⟩

end TileStore
