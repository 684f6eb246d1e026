import Mathlib.Data.Nat.ModEq
import Mathlib.Data.List.Chain
import Mathlib.Data.List.Range
import Mathlib.Data.List.Nodup

/-!
# Going round

Sweeps and samples go round a row of places and remember where they stopped. From any place on, as
many steps as there are places never come to a place twice, and come to every place. Nor is a place
overlooked if these steps are made in stretches between which the row becomes longer:
`exists_mem_stretch`.
-/

namespace TileStore

/-- Two steps of one round come to different places. -/
theorem eq_of_add_mod_eq {a n i j : Nat} (hi : i < n) (hj : j < n)
    (h : (a + i) % n = (a + j) % n) : i = j := by
  have hmod : i % n = j % n := Nat.ModEq.add_left_cancel' a h
  rwa [Nat.mod_eq_of_lt hi, Nat.mod_eq_of_lt hj] at hmod

theorem nodup_round (a n count : Nat) :
    ((List.range (min count n)).map fun i => (a + i) % n).Nodup := by
  refine List.nodup_range.map_on fun i hi j hj h => ?_
  rw [List.mem_range] at hi hj
  exact eq_of_add_mod_eq (by omega) (by omega) h

/-- Some step of a round comes to a given place. -/
theorem exists_add_mod_eq (a : Nat) {n p : Nat} (hp : p < n) : ∃ i < n, (a + i) % n = p := by
  have hn : 0 < n := by omega
  have ha := Nat.mod_lt a hn
  refine ⟨(p + n - a % n) % n, Nat.mod_lt _ hn, ?_⟩
  rw [Nat.add_mod, Nat.mod_mod, ← Nat.add_mod]
  have hdiv := Nat.mod_add_div a n
  have hsum : a + (p + n - a % n) = p + n * (a / n + 1) := by
    rw [Nat.mul_add, Nat.mul_one]
    omega
  rw [hsum, Nat.add_mul_mod_self_left, Nat.mod_eq_of_lt hp]

/-- Stretches of `w` steps one after the other, as many as it takes for a round, come to a given
place. -/
theorem exists_stretch (a : Nat) {n k w p : Nat} (hp : p < n) (hk : n ≤ k * w) :
    ∃ j < k, ∃ i < w, (a + j * w + i) % n = p := by
  obtain ⟨t, ht, htp⟩ := exists_add_mod_eq a hp
  have hw : 0 < w := Nat.pos_of_ne_zero fun h => by
    rw [h, Nat.mul_zero] at hk
    omega
  refine ⟨t / w, (Nat.div_lt_iff_lt_mul hw).2 (by omega), t % w, Nat.mod_lt t hw, ?_⟩
  rwa [Nat.add_assoc, Nat.div_add_mod']

/-! ### Going on where the last stretch stopped -/

/-- The places of a stretch of at most `w` steps from place `a` on, in a row of `n`. -/
def stretch (w a n : Nat) : List Nat := (List.range (min w n)).map fun i => (a + i) % n

theorem mem_stretch {w a n p : Nat} : p ∈ stretch w a n ↔ ∃ i, i < w ∧ i < n ∧ (a + i) % n = p := by
  simp [stretch, and_assoc]

theorem stretch_mod (w a n : Nat) : stretch w (a % n) n = stretch w a n := by
  simp only [stretch, Nat.mod_add_mod]

theorem getLast?_stretch {w n : Nat} (a : Nat) (hw : 0 < w) (hn : w < n) :
    (stretch w a n).getLast? = some ((a + (w - 1)) % n) := by
  obtain ⟨v, rfl⟩ := Nat.exists_eq_succ_of_ne_zero hw.ne'
  rw [stretch, Nat.min_eq_left hn.le, List.range_succ]
  simp

theorem exists_getLast?_stretch {w n : Nat} (a : Nat) (hw : 0 < w) (hn : 0 < n) :
    ∃ last, (stretch w a n).getLast? = some last := by
  have hne : stretch w a n ≠ [] := by
    simp only [stretch, ne_eq, List.map_eq_nil_iff, List.range_eq_nil]
    omega
  exact ⟨_, List.getLast?_eq_some_getLast hne⟩

/-- How far it is from one place on to another, in a row that has at last `n` places. -/
def ahead (n a p : Nat) : Nat := if a ≤ p then p - a else n - a + p

/-- A stretch that misses a place comes nearer to it by all of its steps. The row may become longer
before the next one. -/
theorem ahead_of_missed {w a n m p last : Nat} (hp : p < n) (hm : n ≤ m) (ha : a ≤ n)
    (hmissed : p ∉ stretch w a n) (hlast : (stretch w a n).getLast? = some last) :
    last < n ∧ ahead m (last + 1) p + w ≤ ahead m a p := by
  have hwn : w < n := by
    by_contra hle
    obtain ⟨i, hi, hip⟩ := exists_add_mod_eq a hp
    exact hmissed (mem_stretch.2 ⟨i, by omega, hi, hip⟩)
  have hw : 0 < w := Nat.pos_of_ne_zero fun h => by
    rw [h] at hlast
    simp [stretch] at hlast
  rw [getLast?_stretch a hw hwn, Option.some.injEq] at hlast
  subst hlast
  refine ⟨Nat.mod_lt _ (by omega), ?_⟩
  have hfar : ∀ i < n, (a + i) % n = p → w ≤ i := fun i hi hip => by
    by_contra hiw
    exact hmissed (mem_stretch.2 ⟨i, by omega, hi, hip⟩)
  unfold ahead
  rcases Nat.lt_or_ge p a with hpa | hap
  · -- the place lies behind, and is come to after the end of the row
    have hround : (a + (n - a + p)) % n = p := by
      rw [show a + (n - a + p) = p + n by omega, Nat.add_mod_right, Nat.mod_eq_of_lt hp]
    have hle := hfar _ (by omega) hround
    rw [if_neg (Nat.not_le.2 hpa)]
    rcases Nat.lt_or_ge (a + (w - 1)) n with hlt | hge
    · rw [Nat.mod_eq_of_lt hlt, if_neg (by omega)]
      omega
    · rw [Nat.mod_eq_sub_mod hge, Nat.mod_eq_of_lt (by omega), if_pos (by omega)]
      omega
  · have hround : (a + (p - a)) % n = p := by
      rw [Nat.add_sub_cancel' hap, Nat.mod_eq_of_lt hp]
    have hle := hfar _ (by omega) hround
    rw [Nat.mod_eq_of_lt (by omega : a + (w - 1) < n), if_pos hap, if_pos (by omega)]
    omega

/-- One stretch begins where the one before it stopped, and the row has not become shorter. -/
def GoesOn (w : Nat) (r r' : Nat × Nat) : Prop :=
  r.2 ≤ r'.2 ∧ ∀ last, (stretch w r.1 r.2).getLast? = some last → r'.1 = last + 1

theorem exists_mem_stretch_of_ahead {w m a n p : Nat} {rs : List (Nat × Nat)}
    (hgo : ((a, n) :: rs).IsChain (GoesOn w)) (hm : ∀ r ∈ (a, n) :: rs, r.2 ≤ m) (hw : 0 < w)
    (hp : p < n) (ha : a ≤ n) (hahead : ahead m a p < ((a, n) :: rs).length * w) :
    ∃ r ∈ (a, n) :: rs, p ∈ stretch w r.1 r.2 := by
  induction rs generalizing a n with
  | nil =>
    refine ⟨_, List.mem_singleton_self _, ?_⟩
    by_contra hmissed
    obtain ⟨last, hlast⟩ := exists_getLast?_stretch a hw (Nat.zero_lt_of_lt hp)
    have := (ahead_of_missed hp (hm _ List.mem_cons_self) ha hmissed hlast).2
    simp only [List.length_singleton, Nat.one_mul] at hahead
    omega
  | cons r rs ih =>
    by_cases hmissed : p ∈ stretch w a n
    · exact ⟨_, List.mem_cons_self, hmissed⟩
    · obtain ⟨last, hlast⟩ := exists_getLast?_stretch a hw (Nat.zero_lt_of_lt hp)
      obtain ⟨hlt, hnear⟩ := ahead_of_missed hp (hm _ List.mem_cons_self) ha hmissed hlast
      obtain ⟨⟨hn, hstart⟩, hgo⟩ := List.isChain_cons_cons.1 hgo
      obtain ⟨a', n'⟩ := r
      obtain rfl : a' = last + 1 := hstart last hlast
      have hahead' : ahead m (last + 1) p < ((last + 1, n') :: rs).length * w := by
        simp only [List.length_cons, Nat.succ_mul] at hahead ⊢
        omega
      obtain ⟨r, hr, hfound⟩ := ih hgo (fun r hr => hm r (List.mem_cons_of_mem _ hr))
        (hp.trans_le hn) (Nat.succ_le_of_lt (hlt.trans_le hn)) hahead'
      exact ⟨r, List.mem_cons_of_mem _ hr, hfound⟩

/-- While stretches go on, the row is longest at the last one. -/
theorem places_le_last {w : Nat} {last : Nat × Nat} {rs : List (Nat × Nat)}
    (hgo : rs.IsChain (GoesOn w)) (hlast : rs.getLast? = some last) : ∀ r ∈ rs, r.2 ≤ last.2 := by
  obtain ⟨before, rfl⟩ := List.getLast?_eq_some_iff.1 hlast
  have hchain : ((before ++ [last]).map (·.2)).IsChain (· ≤ ·) :=
    (List.isChain_map _).2 (hgo.imp fun _ _ h => h.1)
  have hpairs := hchain.pairwise
  rw [List.map_append, List.pairwise_append] at hpairs
  intro r hr
  rcases List.mem_append.1 hr with hr | hr
  · exact hpairs.2.2 _ (List.mem_map_of_mem hr) _ (List.mem_singleton_self _)
  · rw [List.mem_singleton.1 hr]

/-- **Stretches that go on** where the last one stopped, while the row may become longer, come to every
place that there was at first, when they have as many steps together as there are places at last. -/
theorem exists_mem_stretch {w a n p : Nat} {last : Nat × Nat} {rs : List (Nat × Nat)}
    (hgo : ((a, n) :: rs).IsChain (GoesOn w)) (hlast : ((a, n) :: rs).getLast? = some last)
    (hp : p < n) (hround : last.2 ≤ ((a, n) :: rs).length * w) :
    ∃ r ∈ (a, n) :: rs, p ∈ stretch w r.1 r.2 := by
  have hm := places_le_last hgo hlast
  have hstart : a % n < n := Nat.mod_lt a (by omega)
  have hgo' : ((a % n, n) :: rs).IsChain (GoesOn w) := by
    refine hgo.imp_head fun h => ?_
    rwa [GoesOn, stretch_mod]
  have hn : n ≤ last.2 := hm _ List.mem_cons_self
  have hm' : ∀ r ∈ (a % n, n) :: rs, r.2 ≤ last.2 := by
    intro r hr
    rcases List.mem_cons.1 hr with rfl | hr
    · exact hn
    · exact hm r (List.mem_cons_of_mem _ hr)
  have hahead : ahead last.2 (a % n) p < ((a % n, n) :: rs).length * w := by
    refine Nat.lt_of_lt_of_le ?_ hround
    unfold ahead
    split <;> omega
  have hw : 0 < w := Nat.pos_of_ne_zero fun h => by
    rw [h, Nat.mul_zero] at hround
    omega
  obtain ⟨r, hr, hfound⟩ := exists_mem_stretch_of_ahead hgo' hm' hw hp hstart.le hahead
  rcases List.mem_cons.1 hr with rfl | hr
  · exact ⟨_, List.mem_cons_self, by rwa [stretch_mod] at hfound⟩
  · exact ⟨r, List.mem_cons_of_mem _ hr, hfound⟩

end TileStore
