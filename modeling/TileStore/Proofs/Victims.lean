import TileStore.Proofs.Linked.Store
import TileStore.Proofs.Sharded.Store

/-!
# First victims

A linked store follows its schedule and a sharded one takes the best of a few samples. The schedule
is in the order of turns, so what it comes to first has the least turn: `cheapest?_least`. While no
more shards hold something than a search probes, and none more than a sample looks at, which is `Few`, a
search sees everything, and what it puts forward has the least rank: `pick?_least`.
-/

namespace TileStore

open Std (TransCmp TransOrd TreeMap)

/-! ### Ranks -/

instance : TransOrd Rank :=
  inferInstanceAs (TransCmp (compareLex (compareOn Rank.live) (compareLex
    (compareOn fun r => r.cost.place) (compareLex (compareOn Rank.lastAccess)
      (compareOn Rank.seq)))))

theorem Rank.before_iff {a b : Rank} : a.before b ↔ compare a b = .lt := decide_eq_true_iff

namespace Shard

variable {α : Type} {s : Shard α} {rank : α → Rank} {count : Nat} {protect : Option TileKey}
  {c : Rank × α}

/-- The best of some candidates comes before all others. -/
theorem foldl_better_least {cs : List (Rank × α)} {b : Rank × α}
    (h : cs.foldl better (some b) = some c) : ∀ d ∈ b :: cs, (compare c.1 d.1).isLE := by
  induction cs generalizing b with
  | nil =>
    cases h
    intro d hd
    rw [List.mem_singleton.1 hd]
    exact Std.ReflCmp.isLE_rfl
  | cons x cs ih =>
    rw [List.foldl_cons, better] at h
    rintro d hd
    split at h
    · next hx =>
      have hleast := ih h
      rcases List.mem_cons.1 hd with rfl | hd
      · exact TransCmp.isLE_trans (hleast x List.mem_cons_self)
          (by rw [Rank.before_iff.1 hx]; rfl)
      · exact hleast d hd
    · next hx =>
      have hleast := ih h
      rcases List.mem_cons.1 hd with rfl | hd
      · exact hleast d List.mem_cons_self
      rcases List.mem_cons.1 hd with rfl | hd
      · refine TransCmp.isLE_trans (hleast b List.mem_cons_self) ?_
        rw [← Std.OrientedCmp.isGE_eq_isLE, Ordering.isGE_iff_ne_lt]
        exact fun hlt => hx (Rank.before_iff.2 hlt)
      · exact hleast d (List.mem_cons_of_mem b hd)

/-- The best of all candidates comes before all of them. -/
theorem least_of_foldl_better {cs : List (Rank × α)} (h : cs.foldl better none = some c) :
    ∀ d ∈ cs, (compare c.1 d.1).isLE := by
  cases cs with
  | nil => exact nofun
  | cons b cs => exact foldl_better_least h

/-- A sample is a value of the window that is not protected, with the least rank of all these. -/
theorem least_of_sample (hc : s.sample rank count protect = some c) :
    (∃ k, (k, c.2) ∈ s.window count ∧ some k ≠ protect) ∧ c.1 = rank c.2 ∧
      ∀ k v, (k, v) ∈ s.window count → some k ≠ protect → (compare c.1 (rank v)).isLE := by
  have hfold : (((s.window count).filter fun p => some p.1 ≠ protect).map
      fun p => (rank p.2, p.2)).foldl better none = some c := by
    rw [List.foldl_map]
    exact hc
  obtain ⟨⟨k, w⟩, hkw, rfl⟩ := List.mem_map.1 (mem_of_foldl_better hfold)
  obtain ⟨hw, hp⟩ := List.mem_filter.1 hkw
  refine ⟨⟨k, hw, by simpa using hp⟩, rfl, fun j v hv hj => ?_⟩
  refine least_of_foldl_better hfold (rank v, v) (List.mem_map.2 ⟨(j, v), ?_, rfl⟩)
  exact List.mem_filter.2 ⟨hv, by simpa using hj⟩

/-- A window as long as the row shows everything. -/
theorem Lined.mem_window_of_le (h : s.Lined) (hfew : s.row.size ≤ count) {k : TileKey} {v : α}
    (hk : s.get? k = some v) : (k, v) ∈ s.window count := by
  obtain ⟨p, hp⟩ := Array.mem_iff_getElem?.1 (h.isSome_get?_iff.1 (by rw [hk]; rfl))
  obtain ⟨i, hi, hip⟩ := exists_add_mod_eq (s.hand % s.row.size)
    (Array.getElem?_eq_some_iff.1 hp).1
  refine mem_window.2 ⟨hk, p, List.mem_map.2 ⟨i, List.mem_range.2 ?_, hip⟩, hp⟩
  rwa [Nat.min_eq_right hfew]

/-- A sample of the whole row is the value with the least rank, the protected one aside. -/
theorem Lined.sample_least (h : s.Lined) (hfew : s.row.size ≤ count)
    (hc : s.sample rank count protect = some c) :
    c.1 = rank c.2 ∧ ∀ k v, s.get? k = some v → some k ≠ protect →
      (compare c.1 (rank v)).isLE :=
  have ⟨_, hrank, hleast⟩ := least_of_sample hc
  ⟨hrank, fun k v hk hp => hleast k v (h.mem_window_of_le hfew hk) hp⟩

end Shard

/-! ### Searches -/

namespace ShardedStore

variable {s : ShardedStore} {e : Entry} {rank : Entry → Rank} {protect : Option TileKey} {i : Nat}

/-- No row is longer than the list of all entries. -/
theorem Filed.size_row_le (h : s.Filed) (i : Nat) : (s.shard i).row.size ≤ s.entries.length := by
  have hsubset : (s.shard i).row.toList ⊆ s.entries.map (·.key) := by
    intro k hk
    obtain ⟨e, he⟩ := Option.isSome_iff_exists.1
      ((h.lined i).isSome_get?_iff.2 (Array.mem_toList_iff.1 hk))
    obtain rfl := h.key he
    exact List.mem_map_of_mem (h.mem_entries.2 (h.get?_of_shard he))
  simpa using (List.subperm_of_subset (h.lined i).nodup_row hsubset).length_le

theorem toList_shards (s : ShardedStore) :
    s.shards.toList = (List.range s.shards.size).map s.shard := by
  refine List.ext_getElem (by simp) fun i hi hi' => ?_
  rw [List.getElem_map, List.getElem_range, shard, ← Array.getElem?_toList,
    List.getElem?_eq_getElem hi, Option.getD_some]

/-- No more than four shards hold something, and none more than eight entries. -/
structure Few (s : ShardedStore) : Prop where
  occupied : s.shards.toList.countP (!·.isEmpty) ≤ 4
  rows : ∀ d ∈ s.shards.toList, d.row.size ≤ 8

theorem Few.size_row_le (h : s.Few) (i : Nat) : (s.shard i).row.size ≤ 8 := by
  rw [shard]
  rcases hd : s.shards[i]? with _ | d
  · exact Nat.zero_le 8
  · exact h.rows d (Array.mem_toList_iff.2 (Array.mem_of_getElem? hd))

/-- A single shard with few entries. -/
theorem Filed.few (h : s.Filed) (hone : s.shards.size = 1) (hfew : s.entries.length ≤ sampleSize) :
    s.Few where
  occupied := by
    have hcount := List.countP_le_length (p := (!·.isEmpty)) (l := s.shards.toList)
    rw [Array.length_toList, hone] at hcount
    omega
  rows d hd := by
    rw [toList_shards] at hd
    obtain ⟨i, -, rfl⟩ := List.mem_map.1 hd
    exact (h.size_row_le i).trans hfew

/-- The circuit comes to every shard once. -/
theorem Valid.circuit_perm (h : s.Valid) :
    ((List.range s.shards.size).map s.onCircuit).Perm (List.range s.shards.size) := by
  have hsubset : List.range s.shards.size ⊆ (List.range s.shards.size).map s.onCircuit := by
    intro i hi
    obtain ⟨j, hj, rfl⟩ := h.exists_onCircuit (List.mem_range.1 hi)
    exact List.mem_map_of_mem (List.mem_range.2 hj)
  refine ((List.subperm_of_subset List.nodup_range hsubset).perm_of_length_le ?_).symm
  rw [List.length_map]

/-- A search of few shards probes all that hold something. -/
theorem Valid.mem_probed (h : s.Valid) (hfew : s.Few) (hi : i < s.shards.size)
    (hfull : ¬(s.shard i).isEmpty) : i ∈ s.probed := by
  have hcount := hfew.occupied
  rw [toList_shards, List.countP_map, ← h.circuit_perm.countP_eq, List.countP_eq_length_filter]
    at hcount
  rw [probed_eq, List.take_of_length_le (by exact hcount), List.mem_filter]
  exact ⟨h.circuit_perm.mem_iff.2 (List.mem_range.2 hi), by simpa using hfull⟩

/-- A search of few shards puts forward the entry with the least rank, the protected one aside. -/
theorem Valid.pick?_least (h : s.Valid) (hfew : s.Few) (he : s.pick? rank protect = some e) :
    ∀ f ∈ s.entries, some f.key ≠ protect → (compare (rank e) (rank f)).isLE := by
  obtain ⟨c, hc, rfl⟩ := Option.map_eq_some_iff.1 he
  have hsample : ∀ {i d}, (s.shard i).sample rank sampleSize protect = some d →
      d.1 = rank d.2 ∧ ∀ k v, (s.shard i).get? k = some v → some k ≠ protect →
        (compare d.1 (rank v)).isLE := fun hd =>
    (h.filed.lined _).sample_least (hfew.size_row_le _) hd
  have hrank : c.1 = rank c.2 := by
    obtain ⟨i, -, hd⟩ := List.mem_filterMap.1 (Shard.mem_of_foldl_better hc)
    exact (hsample hd).1
  intro f hf hp
  -- the shard of `f` is probed, and its sample has a rank no greater than that of `f`
  have hget : (s.shard (s.shardOf f.key)).get? f.key = some f := h.filed.mem_entries.1 hf
  have hprobed := h.mem_probed hfew (h.filed.shardOf_lt f.key) (h.filed.not_isEmpty hget)
  rcases hd : (s.shard (s.shardOf f.key)).sample rank sampleSize protect with _ | d
  · exact absurd ((h.filed.lined _).eq_protect_of_sample (by decide) hd _ (by rw [hget]; rfl)) hp
  · let samples := s.probed.filterMap fun i => (s.shard i).sample rank sampleSize protect
    have hmem : d ∈ samples := List.mem_filterMap.2 ⟨_, hprobed, hd⟩
    rw [← hrank]
    refine TransCmp.isLE_trans ?_ ((hsample hd).2 _ f hget hp)
    exact Shard.least_of_foldl_better hc d hmem

end ShardedStore

/-! ### Schedules -/

namespace LinkedStore

variable {s : LinkedStore} {i : Nat} {protect : Option TileKey}

/-- What the schedule comes to first has the least turn, the protected entry aside. -/
theorem Valid.cheapest?_least (h : s.Valid) (hi : s.cheapest? protect = some i) :
    ∃ r, s.recency.get? i = some r ∧ some r.entry.key ≠ protect ∧
      ∀ j r', s.recency.get? j = some r' → some r'.entry.key ≠ protect →
        (compare r.turn r'.turn).isLE := by
  obtain ⟨r, hr, hp⟩ := exists_of_cheapest? hi
  refine ⟨r, hr, hp, fun j r' hj hp' => ?_⟩
  rw [cheapest?, Schedule.find?_eq, List.find?_map, Option.map_eq_some_iff] at hi
  obtain ⟨⟨t, i⟩, hfind, rfl⟩ := hi
  obtain ⟨-, before, after, hsplit, hbefore⟩ := List.find?_eq_some_iff_append.1 hfind
  have hsorted := hsplit ▸ TreeMap.ordered_keys_toList (t := s.schedule)
  have hturn : r.turn = t := by
    have hmem : (t, i) ∈ s.schedule.toList := hsplit ▸ List.mem_append_right _ List.mem_cons_self
    obtain ⟨_, hr', ht⟩ := (h.schedule t i).1 (TreeMap.mem_toList_iff_getElem?_eq_some.1 hmem)
    rw [← ht, Option.some.inj (hr.symm.trans hr')]
  have hmem' : (r'.turn, j) ∈ before ++ (t, i) :: after :=
    hsplit ▸ TreeMap.mem_toList_iff_getElem?_eq_some.2 (h.schedule.getElem? hj)
  rcases List.mem_append.1 hmem' with hm | hm
  · -- what comes before is protected
    have hpass := unprotected_iff.2 ⟨r', hj, hp'⟩
    have := hbefore _ hm
    simp [hpass] at this
  · rcases List.mem_cons.1 hm with heq | hm
    · rw [hturn, show r'.turn = t from congrArg Prod.fst heq]
      exact Std.ReflCmp.isLE_rfl
    · have hlt := (List.pairwise_cons.1 (List.pairwise_append.1 hsorted).2.1).1 _ hm
      rw [hturn, hlt]
      rfl

end LinkedStore

end TileStore
