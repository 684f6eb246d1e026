import TileStore.Shard
import TileStore.Proofs.Circuit
import Mathlib.Data.List.Nodup

/-!
# The row of a shard

The table of a shard and its row must agree on where each key stands: `Lined`. Writing and removing
keep them so, and then a shard shows each of its values once. A sample looks at distinct places of the
row, so it comes back empty-handed only if nothing but the protected key is there:
`eq_protect_of_sample`.
-/

namespace TileStore.Shard

open Std (TreeMap)

variable {α : Type} {s : Shard α} {k : TileKey} {v : α} {i : Nat}

/-- Where a key stands, as the table says. -/
def place? (s : Shard α) (k : TileKey) : Option Nat := s.table[k]?.map (·.1)

/-- The table and the row agree. -/
def Lined (s : Shard α) : Prop := ∀ k i, s.place? k = some i ↔ s.row[i]? = some k

theorem isSome_get? (s : Shard α) (k : TileKey) : (s.get? k).isSome = (s.place? k).isSome := by
  rw [get?, place?, Option.isSome_map, Option.isSome_map]

theorem place?_insert (s : Shard α) (k j : TileKey) (v : α) :
    (s.insert k v).place? j = if j = k then some ((s.place? k).getD s.row.size) else s.place? j := by
  unfold insert place?
  split <;> simp only [TreeMap.getElem?_insert, Std.compare_eq_iff_eq, eq_comm (a := k)] <;>
    split <;> simp [*]

namespace Lined

theorem empty : Lined ({} : Shard α) := fun k i => by simp [place?]

theorem isSome_get?_iff (h : s.Lined) : (s.get? k).isSome ↔ k ∈ s.row := by
  rw [isSome_get?, Option.isSome_iff_exists, Array.mem_iff_getElem?]
  exact exists_congr fun i => h k i

/-- No key stands in two places. -/
theorem inj {j : Nat} (h : s.Lined) (hi : s.row[i]? = some k) (hj : s.row[j]? = some k) : i = j := by
  have hp := (h k i).2 hi
  rw [(h k j).2 hj] at hp
  exact (Option.some.inj hp).symm

theorem nodup_row (h : s.Lined) : s.row.toList.Nodup := by
  rw [List.nodup_iff_injective_get]
  intro i j hij
  apply Fin.ext
  refine h.inj (k := s.row.toList.get i) ?_ ?_
  · rw [← Array.getElem?_toList, List.get_eq_getElem]
    exact List.getElem?_eq_getElem i.2
  · rw [hij, ← Array.getElem?_toList, List.get_eq_getElem]
    exact List.getElem?_eq_getElem j.2

theorem insert (h : s.Lined) (k : TileKey) (v : α) : (s.insert k v).Lined := by
  intro j i
  rw [place?_insert, Shard.insert]
  rcases ht : s.table[k]? with _ | ⟨p, w⟩
  · have hplace : s.place? k = none := by rw [place?, ht, Option.map_none]
    have hout : s.place? j ≠ some s.row.size := fun hp => by
      have := (h j _).1 hp
      simp at this
    rw [hplace, Array.getElem?_push, Option.getD_none]
    by_cases hi : i = s.row.size
    · subst hi
      by_cases hj : j = k
      · simp [hj]
      · simp [hj, hout, Ne.symm hj]
    · rw [if_neg hi, ← h j i]
      by_cases hj : j = k
      · simp [hj, hplace, Ne.symm hi]
      · rw [if_neg hj]
  · have hplace : s.place? k = some p := by rw [place?, ht, Option.map_some]
    rw [← h j i, hplace]
    by_cases hj : j = k
    · simp [hj, hplace]
    · rw [if_neg hj]

section Erase

variable {p : Nat} {last : TileKey}

theorem erase_eq (hk : s.place? k = some p) (hl : s.row.back? = some last) :
    s.erase k = { s with
      table := (s.table.modify last fun q => (p, q.2)).erase k
      row := (s.row.setIfInBounds p last).pop } := by
  obtain ⟨⟨q, w⟩, hq, rfl⟩ := Option.map_eq_some_iff.1 hk
  simp [Shard.erase, hq, hl]

/-- The last key stands where the removed one did. -/
theorem place?_erase (h : s.Lined) (hk : s.place? k = some p) (hl : s.row.back? = some last)
    (j : TileKey) :
    (s.erase k).place? j = if j = k then none else if j = last then some p else s.place? j := by
  have hlast : s.place? last = some (s.row.size - 1) := (h last _).2 hl
  obtain ⟨⟨q, x⟩, hx, -⟩ := Option.map_eq_some_iff.1 hlast
  rw [erase_eq hk hl, place?]
  simp only [TreeMap.getElem?_erase, TreeMap.getElem?_modify, Std.compare_eq_iff_eq,
    eq_comm (b := j)]
  split
  · rfl
  · split
    · rw [hx]
      rfl
    · rfl

theorem row_erase (h : s.Lined) (hk : s.place? k = some p) (hl : s.row.back? = some last) (i : Nat) :
    (s.erase k).row[i]? =
      if i < s.row.size - 1 then if i = p then some last else s.row[i]? else none := by
  have hlt : p < s.row.size := (Array.getElem?_eq_some_iff.1 ((h k p).1 hk)).1
  rw [erase_eq hk hl, Array.getElem?_pop, Array.size_setIfInBounds, Array.getElem?_setIfInBounds]
  simp only [hlt, if_true, eq_comm (a := p)]

/-- In the row, too, the last key stands where the removed one did, and nothing else has changed. -/
theorem row_erase_eq_some_iff (h : s.Lined) (hk : s.place? k = some p)
    (hl : s.row.back? = some last) (i : Nat) (j : TileKey) :
    (s.erase k).row[i]? = some j ↔ j ≠ k ∧ if j = last then p = i else s.row[i]? = some j := by
  have hp : s.row[p]? = some k := (h k p).1 hk
  have hlt : p < s.row.size := (Array.getElem?_eq_some_iff.1 hp).1
  have hlast : s.row[s.row.size - 1]? = some last := hl
  rw [row_erase h hk hl]
  constructor
  · intro hi
    split at hi
    case isFalse => cases hi
    case isTrue hin =>
      split at hi
      · next hip =>
        obtain rfl := Option.some.inj hi
        refine ⟨fun hjk => ?_, by rw [if_pos rfl, hip]⟩
        have := h.inj (hjk ▸ hlast) hp
        omega
      · next hip =>
        refine ⟨fun hjk => hip (h.inj hi (hjk ▸ hp)), ?_⟩
        rw [if_neg]
        · exact hi
        · rintro rfl
          have := h.inj hi hlast
          omega
  · rintro ⟨hjk, hi⟩
    split at hi
    · next hjl =>
      subst hjl hi
      have hpl : p ≠ s.row.size - 1 := fun hpl => hjk (Option.some.inj (hlast.symm.trans (hpl ▸ hp)))
      rw [if_pos (by omega), if_pos rfl]
    · next hjl =>
      have hlti : i < s.row.size := (Array.getElem?_eq_some_iff.1 hi).1
      have hil : i ≠ s.row.size - 1 := fun hil => hjl (Option.some.inj (hi.symm.trans (hil ▸ hlast)))
      have hip : i ≠ p := fun hip => hjk (Option.some.inj (hi.symm.trans (hip ▸ hp)))
      rwa [if_pos (by omega), if_neg hip]

end Erase

theorem erase (h : s.Lined) (k : TileKey) : (s.erase k).Lined := by
  intro j i
  cases hk : s.place? k with
  | none =>
    have ht : s.table[k]? = none := Option.map_eq_none_iff.1 hk
    have herase : s.erase k = { s with table := s.table.erase k } := by simp [Shard.erase, ht]
    rw [herase, ← h j i, place?, TreeMap.getElem?_erase]
    simp only [Std.compare_eq_iff_eq]
    by_cases hj : k = j
    · simp [← hj, hk]
    · rw [if_neg hj, place?]
  | some p =>
    have hlt : p < s.row.size := (Array.getElem?_eq_some_iff.1 ((h k p).1 hk)).1
    obtain ⟨last, hl⟩ : ∃ last, s.row.back? = some last :=
      ⟨_, Array.getElem?_eq_getElem (Nat.sub_one_lt_of_lt hlt)⟩
    rw [row_erase_eq_some_iff h hk hl, place?_erase h hk hl, ← h j i]
    by_cases hjk : j = k
    · simp [hjk]
    · rw [if_neg hjk, and_iff_right hjk]
      split
      · rw [Option.some.injEq]
      · rfl

end Lined

/-! ### Values -/

theorem Lined.mem_values (h : s.Lined) : v ∈ s.values ↔ ∃ k, s.get? k = some v := by
  rw [values, List.mem_filterMap]
  refine exists_congr fun k => and_iff_right_of_imp fun hk => ?_
  rw [Array.mem_toList_iff, ← h.isSome_get?_iff, hk]
  rfl

theorem Lined.nodup_values (h : s.Lined)
    (hv : ∀ j k v, s.get? j = some v → s.get? k = some v → j = k) : s.values.Nodup :=
  h.nodup_row.filterMap fun j k v hj hk => hv j k v hj hk

/-! ### Samples -/

theorem foldl_better_some (cs : List (Rank × α)) (b : Rank × α) :
    ∃ c, cs.foldl better (some b) = some c ∧ c ∈ b :: cs := by
  induction cs generalizing b with
  | nil => exact ⟨b, rfl, List.mem_cons_self⟩
  | cons d cs ih =>
    rw [List.foldl_cons, better]
    split
    · obtain ⟨c, hc, hm⟩ := ih d
      exact ⟨c, hc, List.mem_cons_of_mem b hm⟩
    · obtain ⟨c, hc, hm⟩ := ih b
      refine ⟨c, hc, ?_⟩
      rcases List.mem_cons.1 hm with rfl | hm
      · exact List.mem_cons_self
      · exact List.mem_cons_of_mem b (List.mem_cons_of_mem d hm)

/-- The best of some candidates is one of them. -/
theorem mem_of_foldl_better {cs : List (Rank × α)} {c : Rank × α}
    (h : cs.foldl better none = some c) : c ∈ cs := by
  cases cs with
  | nil => cases h
  | cons b cs =>
    obtain ⟨c', hc', hm⟩ := foldl_better_some cs b
    rw [List.foldl_cons, better, hc'] at h
    exact Option.some.inj h ▸ hm

/-- There is a best candidate unless there is none at all. -/
theorem foldl_better_eq_none_iff {cs : List (Rank × α)} : cs.foldl better none = none ↔ cs = [] := by
  cases cs with
  | nil => simp
  | cons b cs =>
    obtain ⟨c, hc, -⟩ := foldl_better_some cs b
    simp [better, hc]

/-- A window shows the values under the keys at distinct places. -/
theorem mem_window {count : Nat} : (k, v) ∈ s.window count ↔ s.get? k = some v ∧
    ∃ p ∈ (List.range (min count s.row.size)).map fun i => (s.hand % s.row.size + i) % s.row.size,
      s.row[p]? = some k := by
  simp only [window, List.mem_filterMap, List.mem_map, List.mem_range, Option.bind_eq_some_iff,
    Option.map_eq_some_iff, Prod.mk.injEq]
  constructor
  · rintro ⟨i, hi, j, hj, w, hw, rfl, rfl⟩
    exact ⟨hw, _, ⟨i, hi, rfl⟩, hj⟩
  · rintro ⟨hv, _, ⟨i, hi, rfl⟩, hk⟩
    exact ⟨i, hi, k, hk, v, hv, rfl, rfl⟩

theorem length_window_le (s : Shard α) (count : Nat) : (s.window count).length ≤ count := by
  refine (List.length_filterMap_le _ _).trans ?_
  rw [List.length_range]
  exact Nat.min_le_left _ _

/-- A sample finds nothing if the protected key is all there is to see. -/
theorem sample_eq_none_iff {rank : α → Rank} {count : Nat} {protect : Option TileKey} :
    s.sample rank count protect = none ↔ ∀ k v, (k, v) ∈ s.window count → some k = protect := by
  have hfold : s.sample rank count protect = (((s.window count).filter fun p => some p.1 ≠ protect).map
      fun p => (rank p.2, p.2)).foldl better none := (List.foldl_map ..).symm
  rw [hfold, foldl_better_eq_none_iff, List.map_eq_nil_iff, List.filter_eq_nil_iff, Prod.forall]
  simp

theorem exists_of_sample {rank : α → Rank} {count : Nat} {protect : Option TileKey}
    {c : Rank × α} (h : s.sample rank count protect = some c) :
    ∃ k, s.get? k = some c.2 ∧ some k ≠ protect := by
  have hfold : (((s.window count).filter fun p => some p.1 ≠ protect).map
      fun p => (rank p.2, p.2)).foldl better none = some c := by
    rw [List.foldl_map]
    exact h
  obtain ⟨⟨k, v⟩, hkv, rfl⟩ := List.mem_map.1 (mem_of_foldl_better hfold)
  obtain ⟨hw, hp⟩ := List.mem_filter.1 hkv
  exact ⟨k, (mem_window.1 hw).1, by simpa using hp⟩

/-- Two places are enough: one of them is not protected unless the row is as short as the window. -/
theorem Lined.eq_protect_of_sample {rank : α → Rank} {count : Nat} {protect : Option TileKey}
    (h : s.Lined) (hcount : 2 ≤ count) (hnone : s.sample rank count protect = none) :
    ∀ k, (s.get? k).isSome → some k = protect := by
  have hall := sample_eq_none_iff.1 hnone
  have hplace : ∀ i < min count s.row.size, ∃ k,
      s.row[(s.hand % s.row.size + i) % s.row.size]? = some k ∧ some k = protect := by
    intro i hi
    have hlt : (s.hand % s.row.size + i) % s.row.size < s.row.size := Nat.mod_lt _ (by omega)
    refine ⟨_, Array.getElem?_eq_getElem hlt, ?_⟩
    have hsome := h.isSome_get?_iff.2 (Array.getElem_mem hlt)
    obtain ⟨v, hv⟩ := Option.isSome_iff_exists.1 hsome
    exact hall _ v (mem_window.2 ⟨hv, _, List.mem_map.2 ⟨i, List.mem_range.2 hi, rfl⟩,
      Array.getElem?_eq_getElem hlt⟩)
  have hshort : s.row.size ≤ 1 := by
    by_contra hlong
    obtain ⟨j, hj, hjp⟩ := hplace 0 (by omega)
    obtain ⟨k, hk, hkp⟩ := hplace 1 (by omega)
    obtain rfl : j = k := Option.some.inj (hjp.trans hkp.symm)
    have := eq_of_add_mod_eq (by omega) (by omega) (h.inj hj hk)
    omega
  intro k hk
  obtain ⟨p, hp⟩ := Array.mem_iff_getElem?.1 (h.isSome_get?_iff.1 hk)
  have hlt : p < s.row.size := (Array.getElem?_eq_some_iff.1 hp).1
  obtain ⟨j, hj, hjp⟩ := hplace 0 (by omega)
  have hzero : (s.hand % s.row.size + 0) % s.row.size = p := by
    have := Nat.mod_lt (s.hand % s.row.size + 0) (show 0 < s.row.size by omega)
    omega
  rw [hzero, hp] at hj
  exact Option.some.inj hj ▸ hjp

end TileStore.Shard
