import TileStore.Proofs.Linked.Cache
import TileStore.Proofs.PlainList
import TileStore.Proofs.Upkeep

/-!
# Slots last

An entry stays in its slot until it goes, and no slot is ever taken away but by a flush: whatever is
done to a linked store between two sweeps, it `Waits`. The next sweep starts where the last one stopped,
over as many slots or more, and whoever it finds there was there before or has been made meanwhile.
-/

namespace TileStore

open Vault Mutation

/-! ### Values stay in their nodes -/

namespace Recency

variable {α : Type}

theorem get?_moveToFront (i : Nat) (l : Recency α) :
    (moveToFront i).Meets l False fun _ l' => ∀ j, l'.get? j = l.get? j := by
  unfold moveToFront
  simp only [meets_bind, meets_get]
  split
  · exact fun _ => rfl
  · split
    · exact fun j => (get?_linkFront (l.unlink i) i j).trans (get?_unlink l i j)
    · exact id

theorem get?_replace (i : Nat) (v : α) (l : Recency α) :
    (replace i v).Meets l False fun _ l' =>
      ∀ j, l'.get? j = if j = i then some v else l.get? j := by
  unfold replace
  simp only [meets_bind, meets_get]
  split
  · exact id
  · next n hn =>
    simp only [meets_bind, meets_set]
    split
    · exact id
    · refine meets_bind.2 ((get?_moveToFront i _).imp fun _ l' hl' j => ?_)
      rw [hl', get?, nodes_edit]
      split
      · next hj => rw [hj, hn]; rfl
      · rfl

theorem get?_remove (i : Nat) (l : Recency α) :
    (remove i).Meets l False fun _ l' => ∀ j v, l'.get? j = some v → l.get? j = some v := by
  unfold remove
  simp only [meets_bind, meets_get]
  split
  · exact id
  · split
    · exact id
    · intro j v hj
      have hlinks := get?_edit (((l.emptied i).unlink i)) i j (f := fun n => { n with next := l.free })
        fun _ => rfl
      have hj := (hlinks.trans (get?_unlink (l.emptied i) i j)).symm.trans hj
      rw [emptied, get?, nodes_edit] at hj
      split at hj
      · cases hn : l.nodes[j]? <;> simp [hn] at hj
      · exact hj

theorem get?_assign (l : Recency α) (i : Nat) (v : α) (j : Nat) :
    (l.assign i v).get? j = if j = i then (l.get? j).map fun _ => v else l.get? j := by
  rw [assign, get?, nodes_edit, get?]
  split
  · cases l.nodes[j]? <;> rfl
  · rfl

theorem get?_of_get?_push {l : Recency α} {v w : α} {j : Nat} (h : (l.push v).2.get? j = some w) :
    w = v ∨ l.get? j = some w := by
  unfold push at h
  cases hf : l.free with
  | none =>
    simp only [hf] at h
    replace h := (get?_linkFront _ _ _).symm.trans h
    rw [get?, Array.getElem?_push] at h
    split at h
    · exact .inl (Option.some.inj h).symm
    · exact .inr h
  | some i =>
    simp only [hf] at h
    replace h := (get?_linkFront _ _ _).symm.trans h
    rw [get?, Array.getElem?_setIfInBounds] at h
    split at h
    · split at h
      · exact .inl (Option.some.inj h).symm
      · cases h
    · exact .inr h

theorem slots_le_push (l : Recency α) (v : α) : l.slots ≤ (l.push v).2.slots := by
  unfold push
  cases hf : l.free with
  | none =>
    refine (Nat.le_succ l.slots).trans (Nat.le_of_eq ?_)
    refine .trans ?_ (slots_linkFront _ _).symm
    exact (Array.size_push _).symm
  | some i =>
    refine Nat.le_of_eq (.trans ?_ (slots_linkFront _ _).symm)
    exact Array.size_setIfInBounds.symm

end Recency

/-! ### Between sweeps -/

namespace LinkedStore

variable {s s' s'' : LinkedStore} {n n' m m' : Nat} {e : Entry}

/-- Nothing that was done takes a slot away or changes where the next sweep starts, and what is in a
slot was in it before or was made meanwhile, under a number from `n` on. -/
structure Waits (n n' : Nat) (s s' : LinkedStore) : Prop where
  sweep : s'.sweep = s.sweep
  slots : s.recency.slots ≤ s'.recency.slots
  kept : ∀ i e, s'.entryAt? i = some e → s.entryAt? i = some e ∨ n ≤ e.seq ∧ e.seq < n'

namespace Waits

theorem refl (n n' : Nat) (s : LinkedStore) : Waits n n' s s := ⟨rfl, le_rfl, fun _ _ => .inl⟩

theorem trans (h : Waits n n' s s') (h' : Waits n n' s' s'') : Waits n n' s s'' where
  sweep := h'.sweep.trans h.sweep
  slots := h.slots.trans h'.slots
  kept i e hi := (h'.kept i e hi).elim (h.kept i e) .inr

theorem mono (h : Waits n n' s s') (hn : m ≤ n) (hn' : n' ≤ m') : Waits m m' s s' :=
  ⟨h.sweep, h.slots, fun i e hi =>
    (h.kept i e hi).imp_right fun ⟨hle, hlt⟩ => ⟨hn.trans hle, hlt.trans_le hn'⟩⟩

end Waits

/-- Every entry is in a slot. -/
theorem Valid.exists_slot (h : s.Valid) (he : e ∈ s.entries) :
    ∃ slot < s.recency.slots, s.entryAt? slot = some e := by
  obtain ⟨slot, r, hr, rfl⟩ := h.mem_entries.1 he
  refine ⟨slot, ?_, Option.map_eq_some_iff.2 ⟨r, hr, rfl⟩⟩
  by_contra hle
  rw [Recency.get?_eq_none_of_le (Nat.le_of_not_lt hle)] at hr
  cases hr

/-- The entries have numbers below `n`. -/
def Below (n : Nat) (s : LinkedStore) : Prop := ∀ i e, s.entryAt? i = some e → e.seq < n

theorem Below.waits (h : s.Below n) (hn : n ≤ n') (hw : Waits n n' s s') : s'.Below n' := fun i e hi =>
  (hw.kept i e hi).elim (fun hi => (h i e hi).trans_le hn) (·.2)

theorem waits_insert (hle : n ≤ e.seq) (hlt : e.seq < n') (s : LinkedStore) :
    (insert e).Meets s False fun _ s' => Waits n n' s s' := by
  unfold insert
  simp only [meets_bind, meets_modify, meets_get]
  split
  · next i hi =>
    simp only [meets_bind, inRecency, meets_within]
    refine ((Recency.get?_replace i _ _).and (Recency.slots_replace i _ _)).imp ?_
    rintro old l ⟨hget, hslots⟩
    refine ⟨rfl, hslots.ge, fun j f hj => ?_⟩
    change (l.get? j).map _ = _ at hj
    rw [hget] at hj
    split at hj
    · cases hj
      exact .inr ⟨hle, hlt⟩
    · exact .inl hj
  · refine ⟨rfl, Recency.slots_le_push _ _, fun j f hj => ?_⟩
    obtain ⟨r, hr, rfl⟩ := Option.map_eq_some_iff.1 hj
    rcases Recency.get?_of_get?_push hr with rfl | hr
    · exact .inr ⟨hle, hlt⟩
    · exact .inl (Option.map_eq_some_iff.2 ⟨r, hr, rfl⟩)

theorem waits_use (n n' : Nat) (k : TileKey) (s : LinkedStore) :
    (use k).Meets s False fun _ s' => Waits n n' s s' := by
  unfold use
  simp only [meets_bind, meets_get]
  split
  · exact .refl n n' s
  · next i hi =>
    simp only [meets_bind, inRecency, meets_within]
    refine ((Recency.get?_moveToFront i _).and (Recency.slots_moveToFront i _)).imp ?_
    rintro _ l ⟨hget, hslots⟩
    simp only [meets_modify, meets_get]
    split
    · exact id
    · next r hr =>
      refine ⟨rfl, hslots.ge.trans (Recency.slots_edit l i _).ge, fun j f hj => .inl ?_⟩
      change ((l.assign i _).get? j).map _ = _ at hj
      rw [Recency.get?_assign] at hj
      rw [entryAt?, ← hget]
      split at hj
      · next hji =>
        rw [hji, hr] at hj
        rw [hji, hr]
        exact hj
      · exact hj

theorem waits_removeSlot (n n' i : Nat) (s : LinkedStore) :
    (removeSlot i).Meets s False fun _ s' => Waits n n' s s' := by
  unfold removeSlot
  simp only [meets_bind, inRecency, meets_within]
  refine ((Recency.get?_remove i _).and (Recency.slots_remove i _)).imp ?_
  rintro r l ⟨hget, hslots⟩
  simp only [meets_get, meets_set]
  split
  · exact id
  split
  · exact id
  split
  · exact id
  refine ⟨rfl, hslots.ge, fun j f hj => .inl ?_⟩
  obtain ⟨r', hr', rfl⟩ := Option.map_eq_some_iff.1 hj
  exact Option.map_eq_some_iff.2 ⟨r', hget j r' hr', rfl⟩

theorem waits_remove (n n' : Nat) (k : TileKey) (s : LinkedStore) :
    (remove k).Meets s False fun _ s' => Waits n n' s s' := by
  unfold remove
  simp only [meets_bind, meets_get]
  split
  · exact .refl n n' s
  · exact meets_bind.2 (waits_removeSlot n n' _ s)

end LinkedStore

/-! ### Computations without passes -/

namespace Linked

open LinkedStore (Waits)

variable {s : LinkedStore} {n n' : Nat} {e : Entry}

theorem keepsStore_waits {α : Type} {f : Mutation LinkedStore α}
    (hf : ∀ s', f.Meets s' False fun _ s'' => Waits n n' s' s'') :
    KeepsStore (Waits n n' s) (inStore f) :=
  keepsStore_inStore fun s' h => (hf s').imp fun _ _ h' => h.trans h'

theorem waits_put (hle : n ≤ e.seq) (hlt : e.seq < n') : KeepsStore (Waits n n' s) (put e) := by
  refine (keepsStore_waits (LinkedStore.waits_insert hle hlt)).bind fun replaced => ?_
  have hrest := (keepsStore_account (P := Waits n n' s) (some e) replaced).bind
    fun _ => keepsStore_pure replaced.isSome
  split
  · exact (keepsStore_mark e .updated).bind fun _ => hrest
  · exact hrest

theorem put_waits (e : Entry) (v : Linked) :
    (put e).Meets v False fun _ w => Waits e.seq (e.seq + 1) v.store w.store :=
  waits_put le_rfl (Nat.lt_succ_self _) v (.refl _ _ _)

theorem waits_evictSlot (n n' i : Nat) : KeepsStore (Waits n n' s) (evictSlot i) :=
  (keepsStore_waits (LinkedStore.waits_removeSlot n n' i)).bind fun e =>
    (keepsStore_account none (some e)).bind fun _ =>
      (keepsStore_mark e .evicted).bind fun _ => keepsStore_pure e

theorem waits_evictListed (n n' : Nat) (target : UInt64) (slots : List Nat) :
    KeepsStore (Waits n n' s) (evictListed target slots) := by
  induction slots with
  | nil => exact keepsStore_pure []
  | cons i slots ih =>
    refine keepsStore_get fun v h => ?_
    split
    · exact h
    · exact ((waits_evictSlot n n' i).bind fun e => ih.bind fun es => keepsStore_pure _) v h

theorem waits_evictScheduled (n n' : Nat) (target : UInt64) (protect : Option TileKey) (fuel : Nat) :
    KeepsStore (Waits n n' s) (evictScheduled target protect fuel) := by
  induction fuel with
  | zero => exact keepsStore_pure []
  | succ fuel ih =>
    refine keepsStore_get fun v h => ?_
    split
    · exact h
    · split
      · exact h
      · exact ((waits_evictSlot n n' _).bind fun e => ih.bind fun es => keepsStore_pure _) v h

/-- A pass above its target takes the sweep on, and evicts. -/
theorem evict_waits (n n' : Nat) (m : Moment) (protect : Option TileKey) {v : Linked}
    (h : v.ledger.target < v.ledger.memoryUsed) :
    (evict m protect).Meets v False fun _ v' =>
      Waits n n' (v.store.advanceSweep sweepBudget) v'.store := by
  unfold evict
  rw [meets_bind, meets_get]
  dsimp only
  rw [if_neg (UInt64.not_le.2 h), meets_bind, meets_set]
  refine ((waits_evictListed n n' _ _).bind fun swept => keepsStore_get fun w hw => ?_) _ (.refl n n' _)
  exact ((waits_evictScheduled n n' _ _ _).bind fun scheduled =>
    keepsStore_get fun _ => id) w hw

theorem waits_find (n n' : Nat) (m : Moment) (k : TileKey) :
    KeepsStore (Waits n n' s) (find m k) := by
  refine (keepsStore_waits (LinkedStore.waits_use n n' k)).bind fun found => ?_
  cases found with
  | none => exact keepsStore_pure none
  | some e => exact (keepsStore_touch e m.now).bind fun _ => keepsStore_pure (some e)

theorem waits_get? (n n' : Nat) (m : Moment) (k : TileKey) :
    KeepsStore (Waits n n' s) (get? m k) :=
  (waits_find n n' m k).bind fun found =>
    (keepsStore_count _).bind fun _ => keepsStore_pure found

theorem waits_getAll (n n' : Nat) (m : Moment) (ks : List TileKey) :
    KeepsStore (Waits n n' s) (getAll m ks) :=
  (KeepsStore.mapM (waits_find n n' m) ks).bind fun found =>
    (KeepsStore.forM (fun _ => keepsStore_count _) found).bind fun _ =>
      keepsStore_pure found

theorem waits_discharge (n n' : Nat) (e : Entry) : KeepsStore (Waits n n' s) (discharge e) :=
  (keepsStore_account none (some e)).bind fun _ => keepsStore_pure e

theorem waits_remove (n n' : Nat) (k : TileKey) : KeepsStore (Waits n n' s) (remove k) := by
  refine (keepsStore_waits (LinkedStore.waits_remove n n' k)).bind fun found => ?_
  cases found with
  | none => exact keepsStore_pure _
  | some e =>
    exact (waits_discharge n n' e).bind fun e => (keepsStore_dismiss [e]).bind fun _ =>
      keepsStore_pure _

theorem waits_removeImage (n n' : Nat) (image : Identity) :
    KeepsStore (Waits n n' s) (removeImage image) := by
  refine keepsStore_get fun v h => ?_
  refine ((KeepsStore.mapM (fun k => ?_) _).bind fun es => (keepsStore_dismiss es).bind fun _ =>
    keepsStore_pure _) v h
  refine (keepsStore_waits (LinkedStore.waits_remove n n' k)).bind fun found => ?_
  cases found with
  | none => exact keepsStore_throw .missingTile
  | some e => exact waits_discharge n n' e

end Linked

end TileStore
