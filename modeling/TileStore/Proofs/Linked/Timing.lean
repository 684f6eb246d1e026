import TileStore.Proofs.Discharge
import TileStore.Proofs.Victims

/-!
# Times follow ticks

A turn has a tick, which moves on with every use, and a rank has the time of the last use. While the
clock moves on from one use to the next, the times of the entries increase along the recency list
just as the ticks do: `Timed`. Then, while all owners exist, ranks and turns are in the same order:
`compare_rank`.
-/

namespace TileStore

open Std (OrientedCmp)

/-! ### Costs -/

/-- Numbers without a sign are in the order of their patterns. -/
theorem Binary64.totalCompare_of_nonneg {x y : Binary64} (hx : x.isNegative = false)
    (hy : y.isNegative = false) : x.totalCompare y = compare x.bits y.bits := by
  have hplace : ∀ z : Binary64, z.isNegative = false → z.place = (z.bits.toNat : Int) := by
    intro z hz
    have hlt : z.bits.toNat < signBit := by
      rw [isNegative, decide_eq_false_iff_not] at hz
      omega
    rw [place, hz, magnitude, Nat.mod_eq_of_lt hlt]
    rfl
  rw [totalCompare, hplace x hx, hplace y hy]
  rcases lt_trichotomy x.bits.toNat y.bits.toNat with h | h | h
  · rw [Std.compare_eq_lt.2 (UInt64.lt_iff_toNat_lt.2 h), Std.compare_eq_lt.2 (Int.ofNat_lt.2 h)]
  · rw [UInt64.toNat_inj.1 h]
    simp
  · rw [Std.compare_eq_gt.2 (UInt64.lt_iff_toNat_lt.2 h), Std.compare_eq_gt.2 (Int.ofNat_lt.2 h)]

/-- What an entry keeps of its cost has no sign. -/
theorem isNegative_keptCost (cost : Option Binary64) :
    ((keptCost cost).getD .zero).isNegative = false := by
  unfold keptCost
  generalize cost.filter _ = kept
  rcases kept with _ | c
  · rfl
  · rw [Option.map_some, Option.getD_some]
    split
    · next h => simp_all [Binary64.isPositive]
    · rfl

/-! ### Times -/

namespace Register

variable {r : Register} {seq i now : Nat}

theorem lastAccess_mark (r : Register) (seq i : Nat) (a : Action) :
    ((r.mark seq a).status i).lastAccess = (r.status i).lastAccess := by
  unfold status mark
  rw [Array.getElem?_modify]
  split
  · cases r.statuses[i]? <;> rfl
  · rfl

theorem lastAccess_markAll (r : Register) (a : Action) (es : List Entry) (i : Nat) :
    ((r.markAll a es).status i).lastAccess = (r.status i).lastAccess := by
  induction es generalizing r with
  | nil => rfl
  | cons e es ih => exact (ih _).trans (r.lastAccess_mark e.seq i a)

end Register

namespace Linked

variable {v v' : Linked} {limit now : Nat} {e f : Entry}

/-- The times of the last uses increase along the recency list and lie below a limit. -/
structure Timed (limit : Nat) (v : Linked) : Prop where
  nextSeq : v.ledger.nextSeq = v.register.size
  seq_lt : ∀ e ∈ v.entries, e.seq < v.register.size
  lt_limit : ∀ e ∈ v.entries, (v.status e).lastAccess < limit
  increasing : (v.entries.map fun e => (v.status e).lastAccess).Pairwise (· < ·)
  nonneg : ∀ e ∈ v.entries, (e.cost.getD .zero).isNegative = false

namespace Timed

theorem mono {limit' : Nat} (h : v.Timed limit) (hle : limit ≤ limit') : v.Timed limit' :=
  ⟨h.nextSeq, h.seq_lt, fun e he => (h.lt_limit e he).trans_le hle, h.increasing, h.nonneg⟩

/-- Different entries have different statuses. -/
theorem seq_ne (h : v.Timed limit) (he : e ∈ v.entries) (hf : f ∈ v.entries) (hne : e ≠ f) :
    e.seq ≠ f.seq := by
  intro hseq
  refine hne (List.inj_on_of_nodup_map (h.increasing.imp Nat.ne_of_lt) he hf ?_)
  simp only [Vault.status, hseq]

/-- Some of the entries are left, with their times. -/
theorem left (h : v.Timed limit) (hs : v'.entries.Sublist v.entries)
    (hnext : v'.ledger.nextSeq = v.ledger.nextSeq) (hsize : v'.register.size = v.register.size)
    (htime : ∀ e ∈ v.entries, (v'.status e).lastAccess = (v.status e).lastAccess) :
    v'.Timed limit where
  nextSeq := by rw [hnext, hsize, h.nextSeq]
  seq_lt e he := hsize ▸ h.seq_lt e (hs.mem he)
  lt_limit e he := htime e (hs.mem he) ▸ h.lt_limit e (hs.mem he)
  increasing := by
    rw [List.map_congr_left fun e he => htime e (hs.mem he)]
    exact h.increasing.sublist (hs.map _)
  nonneg e he := h.nonneg e (hs.mem he)

/-- Some of the entries are left, and what happened to others is noted. -/
theorem marked {a : Action} {es : List Entry} (h : v.Timed limit)
    (hs : v'.entries.Sublist v.entries) (hr : v.ledger.Recharged v'.ledger)
    (hm : v'.register = v.register.markAll a es) : v'.Timed limit := by
  refine h.left hs (by rw [hr]) (by rw [hm, Register.size_markAll]) fun e _ => ?_
  rw [Vault.status, hm, Register.lastAccess_markAll, Vault.status]

/-- The next entry is made, but not yet written. -/
theorem entered (h : v.Timed limit) (hs : v'.store = v.store)
    (hnext : v'.ledger.nextSeq = v.ledger.nextSeq + 1)
    (hregister : v'.register = v.register.enter now) : v'.Timed limit := by
  have hentries : v'.entries = v.entries := congrArg Shelved.entries hs
  have hsize : v'.register.size = v.register.size + 1 := hregister ▸ Register.size_enter _ _
  have hstatus : ∀ e ∈ v.entries, v'.status e = v.status e := by
    intro e he
    rw [Vault.status, hregister, Register.status_enter, if_neg (h.seq_lt e he).ne, Vault.status]
  refine ⟨by rw [hnext, hsize, h.nextSeq], ?_, ?_, ?_, ?_⟩ <;> rw [hentries]
  · exact fun e he => hsize ▸ Nat.lt_succ_of_lt (h.seq_lt e he)
  · exact fun e he => hstatus e he ▸ h.lt_limit e he
  · rw [List.map_congr_left fun e he => congrArg Status.lastAccess (hstatus e he)]
    exact h.increasing
  · exact h.nonneg

/-- An entry is used, not before the limit. -/
theorem used (h : v.Timed limit) (hnow : limit ≤ now) (hentries : v'.entries = usedLast v.entries e)
    (hnext : v'.ledger.nextSeq = v'.register.size) (hsize : v.register.size ≤ v'.register.size)
    (hseq : e.seq < v'.register.size) (hcost : (e.cost.getD .zero).isNegative = false)
    (htime : (v'.status e).lastAccess = now)
    (hothers : ∀ f ∈ v.entries, f.key ≠ e.key →
      (v'.status f).lastAccess = (v.status f).lastAccess) : v'.Timed (now + 1) := by
  have hothers : ∀ f ∈ without v.entries e.key, f ∈ v.entries ∧
      (v'.status f).lastAccess = (v.status f).lastAccess := by
    intro f hf
    obtain ⟨hmem, hkey⟩ := List.mem_filter.1 hf
    exact ⟨hmem, hothers f hmem (by simpa using hkey)⟩
  have hall : ∀ {P : Entry → Prop}, P e → (∀ f ∈ without v.entries e.key, P f) →
      ∀ f ∈ v'.entries, P f := by
    intro P he hf f hm
    rw [hentries, usedLast, List.mem_append, List.mem_singleton] at hm
    rcases hm with hm | rfl
    · exact hf f hm
    · exact he
  refine ⟨hnext, hall hseq fun f hf => (h.seq_lt f (hothers f hf).1).trans_le hsize,
    hall (htime ▸ Nat.lt_succ_self _) fun f hf => ?_, ?_,
    hall hcost fun f hf => h.nonneg f (hothers f hf).1⟩
  · have := h.lt_limit f (hothers f hf).1
    have := (hothers f hf).2
    omega
  · rw [hentries, usedLast, List.map_append, List.pairwise_append]
    refine ⟨?_, List.pairwise_singleton _ _, ?_⟩
    · rw [List.map_congr_left fun f hf => (hothers f hf).2]
      exact h.increasing.sublist (List.filter_sublist.map _)
    · intro t ht u hu
      obtain ⟨f, hf, rfl⟩ := List.mem_map.1 ht
      obtain rfl := List.mem_singleton.1 hu
      have := h.lt_limit f (hothers f hf).1
      have := (hothers f hf).2
      dsimp only
      omega

/-- An entry is looked up, not before the limit, and used if it is there. -/
theorem lookedUp {k : TileKey} (h : v.Timed limit) (hv : v.Sound) (hnow : limit ≤ now)
    (hentries : v'.entries = (v.tiles k).elim v.entries (usedLast v.entries))
    (hnext : v'.ledger.nextSeq = v.ledger.nextSeq)
    (htouched : v'.register = (v.tiles k).elim v.register fun e => v.register.touch e.seq now) :
    v'.Timed (now + 1) := by
  rcases hfound : v.tiles k with _ | e
  · rw [hfound] at hentries htouched
    refine (h.left (hentries ▸ .refl _) hnext (congrArg Register.size htouched) fun e _ => ?_).mono
      (Nat.le_succ_of_le hnow)
    rw [Vault.status, htouched, Vault.status]
    rfl
  · rw [hfound] at hentries htouched
    have he : e ∈ v.entries := hv.shelf.mem_of_get hfound
    have hstatus : ∀ f, v'.status f =
        if f.seq = e.seq then (v.status f).touch now else v.status f := by
      intro f
      rw [Vault.status, htouched]
      exact Register.status_touch _ _ _ _ (h.seq_lt e he)
    have hsize : v'.register.size = v.register.size := by
      rw [htouched]
      exact Register.size_touch _ _ _
    refine h.used hnow hentries (by rw [hnext, hsize, h.nextSeq]) hsize.ge (hsize ▸ h.seq_lt e he)
      (h.nonneg e he) ?_ fun f hf hkey => ?_
    · rw [hstatus, if_pos rfl]
      exact Nat.max_eq_right ((h.lt_limit e he).le.trans hnow)
    · have hne : f ≠ e := fun hfe => hkey (congrArg Entry.key hfe)
      rw [hstatus, if_neg (h.seq_ne hf he hne)]

/-- Of two residents one was used before the other, by its tick and by its time. -/
theorem earlier_or_later (h : v.Timed limit) (hv : v.Sound) {i j : Nat} {r r' : Resident}
    (hi : v.store.recency.get? i = some r) (hj : v.store.recency.get? j = some r') :
    r = r' ∨
      (r.turn.tick < r'.turn.tick ∧
        (v.status r.entry).lastAccess < (v.status r'.entry).lastAccess) ∨
      (r'.turn.tick < r.turn.tick ∧
        (v.status r'.entry).lastAccess < (v.status r.entry).lastAccess) := by
  let earlier (p q : Nat × Resident) : Prop := p.2.turn.tick < q.2.turn.tick ∧
    (v.status p.2.entry).lastAccess < (v.status q.2.entry).lastAccess
  have hordered : v.store.recency.toList.Pairwise fun p q => earlier p q ∨ earlier q p := by
    have htick := List.pairwise_map.1 hv.valid.ordered
    have htime := List.pairwise_map.1 (List.pairwise_map.1 h.increasing)
    exact (htick.and htime).imp Or.inl
  have hsymm : Std.Symm fun p q => earlier p q ∨ earlier q p := ⟨fun _ _ => Or.symm⟩
  by_cases hne : (i, r) = (j, r')
  · exact .inl (congrArg Prod.snd hne)
  · exact .inr (hordered.forall (hv.valid.linked.mem_toList.2 hi) (hv.valid.linked.mem_toList.2 hj)
      hne)

/-- While all owners exist, ranks are in the order of turns. -/
theorem compare_rank (h : v.Timed limit) (hv : v.Sound) {m : Moment}
    (halive : ∀ e ∈ v.entries, m.alive e.owner) {i j : Nat} {r r' : Resident}
    (hi : v.store.recency.get? i = some r) (hj : v.store.recency.get? j = some r') :
    compare (v.rank m r.entry) (v.rank m r'.entry) = compare r.turn r'.turn := by
  have hr : r.entry ∈ v.entries := hv.valid.mem_entries.2 ⟨i, r, hi, rfl⟩
  have hr' : r'.entry ∈ v.entries := hv.valid.mem_entries.2 ⟨j, r', hj, rfl⟩
  have hcost : (v.rank m r.entry).cost.totalCompare (v.rank m r'.entry).cost =
      compare r.turn.cost r'.turn.cost := by
    rw [(hv.valid.turn i r hi).1, (hv.valid.turn j r' hj).1]
    exact Binary64.totalCompare_of_nonneg (h.nonneg _ hr) (h.nonneg _ hr')
  have huse : (compare (v.status r.entry).lastAccess (v.status r'.entry).lastAccess).then
      (compare r.entry.seq r'.entry.seq) = compare r.turn.tick r'.turn.tick := by
    rcases h.earlier_or_later hv hi hj with rfl | ⟨htick, htime⟩ | ⟨htick, htime⟩
    · simp
    · rw [Std.compare_eq_lt.2 htick, Std.compare_eq_lt.2 htime]
      rfl
    · rw [Std.compare_eq_gt.2 htick, Std.compare_eq_gt.2 htime]
      rfl
  change (compare (m.alive r.entry.owner) (m.alive r'.entry.owner)).then
    (((v.rank m r.entry).cost.totalCompare (v.rank m r'.entry).cost).then
      ((compare (v.status r.entry).lastAccess (v.status r'.entry).lastAccess).then
        (compare r.entry.seq r'.entry.seq))) =
    (compare r.turn.cost r'.turn.cost).then (compare r.turn.tick r'.turn.tick)
  rw [halive _ hr, halive _ hr', hcost, huse]
  rfl

end Timed

end Linked

end TileStore
