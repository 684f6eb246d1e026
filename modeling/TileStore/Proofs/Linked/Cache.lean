import TileStore.Linked.Cache
import TileStore.Proofs.Linked.Store

/-!
# What a linked cache does

Each computation of a linked cache in the terms of `Vault`. A pass sweeps stale slots first and
follows the schedule then; both are evictions one after the other, `Evicts`.
-/

namespace TileStore.Linked

open Vault

variable {v v' : Linked} {m : Moment} {i : Nat} {r : Resident} {e : Entry} {k : TileKey}
  {protect : Option TileKey} {target : UInt64}

theorem evictSlot_meets (h : v.Sound) (hi : v.store.recency.get? i = some r) :
    (evictSlot i).Meets v (Fits v.entries 0) fun e v' =>
      e = r.entry ∧ v.Becomes (v.tiles.drop r.entry.key) v' ∧
        (∀ j, v'.store.recency.get? j = if j = i then none else v.store.recency.get? j) ∧
        v'.store.schedule.size < v.store.schedule.size ∧
        v'.entries = without v.entries r.entry.key := by
  unfold evictSlot
  simp only [Mutation.meets_bind, inStore, Mutation.meets_within]
  refine (LinkedStore.removeSlot_meets h.valid hi).mono (fun _ => trivial) ?_
  rintro _ s' ⟨hvalid, rfl, hdrop, hget, hsize, hentries⟩
  refine (becomes_drop (w := { v with store := s' }) h (h.valid.get?_key hi) hvalid rfl hdrop).imp ?_
  rintro _ v' ⟨hbecomes, hstore⟩
  refine ⟨rfl, hbecomes.of_eq rfl rfl, ?_⟩
  have hstore : (v'.mark r.entry .evicted).store = s' := hstore
  rw [← hstore] at hget hsize hentries
  exact ⟨hget, hsize, hentries⟩

/-! ### Eviction passes -/

/-- Slots found by a sweep are evicted in turn. -/
theorem evictListed_meets (slots : List Nat) (h : v.Sound) (hd : slots.Nodup)
    (hslots : ∀ i ∈ slots, ∃ r, v.store.recency.get? i = some r ∧ some r.entry.key ≠ protect) :
    (evictListed target slots).Meets v (Fits v.entries 0) fun es v' =>
      Evicts protect target v es v' ∧ v'.entries.Sublist v.entries := by
  induction slots generalizing v with
  | nil => exact ⟨.rest (.refl h), .refl _⟩
  | cons i slots ih =>
    rw [evictListed, Mutation.meets_bind, Mutation.meets_get]
    split
    · exact ⟨.rest (.refl h), .refl _⟩
    · next htarget =>
      obtain ⟨hnotin, hd⟩ := List.nodup_cons.1 hd
      obtain ⟨r, hi, hp⟩ := hslots i List.mem_cons_self
      have hget := h.valid.get?_key hi
      rw [Mutation.meets_bind]
      refine (evictSlot_meets h hi).imp ?_
      rintro _ v₁ ⟨rfl, hb, hleft, -, hentries⟩
      have hslots₁ : ∀ j ∈ slots,
          ∃ r, v₁.store.recency.get? j = some r ∧ some r.entry.key ≠ protect := by
        intro j hj
        have hne : j ≠ i := fun e => hnotin (e ▸ hj)
        rw [hleft, if_neg hne]
        exact hslots j (List.mem_cons_of_mem i hj)
      rw [Mutation.meets_bind]
      refine (ih hb.sound hd hslots₁).mono (fun hf => hb.fits_drop h hget hf) ?_
      rintro es v' ⟨hes, hleft⟩
      rw [hentries] at hleft
      exact ⟨.step (UInt64.not_le.1 htarget) hget hp hb hes, hleft.trans List.filter_sublist⟩

/-- Without turns there are no entries. -/
theorem entries_eq_nil_of_schedule (h : v.Sound) (hsize : v.store.schedule.size = 0) :
    v.entries = [] := by
  refine List.eq_nil_iff_forall_not_mem.2 fun e he => ?_
  obtain ⟨i, r, hi, -⟩ := h.valid.mem_entries.1 he
  have hnone : v.store.schedule[r.turn]? = none := Std.TreeMap.getElem?_of_isEmpty <|
    Std.TreeMap.isEmpty_eq_size_eq_zero.trans (by simpa using hsize)
  rw [h.valid.schedule.getElem? hi] at hnone
  cases hnone

/-- With fuel for every turn, the schedule is followed to the end. -/
theorem evictScheduled_meets (fuel : Nat) (h : v.Sound) :
    (evictScheduled target protect fuel).Meets v (Fits v.entries 0) fun es v' =>
      Evicts protect target v es v' ∧ v'.entries.Sublist v.entries ∧
        (v.store.schedule.size ≤ fuel →
          v'.ledger.memoryUsed ≤ target ∨ ∀ e ∈ v'.entries, some e.key = protect) := by
  induction fuel generalizing v with
  | zero =>
    refine ⟨.rest (.refl h), .refl _, fun hsize => .inr ?_⟩
    rw [entries_eq_nil_of_schedule h (by omega)]
    nofun
  | succ fuel ih =>
    rw [evictScheduled, Mutation.meets_bind, Mutation.meets_get]
    split
    · next htarget => exact ⟨.rest (.refl h), .refl _, fun _ => .inl htarget⟩
    · next htarget =>
      split
      · next hnone =>
        exact ⟨.rest (.refl h), .refl _, fun _ => .inr (h.valid.eq_protect_of_cheapest? hnone)⟩
      · next i hi =>
        obtain ⟨r, hi, hp⟩ := LinkedStore.exists_of_cheapest? hi
        have hget := h.valid.get?_key hi
        rw [Mutation.meets_bind]
        refine (evictSlot_meets h hi).imp ?_
        rintro _ v₁ ⟨rfl, hb, -, hsize, hentries⟩
        rw [Mutation.meets_bind]
        refine (ih hb.sound).mono (fun hf => hb.fits_drop h hget hf) ?_
        rintro es v' ⟨hes, hleft, hmet⟩
        rw [hentries] at hleft
        exact ⟨.step (UInt64.not_le.1 htarget) hget hp hb hes, hleft.trans List.filter_sublist,
          fun hle => hmet (by omega)⟩

theorem becomes_advanceSweep (h : v.Sound) (budget : Nat) :
    v.Becomes v.tiles { v with store := v.store.advanceSweep budget } :=
  .of_store h (h.valid.advanceSweep budget) (LinkedStore.get?_advanceSweep v.store budget)

theorem evict_meets (m : Moment) (protect : Option TileKey) (h : v.Sound) :
    (evict m protect).Meets v (Fits v.entries 0) fun pass v' =>
      Relieves protect v pass.victims v' ∧ v'.entries.Sublist v.entries := by
  unfold evict
  rw [Mutation.meets_bind, Mutation.meets_get]
  dsimp only
  split
  · next htarget => exact ⟨⟨.rest (.refl h), fun _ => .inl htarget⟩, .refl _⟩
  · have hb := becomes_advanceSweep h sweepBudget
    simp only [Mutation.meets_bind, Mutation.meets_set, Mutation.meets_get]
    have hslots : ∀ i ∈ v.store.staleSlots m sweepBudget protect, ∃ r,
        (v.store.advanceSweep sweepBudget).recency.get? i = some r ∧
          some r.entry.key ≠ protect := by
      intro i hi
      rw [LinkedStore.recency_advanceSweep]
      exact LinkedStore.exists_of_mem_staleSlots hi
    refine (evictListed_meets _ hb.sound (v.store.nodup_staleSlots m sweepBudget protect)
      hslots).mono (fun hf => hf.perm (hb.perm h)) ?_
    rintro swept v₁ ⟨hswept, hleft⟩
    have hswept := hswept.of_becomes h hb
    have hentries : Shelved.entries (v.store.advanceSweep sweepBudget) = v.entries :=
      LinkedStore.entries_advanceSweep v.store sweepBudget
    refine (evictScheduled_meets _ hswept.becomes.sound).mono
      (fun hf => (hf.perm (hswept.perm h)).of_append_right) ?_
    rintro scheduled v' ⟨hscheduled, hleft', hmet⟩
    exact ⟨⟨hswept.append h hscheduled, fun _ => hmet le_rfl⟩, hleft'.trans (hentries ▸ hleft)⟩

/-! ### Writes -/

/-- Write an entry; the answer is whether it replaced another. -/
def put (e : Entry) : Mutation Linked Bool := do
  let replaced ← inStore (LinkedStore.insert e)
  if replaced.isSome then modify (·.mark e .updated)
  account (some e) replaced
  return replaced.isSome

/-- Run an eviction pass that spares an entry if the memory is over the capacity. -/
def restoreBound (m : Moment) (e : Entry) : Mutation Linked Pass := do
  let v ← get
  if v.ledger.isOverCapacity then
    let pass ← evict m (some e.key)
    return { pass with log := v.oversizeWarning e ++ pass.log }
  else return {}

/-- An entry is written, and then the bound is restored. -/
theorem write_eq (m : Moment) (e : Entry) : write m e = (do
    let replaced ← put e
    let pass ← restoreBound m e
    return ⟨e, replaced, pass⟩) := by
  have hpass : ∀ replaced : Bool, (do
      let v ← get
      if v.ledger.isOverCapacity then do
        let pass ← evict m (some e.key)
        return ⟨e, replaced, { pass with log := v.oversizeWarning e ++ pass.log }⟩
      else return ⟨e, replaced, {}⟩ : Mutation Linked Written) = (do
      let pass ← restoreBound m e
      return ⟨e, replaced, pass⟩) := by
    intro replaced
    unfold restoreBound
    simp only [bind_assoc]
    refine bind_congr fun v => ?_
    split <;> simp only [bind_assoc, pure_bind]
  unfold write put
  simp only [bind_assoc, hpass]
  refine bind_congr fun replaced => ?_
  split <;> simp only [bind_assoc, pure_bind]

theorem put_meets (h : v.Sound) (he : e.Proper) :
    (put e).Meets v (Fits v.entries e.size.toNat) fun replaced v' =>
      replaced = (v.tiles e.key).isSome ∧ v.Becomes (v.tiles.put e) v' ∧
        v'.entries = usedLast v.entries e := by
  unfold put
  simp only [Mutation.meets_bind, inStore, Mutation.meets_within]
  refine (LinkedStore.insert_meets h.valid he).mono (fun _ => trivial) ?_
  rintro _ s' ⟨hvalid, rfl, hput, hentries⟩
  refine Mutation.meets_modify_if fun w hw => ?_
  have hstore : w.store = s' := by rcases hw with rfl | rfl <;> rfl
  have hledger : w.ledger = v.ledger := by rcases hw with rfl | rfl <;> rfl
  have htiles : w.tiles = v.tiles.put e := by rw [tiles, hstore]; exact hput
  rw [Mutation.meets_bind]
  refine (becomes_put (w := w) h he (hstore ▸ hvalid) hledger htiles).imp ?_
  rintro _ v' ⟨hb, hstore'⟩
  rw [← hstore, ← hstore'] at hentries
  exact ⟨rfl, hb, hentries⟩

/-- The pass that sets in if the memory is over the capacity. -/
theorem restoreBound_meets (m : Moment) (e : Entry) (h : v.Sound) :
    (restoreBound m e).Meets v (Fits v.entries 0) fun pass v' =>
      Restores e v pass.victims v' ∧ v'.entries.Sublist v.entries := by
  unfold restoreBound
  rw [Mutation.meets_bind, Mutation.meets_get]
  split
  · next hover =>
    rw [Mutation.meets_bind]
    refine (evict_meets m (some e.key) h).imp fun pass v' ⟨hpass, hleft⟩ => ?_
    rw [Mutation.meets_pure, Restores, if_pos hover]
    exact ⟨hpass, hleft⟩
  · next hover =>
    rw [Mutation.meets_pure, Restores, if_neg hover]
    exact ⟨⟨rfl, rfl⟩, .refl _⟩

theorem write_meets (m : Moment) (h : v.Sound) (he : e.Proper) :
    (write m e).Meets v (v.Admits e) fun w v' =>
      w.entry = e ∧ w.replaced = (v.tiles e.key).isSome ∧ v.Writes e w.pass.victims v' ∧
        v'.entries.Sublist (usedLast v.entries e) := by
  rw [write_eq, Mutation.meets_bind]
  refine (put_meets h he).mono Admits.fits ?_
  rintro _ v₁ ⟨rfl, hb, hentries⟩
  rw [Mutation.meets_bind]
  refine (restoreBound_meets m e hb.sound).mono (hb.fits_put h he) ?_
  rintro pass v' ⟨hpass, hleft⟩
  exact ⟨rfl, rfl, ⟨v₁, hb, hpass⟩, hentries ▸ hleft⟩

/-- A tile is cached: the next entry is made and written. -/
theorem add_meets (m : Moment) (owner : Owner) (p : Position) (payload : Payload)
    (cost : Option Binary64) (h : v.Sound) :
    (add m owner p payload cost).Meets v
      (v.Exact ∧ v.RoomFor (v.upcoming owner p payload cost)) fun notices v' =>
      ∃ (v₁ : Linked) (w : Written), v.Numbered 1 v₁ ∧ w.entry = v.upcoming owner p payload cost ∧
        notices = w.pass.log.map .log ++ w.notices ∧ v₁.Writes w.entry w.pass.victims v' ∧
        w.replaced = (v₁.tiles w.entry.key).isSome ∧
        v'.entries.Sublist (usedLast v₁.entries w.entry) := by
  unfold add
  rw [Mutation.meets_bind]
  refine (newEntry_meets m owner p payload cost v).imp ?_
  rintro _ v₁ ⟨rfl, hn⟩
  rw [Mutation.meets_bind]
  refine (write_meets m (hn.sound h) (Entry.proper_new ..)).mono
    (fun hf => hn.admits (hf.1.admits hf.2 rfl)) ?_
  rintro w v' ⟨hw, hreplaced, hwrites, horder⟩
  exact ⟨v₁, w, hn, hw, rfl, hw ▸ hwrites, hw ▸ hreplaced, hw ▸ horder⟩

/-- An entry is written with the pass that it sets off, which the record names. If that is safe
there was room for it. -/
structure WritesAs (safe : Prop) (e : Entry) (v : Linked) (w : Written) (v' : Linked) : Prop where
  entry : w.entry = e
  replaced : w.replaced = (v.tiles e.key).isSome
  writes : v.Writes e w.pass.victims v'
  order : v'.entries.Sublist (usedLast v.entries e)
  admits : safe → v.Admits e

/-- Entries are written one after the other, each with the pass that it sets off. Others may be left
to be written. -/
theorem writes_meets {safe : Prop} {overhead : UInt64} {es left : List Entry}
    (h : Writing (write m) safe overhead (es ++ left) v) :
    (es.mapM (write m)).Meets v safe fun ws v' =>
      Mutation.Series (WritesAs safe) es v ws v' ∧ Writing (write m) safe overhead left v' := by
  refine Mutation.meets_mapM (fun es w => Writing (write m) safe overhead (es ++ left) w) ?_ es v h
  intro e es w hw
  refine ((write_meets m hw.sound hw.proper).mono hw.admits fun _ _ h => h).and_result.imp ?_
  rintro x w' ⟨⟨hx, hreplaced, hwrites, horder⟩, hr⟩
  refine ⟨⟨hx, hreplaced, hwrites, horder, hw.admits⟩,
    hw.next hr hwrites.sound hwrites.recharged fun hsafe => ?_⟩
  exact hwrites.exact hw.sound (hw.room hsafe).1 hw.proper (hw.admits hsafe)

/-- A batch is cached: all entries are made, then each is written. -/
theorem addBatch_meets (m : Moment) (owner : Owner)
    (tiles : List (Position × Payload × Option Binary64)) (h : v.Sound) :
    (addBatch m owner tiles).Meets v (v.Exact ∧ v.RoomForAll (write m) m owner tiles)
      fun notices v' => ∃ (v₁ : Linked) (ws : List Written), v.Numbered tiles.length v₁ ∧
        notices = (ws.flatMap (·.pass.log)).map .log ++ ws.flatMap Written.notices ∧
        Mutation.Series (WritesAs (v.Exact ∧ v.RoomForAll (write m) m owner tiles))
          (madeFrom owner v.ledger.overhead v.ledger.nextSeq tiles) v₁ ws v' ∧
        v'.Sound ∧ (v.Exact ∧ v.RoomForAll (write m) m owner tiles → v'.Exact) := by
  unfold addBatch
  rw [Mutation.meets_bind]
  refine (newEntries_meets m owner tiles v).and_result.imp ?_
  rintro _ v₁ ⟨⟨rfl, hn⟩, hr⟩
  rw [Mutation.meets_bind]
  have hwriting : Writing (write m) (v.Exact ∧ v.RoomForAll (write m) m owner tiles)
      v.ledger.overhead (madeFrom owner v.ledger.overhead v.ledger.nextSeq tiles ++ []) v₁ := by
    rw [List.append_nil]
    exact hn.writing h hr
  refine (writes_meets hwriting).imp ?_
  rintro ws v' ⟨hws, hw⟩
  exact ⟨v₁, ws, hn, rfl, hws, hw.sound, fun hsafe => (hw.room hsafe).1⟩

/-! ### Look-ups -/

theorem find_meets {safe : Prop} (m : Moment) (k : TileKey) (h : v.Sound) :
    (find m k).Meets v safe fun found v' => found = v.tiles k ∧ v.Keeps v' ∧
      v'.entries = found.elim v.entries (usedLast v.entries) := by
  unfold find
  simp only [Mutation.meets_bind, inStore, Mutation.meets_within]
  refine (LinkedStore.use_meets h.valid k).mono (fun _ => trivial) ?_
  rintro found s' ⟨hvalid, hfound, hget, hentries⟩
  have hkeeps : v.Keeps { v with store := s' } :=
    ⟨(Becomes.of_store h hvalid hget).sound, hget, rfl, rfl⟩
  rcases found with _ | e
  · exact ⟨hfound, hkeeps, hentries⟩
  · refine Mutation.meets_bind.2 (Mutation.meets_modify.2 ⟨hfound, ?_, hentries⟩)
    exact ⟨⟨hkeeps.sound.valid, hkeeps.sound.balanced⟩, hget, rfl, rfl⟩

theorem get?_meets {safe : Prop} (m : Moment) (k : TileKey) (h : v.Sound) :
    (get? m k).Meets v safe fun found v' => found = v.tiles k ∧ v.Keeps v' ∧
      v'.entries = found.elim v.entries (usedLast v.entries) := by
  unfold get?
  rw [Mutation.meets_bind]
  refine (find_meets m k h).imp ?_
  rintro _ v' ⟨rfl, hkeeps, hentries⟩
  exact ⟨rfl, hkeeps.count _, hentries⟩

theorem getAll_meets {safe : Prop} (m : Moment) (ks : List TileKey) (h : v.Sound) :
    (getAll m ks).Meets v safe fun found v' => found = ks.map v.tiles ∧ v.Keeps v' := by
  unfold getAll
  rw [Mutation.meets_bind]
  refine (lookUps_meets (fun k w hw => (find_meets m k hw).imp fun _ _ hf => ⟨hf.1, hf.2.1⟩)
    ks h).imp ?_
  intro found w ⟨hfound, hw⟩
  rw [Mutation.meets_bind]
  refine Mutation.meets_of_result (Mutation.result_forM_modify _ found w) ⟨hfound, ?_⟩
  clear hfound
  induction found generalizing w with
  | nil => exact hw
  | cons f found ih => exact ih _ (hw.count _)

/-! ### Removals -/

/-- An entry that went out of the store is given back. -/
theorem discharge_meets {s' : LinkedStore} (h : v.Sound) (he : v.tiles k = some e)
    (hvalid : s'.Valid) (hdrop : s'.get? = v.tiles.drop k) :
    (discharge e).Meets { v with store := s' } (Fits v.entries 0) fun e' v' =>
      e' = e ∧ v.Becomes (v.tiles.drop k) v' ∧ v'.store = s' := by
  obtain rfl := h.shelf.key he
  unfold discharge
  rw [Mutation.meets_bind]
  refine (becomes_drop (w := { v with store := s' }) h he hvalid rfl hdrop).imp ?_
  rintro _ v' ⟨hb, hstore⟩
  exact ⟨rfl, hb, hstore⟩

theorem remove_meets (k : TileKey) (h : v.Sound) :
    (remove k).Meets v (Fits v.entries 0) fun answer v' =>
      answer = (v.tiles k, (v.tiles k).elim [] fun e => Notice.removed [e]) ∧
        v.Becomes (v.tiles.drop k) v' ∧ v'.entries = without v.entries k := by
  unfold remove
  simp only [Mutation.meets_bind, inStore, Mutation.meets_within]
  refine (LinkedStore.remove_meets h.valid k).mono (fun _ => trivial) ?_
  rintro found s' ⟨hvalid, hfound, hdrop, hentries⟩
  change found = v.tiles k at hfound
  rw [← hfound]
  rcases found with _ | e
  · have hsame := Tiles.drop_eq_self hfound.symm
    rw [hsame]
    exact ⟨rfl, .of_store h hvalid (hdrop.trans hsame), hentries⟩
  · rw [Mutation.meets_bind]
    refine (discharge_meets h hfound.symm hvalid hdrop).imp ?_
    rintro _ v₁ ⟨rfl, hb, hstore⟩
    rw [Mutation.meets_bind]
    refine (dismiss_meets [_] v₁).imp ?_
    rintro _ v' ⟨rfl, hs, hl⟩
    refine ⟨rfl, hb.of_eq hs hl, ?_⟩
    rw [entries, hs, hstore]
    exact hentries

/-- All tiles of an image are removed. -/
theorem removeImage_meets (image : Identity) (h : v.Sound) :
    (removeImage image).Meets v (Fits v.entries 0) fun answer v' =>
      ∃ es, answer = (es.length, Notice.removed es ++ [.log (.imageRemoved image es.length)]) ∧
        v.Removes (Shelved.keysOf v.store (.of image)) es v' ∧ v'.entries.Sublist v.entries := by
  unfold removeImage
  rw [Mutation.meets_bind, Mutation.meets_get]
  dsimp only
  rw [Mutation.meets_bind]
  have hdue : Due v (v.store.catalogue.keys (.of image)) v := by
    refine ⟨Catalogue.nodup_keys _ _, fun k hk => ?_, id⟩
    obtain ⟨e, he, -⟩ := (h.valid.indexed.mem_keys _ k).1 hk
    exact ⟨e, he⟩
  refine (Mutation.meets_mapM (fun ks w => w.Sound ∧ w.entries.Sublist v.entries ∧ Due v ks w)
    (R := fun k w e w' => w.tiles k = some e ∧ w'.tiles = w.tiles.drop k ∧
      w.ledger.Recharged w'.ledger) ?_ _ v ⟨h, .refl _, hdue⟩).imp ?_
  · rintro k ks w ⟨hw, hleft, hdue⟩
    obtain ⟨e, he⟩ := hdue.found k List.mem_cons_self
    simp only [Mutation.meets_bind, inStore, Mutation.meets_within]
    refine (LinkedStore.remove_meets hw.valid k).mono (fun _ => trivial) ?_
    rintro found s' ⟨hvalid, hfound, hdrop, hentries⟩
    obtain rfl : found = some e := hfound.trans he
    refine (discharge_meets hw he hvalid hdrop).mono hdue.fits ?_
    rintro _ w' ⟨rfl, hb, hstore⟩
    obtain rfl := hw.shelf.key he
    have hentries : w'.entries = without w.entries _ := (congrArg _ hstore).trans hentries
    refine ⟨⟨he, hb.tiles, hb.recharged⟩, hb.sound, ?_, hdue.next hb.tiles (hb.fits_drop hw he)⟩
    rw [hentries]
    exact List.filter_sublist.trans hleft
  · rintro es v₁ ⟨hseries, hs₁, hleft, -⟩
    rw [Mutation.meets_bind]
    refine (dismiss_meets es v₁).imp ?_
    rintro _ v' ⟨rfl, hs, hl⟩
    obtain ⟨ht, hr, hfound⟩ := removed_of_series hseries
    refine ⟨es, rfl, .of_eq ⟨⟨hs₁, ht, hr⟩, hfound⟩ hs hl, ?_⟩
    rw [entries, hs]
    exact hleft

/-- Everything is removed. -/
theorem flush_meets (h : v.Sound) :
    flush.Meets v (Fits v.entries 0) fun notices v' =>
      ∃ es, notices = Notice.removed es ++ [.log (.flushed es.length)] ∧ es.Perm v.entries ∧
        v.Becomes (fun _ => none) v' := by
  unfold flush
  simp only [Mutation.meets_bind, Mutation.meets_get, Mutation.meets_set]
  refine (accountAll_meets v.store.entries (v := { v with store := v.store.clear })
    h.balanced).imp ?_
  rintro _ v₁ ⟨hs, hr, hb⟩
  refine (dismiss_meets v.store.entries v₁).imp ?_
  rintro _ v' ⟨rfl, hs', hl'⟩
  have hempty : v.Becomes (fun _ => none) v₁ := by
    refine ⟨⟨?_, ?_⟩, ?_, hr⟩
    · rw [hs]
      exact .empty _ _
    · rw [entries, hs]
      exact hb
    · rw [tiles, hs]
      exact LinkedStore.get?_clear v.store
  exact ⟨v.store.entries, rfl, .refl _, hempty.of_eq hs' hl'⟩

theorem relieve_meets (m : Moment) (h : v.Sound) :
    (relieve m).Meets v (Fits v.entries 0) fun notices v' =>
      ∃ pass : Pass, notices = pass.notices ∧ Relieves none v pass.victims v' ∧
        v'.entries.Sublist v.entries := by
  unfold relieve
  rw [Mutation.meets_bind]
  exact (evict_meets m none h).imp fun pass v' hpass => ⟨pass, rfl, hpass⟩

end TileStore.Linked
