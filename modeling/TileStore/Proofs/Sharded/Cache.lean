import TileStore.Sharded.Cache
import TileStore.Proofs.Sharded.Store

/-!
# What a sharded cache does

Each computation of a sharded cache with what it leaves behind, in the terms of `Vault`: passes are
`Relieves`, a write is `Becomes` and the pass after it `Restores`, removals are `Removes`, look-ups
are `Keeps`. None of them ends in a fault while the sizes of all entries fit in a word.
-/

namespace TileStore.Sharded

open Vault

variable {v v' : Sharded} {e : Entry} {k : TileKey} {protect : Option TileKey} {target : UInt64}

/-! ### Eviction passes -/

theorem evictEntry_meets (h : v.Sound) (he : v.tiles e.key = some e) :
    (evictEntry e).Meets v (Fits v.entries 0) fun _ v' => v.Becomes (v.tiles.drop e.key) v' := by
  unfold evictEntry
  simp only [Mutation.meets_bind, inStore, Mutation.meets_within]
  refine (ShardedStore.take_meets v.store e.key).mono (fun _ => trivial) ?_
  rintro _ s₁ ⟨-, rfl⟩
  refine (ShardedStore.strike_meets h.valid he rfl).mono (fun _ => trivial) ?_
  rintro _ s' ⟨hvalid, hdrop⟩
  refine (becomes_drop (w := { v with store := s' }) h he hvalid rfl hdrop).imp ?_
  rintro _ v' ⟨hb, -⟩
  exact hb.of_eq rfl rfl

/-- With fuel for every entry and one search more, sampling ends at the target or with nothing left
to evict. -/
theorem evictSampled_meets (m : Moment) (fuel : Nat) (h : v.Sound) :
    (evictSampled m target protect fuel).Meets v (Fits v.entries 0) fun es v' =>
      Evicts protect target v es v' ∧ (v.entries.length < fuel →
        v'.ledger.memoryUsed ≤ target ∨ ∀ e ∈ v'.entries, some e.key = protect) := by
  induction fuel generalizing v with
  | zero => exact ⟨.rest (.refl h), nofun⟩
  | succ fuel ih =>
    rw [evictSampled, Mutation.meets_bind, Mutation.meets_get]
    split
    · next htarget => exact ⟨.rest (.refl h), fun _ => .inl htarget⟩
    · next htarget =>
      obtain ⟨hvalid, hget⟩ := h.valid.advance
      have hb := Becomes.of_store h hvalid hget
      rw [Mutation.meets_bind, Mutation.meets_set]
      split
      · next hnone =>
        refine ⟨.rest hb, fun _ => .inr fun e he => ?_⟩
        exact h.valid.eq_protect_of_pick? hnone e ((hb.perm h).mem_iff.2 he)
      · next e hpick =>
        obtain ⟨he, hp⟩ := h.valid.filed.of_pick? hpick
        rw [Mutation.meets_bind]
        refine (evictEntry_meets hb.sound (hb.tiles ▸ he)).mono
          (fun hf => hf.perm (hb.perm h)) ?_
        intro _ v₁ hb₁
        rw [hb.tiles] at hb₁
        have hdrop := hb.trans hb₁
        have hlength := (hdrop.perm_drop h he).length_eq
        rw [Mutation.meets_bind]
        refine (ih hb₁.sound).mono (fun hf => hdrop.fits_drop h he hf) ?_
        rintro es v' ⟨hes, hmet⟩
        refine ⟨.step (UInt64.not_le.1 htarget) he hp hdrop hes, fun hlt => hmet ?_⟩
        rw [List.length_cons] at hlength
        omega

theorem evict_meets (m : Moment) (protect : Option TileKey) (h : v.Sound) :
    (evict m protect).Meets v (Fits v.entries 0) fun pass v' =>
      Relieves protect v pass.victims v' := by
  unfold evict
  rw [Mutation.meets_bind, Mutation.meets_get]
  dsimp only
  split
  · next htarget => exact ⟨.rest (.refl h), fun _ => .inl htarget⟩
  · rw [Mutation.meets_bind]
    refine (evictSampled_meets m _ h).imp ?_
    rintro victims v' ⟨hevicts, hmet⟩
    refine ⟨hevicts, fun hlength => hmet ?_⟩
    rw [h.balanced.tileCount_toNat hlength]
    exact Nat.lt_succ_self _

/-- The pass that sets in if the memory is over the capacity. -/
theorem restoreBound_meets (m : Moment) (e : Entry) (h : v.Sound) :
    (restoreBound m e).Meets v (Fits v.entries 0) fun pass v' =>
      Restores e v pass.victims v' := by
  unfold restoreBound
  rw [Mutation.meets_bind, Mutation.meets_get]
  split
  · next hover =>
    rw [Mutation.meets_bind]
    refine (evict_meets m (some e.key) h).imp fun pass v' hpass => ?_
    rw [Mutation.meets_pure, Restores, if_pos hover]
    exact hpass
  · next hover =>
    rw [Mutation.meets_pure, Restores, if_neg hover]
    exact ⟨rfl, rfl⟩

/-! ### Writes -/

theorem write_meets (h : v.Sound) (he : e.Proper) :
    (write e).Meets v (Fits v.entries e.size.toNat) fun replaced v' =>
      replaced = (v.tiles e.key).isSome ∧ v.Becomes (v.tiles.put e) v' := by
  unfold write
  simp only [Mutation.meets_bind, inStore, Mutation.meets_within]
  refine (ShardedStore.insert_meets h.valid he).mono (fun _ => trivial) ?_
  rintro _ s' ⟨hvalid, rfl, hput⟩
  refine Mutation.meets_modify_if fun w hw => ?_
  have hstore : w.store = s' := by rcases hw with rfl | rfl <;> rfl
  have hledger : w.ledger = v.ledger := by rcases hw with rfl | rfl <;> rfl
  have htiles : w.tiles = v.tiles.put e := by rw [tiles, hstore]; exact hput
  rw [Mutation.meets_bind]
  refine (becomes_put (w := w) h he (hstore ▸ hvalid) hledger htiles).imp ?_
  rintro _ v' ⟨hb, -⟩
  exact ⟨rfl, hb⟩

/-- A tile is cached: the next entry is made and written, and the bound is restored. -/
theorem add_meets (m : Moment) (owner : Owner) (p : Position) (payload : Payload)
    (cost : Option Binary64) (h : v.Sound) :
    (add m owner p payload cost).Meets v
      (v.Exact ∧ v.RoomFor (v.upcoming owner p payload cost)) fun notices v' =>
      ∃ (v₁ : Sharded) (pass : Pass) (replaced : Bool), v.Numbered 1 v₁ ∧
        notices = pass.log.map .log ++ (Notice.written (v.upcoming owner p payload cost) replaced ++
          Notice.evicted pass.victims) ∧
        v₁.Writes (v.upcoming owner p payload cost) pass.victims v' ∧
        replaced = (v₁.tiles (v.upcoming owner p payload cost).key).isSome := by
  unfold add
  rw [Mutation.meets_bind]
  refine (newEntry_meets m owner p payload cost v).imp ?_
  rintro _ v₁ ⟨rfl, hn⟩
  have hsound := hn.sound h
  have hproper := Entry.proper_new owner p payload cost v.ledger.overhead v.ledger.nextSeq
  have hadmits : v.Exact ∧ v.RoomFor (v.upcoming owner p payload cost) →
      v₁.Admits (v.upcoming owner p payload cost) := fun hf => hn.admits (hf.1.admits hf.2 rfl)
  rw [Mutation.meets_bind]
  refine (write_meets hsound hproper).mono (fun hf => (hadmits hf).fits) ?_
  rintro replaced v₂ ⟨hreplaced, hb⟩
  rw [Mutation.meets_bind]
  refine (restoreBound_meets m _ hb.sound).mono
    (fun hf => hb.fits_put hsound hproper (hadmits hf)) ?_
  intro pass v' hpass
  exact ⟨v₁, pass, replaced, hn, rfl, ⟨v₂, hb, hpass⟩, hreplaced⟩

/-- An entry is written, which the record names. If that is safe there was room for it. -/
structure Puts (safe : Prop) (e : Entry) (v : Sharded) (w : Entry × Bool) (v' : Sharded) :
    Prop where
  entry : w.1 = e
  replaced : w.2 = (v.tiles e.key).isSome
  becomes : v.Becomes (v.tiles.put e) v'
  admits : safe → v.Admits e

/-- Entries are written one after the other. -/
theorem writes_meets {safe : Prop} {overhead : UInt64} {es : List Entry}
    (h : Writing write safe overhead es v) :
    (es.mapM fun e => return (e, ← write e)).Meets v safe fun ws v' =>
      Mutation.Series (Puts safe) es v ws v' ∧ v'.Sound ∧ (safe → v'.Exact) := by
  refine (Mutation.meets_mapM (Writing write safe overhead) ?_ es v h).imp
    fun ws v' ⟨hws, hw⟩ => ⟨hws, hw.sound, fun hsafe => (hw.room hsafe).1⟩
  intro e es w hw
  rw [Mutation.meets_bind]
  refine ((write_meets hw.sound hw.proper).mono (fun hsafe => (hw.admits hsafe).fits)
    fun _ _ h => h).and_result.imp ?_
  rintro x w' ⟨⟨hreplaced, hb⟩, hr⟩
  refine ⟨⟨rfl, hreplaced, hb, hw.admits⟩, hw.next hr hb.sound hb.recharged fun hsafe => ?_⟩
  exact (hw.room hsafe).1.put hw.sound hw.proper (hw.admits hsafe) hb

/-- A batch is cached: all entries are made, then each is written, and then the bound is restored
if there was anything to write. -/
theorem addBatch_meets (m : Moment) (owner : Owner)
    (tiles : List (Position × Payload × Option Binary64)) (h : v.Sound) :
    (addBatch m owner tiles).Meets v (v.Exact ∧ v.RoomForAll write m owner tiles)
      fun notices v' => ∃ (v₁ v₂ : Sharded) (ws : List (Entry × Bool)),
        v.Numbered tiles.length v₁ ∧
        Mutation.Series (Puts (v.Exact ∧ v.RoomForAll write m owner tiles))
          (madeFrom owner v.ledger.overhead v.ledger.nextSeq tiles) v₁ ws v₂ ∧
        v₂.Sound ∧
        (v.Exact ∧ v.RoomForAll write m owner tiles → v₂.Exact) ∧
        match (madeFrom owner v.ledger.overhead v.ledger.nextSeq tiles).getLast? with
        | none => notices = [] ∧ v' = v₂
        | some last => ∃ pass : Pass, Restores last v₂ pass.victims v' ∧
          notices = pass.log.map .log ++ (ws.flatMap (fun (e, replaced) =>
            Notice.written e replaced) ++ Notice.evicted pass.victims) := by
  unfold addBatch
  rw [Mutation.meets_bind]
  refine (newEntries_meets m owner tiles v).and_result.imp ?_
  rintro _ v₁ ⟨⟨rfl, hn⟩, hr⟩
  cases hlast : (madeFrom owner v.ledger.overhead v.ledger.nextSeq tiles).getLast? with
  | none =>
    have hempty := List.getLast?_eq_none_iff.1 hlast
    rw [hempty]
    exact ⟨v₁, v₁, [], hn, .nil v₁, hn.sound h, fun hsafe => hn.exact hsafe.1, rfl, rfl⟩
  | some last =>
    simp only
    rw [Mutation.meets_bind]
    refine (writes_meets (hn.writing h hr)).imp ?_
    rintro ws v₂ ⟨hws, hs, hx⟩
    rw [Mutation.meets_bind]
    refine (restoreBound_meets m last hs).mono (fun hsafe => (hx hsafe).fits) ?_
    intro pass v' hpass
    exact ⟨v₁, v₂, ws, hn, hws, hs, hx, pass, hpass, rfl⟩

/-! ### Look-ups -/

theorem get?_meets {safe : Prop} (m : Moment) (k : TileKey) (h : v.Sound) :
    (get? m k).Meets v safe fun found v' => found = v.tiles k ∧ v.Keeps v' := by
  unfold get?
  rw [Mutation.meets_bind, Mutation.meets_get]
  split
  · next e he =>
    have hkeeps : v.Keeps (if v.ledger.trackRecency then v.touch e m.now else v) := by
      split
      · exact ⟨⟨h.valid, h.balanced⟩, rfl, rfl, rfl⟩
      · exact .refl h
    exact ⟨he.symm, hkeeps.count _⟩
  · next he => exact ⟨he.symm, (Keeps.refl h).count _⟩

theorem getAll_meets {safe : Prop} (m : Moment) (ks : List TileKey) (h : v.Sound) :
    (getAll m ks).Meets v safe fun found v' => found = ks.map v.tiles ∧ v.Keeps v' :=
  lookUps_meets (fun k _ => get?_meets m k) ks h

/-! ### Removals -/

theorem remove_meets {image : ImageKey} (h : v.Sound)
    (hi : ∀ e, v.tiles k = some e → e.image = image) :
    (remove k image).Meets v (Fits v.entries 0) fun answer v' =>
      answer = (v.tiles k, (v.tiles k).elim [] fun e => Notice.removed [e]) ∧
        v.Becomes (v.tiles.drop k) v' := by
  unfold remove
  simp only [Mutation.meets_bind, inStore, Mutation.meets_within]
  refine (ShardedStore.take_meets v.store k).mono (fun _ => trivial) ?_
  rintro found _ ⟨hfound, rfl⟩
  change found = v.tiles k at hfound
  rw [← hfound]
  rcases found with _ | e
  · obtain ⟨hvalid, hget⟩ := h.valid.take_none hfound.symm
    rw [Tiles.drop_eq_self hfound.symm]
    exact ⟨rfl, .of_store h hvalid hget⟩
  · obtain rfl := h.shelf.key hfound.symm
    simp only [Mutation.meets_bind, Mutation.meets_within]
    refine (ShardedStore.strike_meets h.valid hfound.symm (hi e hfound.symm)).mono
      (fun _ => trivial) ?_
    rintro _ s' ⟨hvalid, hdrop⟩
    refine (becomes_drop (w := { v with store := s' }) h hfound.symm hvalid rfl hdrop).imp ?_
    rintro _ v₁ ⟨hb, -⟩
    refine (dismiss_meets [e] v₁).imp ?_
    rintro _ v' ⟨rfl, hs, hl⟩
    exact ⟨rfl, hb.of_eq hs hl⟩

/-- While keys are taken out one after the other: these are left. The catalogue stays behind. -/
structure Taking (v : Sharded) (ks : List TileKey) (w : Sharded) : Prop where
  filed : w.store.Filed
  balanced : w.ledger.Balanced w.entries
  catalogues : w.store.catalogues = v.store.catalogues
  size : w.store.shards.size = v.store.shards.size
  due : Due v ks w

theorem Taking.next {ks : List TileKey} {w w' : Sharded} (h : Taking v (k :: ks) w)
    (hs : w'.store = w.store.editShard (w.store.shardOf k) (·.erase k))
    (hb : w'.ledger.Balanced w'.entries) :
    Taking v ks w' ∧ w'.tiles = w.tiles.drop k := by
  obtain ⟨hfiled, hget⟩ := h.filed.take k
  rw [← hs] at hfiled
  have hdrop : w'.tiles = w.tiles.drop k := by
    rw [tiles, hs]
    exact hget
  refine ⟨⟨hfiled, hb, ?_, ?_, h.due.next hdrop fun hf => ?_⟩, hdrop⟩
  · rw [hs]
    exact h.catalogues
  · rw [hs, ShardedStore.size_editShard, h.size]
  · have hsplit := h.filed.shelf.perm_split k
    have hshelf : Shelf w'.tiles w'.entries := hfiled.shelf
    have hafter := (h.filed.shelf.drop k).perm (hdrop ▸ hshelf)
    exact (hf.perm hsplit).of_append_right.perm hafter

/-- The entries of keys are taken out and given back. -/
theorem removeKeys_meets (ks : List TileKey) (h : v.store.Filed)
    (hb : v.ledger.Balanced v.entries) (hd : ks.Nodup) (hks : ∀ k ∈ ks, ∃ e, v.tiles k = some e) :
    (removeKeys ks).Meets v (Fits v.entries 0) fun es v' =>
      Mutation.Series (fun k w e w' => w.tiles k = some e ∧ w'.tiles = w.tiles.drop k ∧
        w.ledger.Recharged w'.ledger) ks v es v' ∧ Taking v [] v' := by
  refine Mutation.meets_mapM (Taking v) ?_ ks v ⟨h, hb, rfl, rfl, ⟨hd, hks, id⟩⟩
  intro k ks w hw
  obtain ⟨e, he⟩ := hw.due.found k List.mem_cons_self
  obtain rfl := hw.filed.shelf.key he
  obtain ⟨hfiled, hdrop⟩ := hw.filed.take e.key
  simp only [Mutation.meets_bind, inStore, Mutation.meets_within]
  refine (ShardedStore.take_meets w.store e.key).mono (fun _ => trivial) ?_
  rintro found _ ⟨hfound, rfl⟩
  obtain rfl : found = some e := hfound.trans he
  rw [Mutation.meets_bind]
  let s₁ := w.store.editShard (w.store.shardOf e.key) (·.erase e.key)
  refine (account_drop (w := { w with store := s₁ }) hw.filed.shelf hw.balanced hfiled.shelf rfl
    hdrop he).mono hw.due.fits ?_
  rintro _ w' ⟨hw', hr, hb'⟩
  have hstore : w'.store = s₁ := by rw [hw']
  have hentries : w'.entries = s₁.entries := congrArg ShardedStore.entries hstore
  obtain ⟨hnext, htiles⟩ := hw.next hstore (hentries ▸ hb')
  exact ⟨⟨he, htiles, hr⟩, hnext⟩

/-- The keys of some images of one partition are removed, after they were struck from it. -/
theorem clear_meets {i : Nat} {f : Catalogue → Catalogue} {P : ImageKey → Prop}
    {keys : List TileKey} (h : v.Sound) (hi : i < v.store.catalogues.size)
    (hP : ∀ image, P image → v.store.catalogueOf image = i)
    (hf : (f (v.store.catalogue i)).Indexes fun image k =>
      ¬P image ∧ v.store.catalogueOf image = i ∧ v.tiles.Has image k)
    (hd : keys.Nodup) (hkeys : ∀ k, k ∈ keys ↔ ∃ image, P image ∧ v.tiles.Has image k) :
    (removeKeys keys).Meets { v with store := v.store.editCatalogue i f } (Fits v.entries 0)
      fun es v' => v.Removes keys es v' ∧
        v'.store.catalogues.size = v.store.catalogues.size := by
  obtain ⟨hfiled, hget⟩ := h.valid.filed.of_shards (v.store.editCatalogue i f) rfl
  let w : Sharded := { v with store := v.store.editCatalogue i f }
  have htiles : w.tiles = v.tiles := hget
  -- struck or not, a key belongs to one image only
  have hmem : ∀ image k, v.tiles.Has image k → (k ∈ keys ↔ P image) := by
    rintro image k ⟨e, he, rfl⟩
    rw [hkeys]
    constructor
    · rintro ⟨_, hp, f, hf, rfl⟩
      rwa [Option.some.inj (he.symm.trans hf)]
    · exact fun hp => ⟨_, hp, e, he, rfl⟩
  have hfound : ∀ k ∈ keys, ∃ e, w.tiles k = some e := by
    intro k hk
    obtain ⟨_, -, e, he, -⟩ := (hkeys k).1 hk
    exact ⟨e, htiles ▸ he⟩
  refine (removeKeys_meets (v := w) keys hfiled h.balanced hd hfound).imp ?_
  intro es v' ⟨hseries, htaken⟩
  have hsize : v'.store.catalogues.size = v.store.catalogues.size := by
    rw [htaken.catalogues]
    exact ShardedStore.size_editCatalogue _ _ _
  obtain ⟨ht, hr, hall⟩ := removed_of_series hseries
  rw [htiles] at ht hall
  have hvalid : v'.store.Valid := by
    refine h.valid.editCatalogue htaken.size htaken.catalogues htaken.filed ht hi
      (hf.congr fun image k => ?_) fun image k hne => ?_
    · rw [Tiles.has_dropAll]
      constructor
      · rintro ⟨hp, himage, hhas⟩
        exact ⟨himage, fun hk => hp ((hmem image k hhas).1 hk), hhas⟩
      · rintro ⟨himage, hk, hhas⟩
        exact ⟨fun hp => hk ((hmem image k hhas).2 hp), himage, hhas⟩
    · rw [Tiles.has_dropAll]
      exact iff_and_self.2 fun hhas hk => hne (hP image ((hmem image k hhas).1 hk))
  exact ⟨⟨⟨⟨hvalid, htaken.balanced⟩, ht, hr⟩, hall⟩, hsize⟩

/-- All tiles of an image are removed. -/
theorem removeImage_meets (image : Identity) (h : v.Sound) :
    (removeImage image).Meets v (Fits v.entries 0) fun answer v' =>
      ∃ es, answer = (es.length, Notice.removed es ++ [.log (.imageRemoved image es.length)]) ∧
        v.Removes (Shelved.keysOf v.store (.of image)) es v' := by
  unfold removeImage
  simp only [Mutation.meets_bind, Mutation.meets_get, Mutation.meets_set]
  refine (clear_meets (P := (· = .of image)) h (h.valid.catalogueOf_lt _) (by rintro _ rfl; rfl)
    ((h.valid.indexed _).eraseImage _) (Catalogue.nodup_keys _ _) fun k => ?_).imp ?_
  · refine (h.valid.mem_keysOf (.of image) k).trans ⟨fun hk => ⟨_, rfl, hk⟩, ?_⟩
    rintro ⟨_, rfl, hk⟩
    exact hk
  · rintro es v₁ ⟨hremoves, -⟩
    refine (dismiss_meets es v₁).imp ?_
    rintro _ v' ⟨rfl, hs, hl⟩
    exact ⟨es, rfl, hremoves.of_eq hs hl⟩

/-- While the partitions of the catalogue are cleared one after the other: these are left, and they
catalogue all that is left. -/
structure Clearing (v : Sharded) (is : List Nat) (w : Sharded) : Prop where
  becomes : v.Becomes w.tiles w
  size : w.store.catalogues.size = v.store.catalogues.size
  lt : ∀ i ∈ is, i < v.store.catalogues.size
  filed : ∀ k e, w.tiles k = some e → w.store.catalogueOf e.image ∈ is
  fits : Fits v.entries 0 → Fits w.entries 0

theorem Clearing.start (h : v.Sound) : Clearing v (List.range v.store.catalogues.size) v where
  becomes := .refl h
  size := rfl
  lt _ := List.mem_range.1
  filed _ e _ := List.mem_range.2 (h.valid.catalogueOf_lt e.image)
  fits := id

/-- One partition is done when what it catalogued is gone. -/
theorem Clearing.next {i : Nat} {is : List Nat} {w w' : Sharded} {ks : List TileKey}
    {es : List Entry} (h : Clearing v (i :: is) w) (hr : w.Removes ks es w')
    (hks : ∀ k e, w.tiles k = some e → w.store.catalogueOf e.image = i → k ∈ ks)
    (hsize : w'.store.catalogues.size = w.store.catalogues.size)
    (hperm : w.entries.Perm (es ++ w'.entries)) : Clearing v is w' where
  becomes := h.becomes.trans (hr.becomes.tiles ▸ hr.becomes)
  size := hsize.trans h.size
  lt j hj := h.lt j (List.mem_cons_of_mem i hj)
  filed k e he := by
    rw [hr.becomes.tiles, Tiles.dropAll] at he
    split at he
    · cases he
    · next hk =>
      have hof : w'.store.catalogueOf e.image = w.store.catalogueOf e.image := by
        rw [ShardedStore.catalogueOf, hsize, ShardedStore.catalogueOf]
      rw [hof]
      exact (List.mem_cons.1 (h.filed k e he)).resolve_left fun hi => hk (hks k e he hi)
  fits hf := ((h.fits hf).perm hperm).of_append_right

theorem Clearing.tiles_eq {w : Sharded} (h : Clearing v [] w) : w.tiles = fun _ => none := by
  funext k
  exact Option.eq_none_iff_forall_ne_some.2 fun e he => List.not_mem_nil (h.filed k e he)

/-- Everything is removed, partition by partition. -/
theorem flush_meets (h : v.Sound) :
    flush.Meets v (Fits v.entries 0) fun notices v' =>
      ∃ es, notices = Notice.removed es ++ [.log (.flushed es.length)] ∧ es.Perm v.entries ∧
        v.Becomes (fun _ => none) v' := by
  unfold flush
  simp only [Mutation.meets_bind, Mutation.meets_get]
  refine (Mutation.meets_mapM (Clearing v) (R := fun _ w es w' => w.entries.Perm (es ++ w'.entries))
    ?_ _ v (.start h)).imp ?_
  · intro i is w hw
    have hs := hw.becomes.sound
    have hindexed := hs.valid.indexed i
    -- no key is catalogued for two images
    have hd := hindexed.nodup_allKeys <| by
      rintro _ _ k ⟨-, e, he, rfl⟩ ⟨-, f, hf, rfl⟩
      rw [Option.some.inj (he.symm.trans hf)]
    simp only [Mutation.meets_bind, Mutation.meets_get, Mutation.meets_set]
    refine (clear_meets (P := fun image => w.store.catalogueOf image = i) hs
      (hw.size ▸ hw.lt i List.mem_cons_self) (fun _ => id)
      (Catalogue.Indexes.empty.congr fun image k => iff_of_false id fun hleft => hleft.1 hleft.2.1)
      hd hindexed.mem_allKeys).mono hw.fits ?_
    rintro es w' ⟨hremoves, hsize⟩
    have hperm := hremoves.perm hs hd
    refine ⟨hperm, hw.next hremoves (fun k e he hi => ?_) hsize hperm⟩
    exact (hindexed.mem_allKeys k).2 ⟨e.image, hi, e, he, rfl⟩
  · rintro parts v₁ ⟨hparts, hcleared⟩
    have htiles := hcleared.tiles_eq
    have hb := hcleared.becomes
    have hempty : v₁.entries = [] := (htiles ▸ hb.sound.shelf : Shelf _ _).eq_nil
    have hperm := perm_of_series hparts
    rw [hempty, List.append_nil] at hperm
    refine (dismiss_meets parts.flatten v₁).imp ?_
    rintro _ v' ⟨rfl, hs, hl⟩
    exact ⟨parts.flatten, rfl, hperm.symm, .of_eq (htiles ▸ hb) hs hl⟩

theorem relieve_meets (m : Moment) (h : v.Sound) :
    (relieve m).Meets v (Fits v.entries 0) fun notices v' =>
      ∃ pass : Pass, notices = pass.notices ∧ Relieves none v pass.victims v' := by
  unfold relieve
  rw [Mutation.meets_bind]
  exact (evict_meets m none h).imp fun pass v' hpass => ⟨pass, rfl, hpass⟩

end TileStore.Sharded
