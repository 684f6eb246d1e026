import TileStore.Proofs.Abstraction

/-!
# What a cache does

Every request in one theorem, `Request.perform_meets`: what a sound cache answers, that it stays
sound, and, while its sums are exact and there is room for what is to be cached, that there is no
fault and that its contents change as `Contents.Serves` says.
-/

namespace TileStore

variable {m : Moment} {safe : Prop}

/-! ### States of a cache -/

namespace Cache

variable {c c' : Cache} {f : Ledger → Ledger}

/-- The store is valid and the ledger charges exactly its entries. -/
def Sound : Cache → Prop
  | linked v => v.Sound
  | sharded v => v.Sound

/-- The sums are exact, and will be as long as there is room. -/
def Exact : Cache → Prop
  | linked v => v.Exact
  | sharded v => v.Exact

/-- What a cache holds for its users. -/
def contents (c : Cache) : Contents := ⟨fun t => c.get? t.key, c.ledger.memoryUsed.toNat⟩

/-- There is room for each entry of a batch in turn. -/
def RoomForAll (m : Moment) (owner : Owner) (tiles : List (Position × Payload × Option Binary64)) :
    Cache → Prop
  | linked v => v.RoomForAll (Linked.write m) m owner tiles
  | sharded v => v.RoomForAll Sharded.write m owner tiles

/-- For every entry that a request writes, the sum of all sizes and what the entry takes fits in a
word. -/
def HasRoom (m : Moment) (c : Cache) : Request Owner Identity → Prop
  | .add _ _ payload _ =>
    total c.entries + (payload.footprint.toNat + c.ledger.overhead.toNat) < 2 ^ 64
  | .addBatch owner points payloads costs =>
    ∀ tiles, Aligned points payloads costs tiles → c.RoomForAll m owner tiles
  | _ => True

instance decidableRoomForAll (m : Moment) (owner : Owner)
    (tiles : List (Position × Payload × Option Binary64)) :
    (c : Cache) → Decidable (c.RoomForAll m owner tiles)
  | linked v => inferInstanceAs (Decidable (v.RoomForAll ..))
  | sharded v => inferInstanceAs (Decidable (v.RoomForAll ..))

/-- Whether there is room can be computed, a batch entry by entry. -/
instance decidableHasRoom (m : Moment) (c : Cache) :
    (r : Request Owner Identity) → Decidable (c.HasRoom m r)
  | .add .. => inferInstanceAs (Decidable (_ < _))
  | .addBatch owner points payloads costs =>
    match hp : pairUp points payloads costs with
    | .ok tiles => decidable_of_iff (c.RoomForAll m owner tiles) (by
        have haligned := pairUp_eq_ok_iff.1 hp
        constructor
        · intro hr _ ht
          rwa [haligned.unique ht]
        · exact fun hr => hr tiles haligned)
    | .error _ => isTrue fun _ ht => nomatch hp.symm.trans (pairUp_of_aligned ht)
  | .get .. | .getAll .. | .tilesOf .. | .contains .. | .remove .. | .removeImage .. | .flush
  | .relieve | .setCapacity .. | .setThreshold .. | .enable | .disable | .reset | .report | .list =>
    isTrue trivial

theorem Sound.editLedger (h : c.Sound) (hf : c.ledger.Retuned (f c.ledger)) :
    (c.editLedger f).Sound := by
  cases c with
  | linked v => exact ⟨h.valid, h.balanced.retuned hf⟩
  | sharded v => exact ⟨h.valid, h.balanced.retuned hf⟩

theorem Exact.editLedger (h : c.Exact) (hf : c.ledger.Retuned (f c.ledger)) :
    (c.editLedger f).Exact := by
  have hoverhead : (f c.ledger).overhead = c.ledger.overhead := by rw [hf]
  cases c with
  | linked v => exact ⟨h.fits, hoverhead ▸ h.overhead⟩
  | sharded v => exact ⟨h.fits, hoverhead ▸ h.overhead⟩

theorem contents_editLedger (hf : c.ledger.Retuned (f c.ledger)) :
    (c.editLedger f).contents = c.contents := by
  have hused : (f c.ledger).memoryUsed = c.ledger.memoryUsed := by rw [hf]
  cases c with
  | linked v => exact Contents.ext rfl (congrArg UInt64.toNat hused)
  | sharded v => exact Contents.ext rfl (congrArg UInt64.toNat hused)

@[simp] theorem ledger_editLedger (c : Cache) (f : Ledger → Ledger) :
    (c.editLedger f).ledger = f c.ledger := by cases c <;> rfl

end Cache

/-! ### Outcomes -/

/-- What became of a vault: it is sound, it goes by the same bounds, and, if that was safe, its sums
are exact and its contents as they should be. -/
structure Vault.Outcome {σ : Type} [Shelved σ] (v : Vault σ) (safe : Prop) (P : Contents → Prop)
    (v' : Vault σ) : Prop where
  sound : v'.Sound
  bounds : v.ledger.SameBounds v'.ledger
  exact : safe → v'.Exact
  holds : safe → P v'.contents

/-- What became of a cache. -/
structure Cache.Outcome (c : Cache) (safe : Prop) (P : Contents → Prop) (c' : Cache) : Prop where
  sound : c'.Sound
  bounds : c.ledger.SameBounds c'.ledger
  exact : safe → c'.Exact
  holds : safe → P c'.contents

namespace Vault

variable {σ : Type} [Shelved σ] {v v₁ v' : Vault σ} {P Q : Contents → Prop} {es : List Entry}

theorem Outcome.linked {v v' : Linked} (h : v.Outcome safe P v') :
    (Cache.linked v).Outcome safe P (.linked v') := ⟨h.sound, h.bounds, h.exact, h.holds⟩

theorem Outcome.sharded {v v' : Sharded} (h : v.Outcome safe P v') :
    (Cache.sharded v).Outcome safe P (.sharded v') := ⟨h.sound, h.bounds, h.exact, h.holds⟩

/-- What holds the same lists the same. -/
theorem Keeps.outcome (hv : v.Sound) (h : v.Keeps v') : v.Outcome v.Exact (· = v.contents) v' where
  sound := h.sound
  bounds := by
    rw [h.ledger]
    exact ⟨rfl, rfl⟩
  exact hx := ⟨hx.fits.perm (hv.shelf.perm (h.tiles ▸ h.sound.shelf)), by
    rw [h.ledger]
    exact hx.overhead⟩
  holds _ := h.contents

/-- A write of the entry made last, with the pass that it sets off. -/
theorem Writes.outcome {owner : Owner} {p : Position} {payload : Payload} {cost : Option Binary64}
    {e : Entry} (hv : v.Sound) (hn : v.Numbered 1 v₁) (hw : v₁.Writes e es v')
    (he : e = v.upcoming owner p payload cost) :
    v.Outcome (v.Exact ∧ v.RoomFor e)
      (fun k => (v.contents.put e).Restored v.ledger e es k) v' := by
  have hv₁ := hn.sound hv
  have hproper : e.Proper := he ▸ Entry.proper_new ..
  have hadmits : v.Exact ∧ v.RoomFor e → v₁.Admits e := fun hs =>
    hn.admits (hs.1.admits hs.2 (he ▸ rfl))
  refine ⟨hw.sound, hn.sameBounds.trans hw.recharged.sameBounds,
    fun hs => hw.exact hv₁ (hn.exact hs.1) hproper (hadmits hs), fun hs => ?_⟩
  obtain ⟨v₂, hb, hr⟩ := hw
  rw [← hn.contents, ← contents_put hv₁ (hadmits hs) hproper hb]
  exact hr.restored hb.sound (hb.fits_put hv₁ hproper (hadmits hs)) hproper
    (hn.sameBounds.trans hb.recharged.sameBounds)

theorem Relieves.outcome (hv : v.Sound) (h : Relieves none v es v') :
    v.Outcome v.Exact (fun k => v.contents.Sheds v.ledger.target.toNat none es k) v' := by
  have hb := h.evicts.becomes
  have hpass : Relieves ((none : Option Tile).map Tile.key) v es v' := h
  exact ⟨hb.sound, hb.recharged.sameBounds, fun hx => hx.of_perm (h.evicts.perm hv) hb.recharged,
    fun hx => hpass.sheds hv hx.fits⟩

theorem outcome_drop {t : Tile} (hv : v.Sound) (h : v.Becomes (v.tiles.drop t.key) v') :
    v.Outcome v.Exact (· = v.contents.drop t) v' := by
  have hsplit : v.entries.Perm ((v.tiles t.key).toList ++ v'.entries) :=
    (hv.shelf.perm_split t.key).trans
      (((h.tiles ▸ hv.shelf.drop t.key : Shelf v'.tiles _).perm h.sound.shelf).append_left _)
  exact ⟨h.sound, h.recharged.sameBounds, fun hx => hx.of_perm hsplit h.recharged,
    fun hx => contents_drop hv hx.fits h⟩

theorem Removes.outcome {ks : List TileKey} (hv : v.Sound) (h : v.Removes ks es v')
    (hd : ks.Nodup) : v.Outcome v.Exact (· = v.contents.without es) v' :=
  ⟨h.becomes.sound, h.becomes.recharged.sameBounds,
    fun hx => hx.of_perm (h.perm hv hd) h.becomes.recharged, fun hx => h.contents hv hx.fits hd⟩

theorem outcome_empty (h : v.Becomes (fun _ => none) v') :
    v.Outcome v.Exact (· = .empty) v' := by
  refine ⟨h.sound, h.recharged.sameBounds, fun hx => ?_, fun _ => contents_empty h⟩
  have hp : v.entries.Perm (v.entries ++ v'.entries) := by
    rw [h.entries_eq_nil, List.append_nil]
  exact hx.of_perm hp h.recharged

end Vault

/-! ### Computations of a cache -/

namespace Cache

variable {c c' : Cache} {P Q : Contents → Prop}

theorem Outcome.mono {safe' : Prop} (h : c.Outcome safe P c') (hs : safe' → safe)
    (hp : ∀ k, P k → Q k) : c.Outcome safe' Q c' :=
  ⟨h.sound, h.bounds, fun hsafe => h.exact (hs hsafe), fun hsafe => hp _ (h.holds (hs hsafe))⟩

theorem Outcome.refl (h : c.Sound) : c.Outcome c.Exact (· = c.contents) c :=
  ⟨h, ⟨rfl, rfl⟩, id, fun _ => rfl⟩

variable {α : Type} {onLinked : Mutation Linked α} {onSharded : Mutation Sharded α}
  {R : α → Cache → Prop}

@[simp] theorem meets_byLayout_linked {v : Linked} :
    (byLayout onLinked onSharded).Meets (linked v) safe R ↔
      onLinked.Meets v safe fun a v' => R a (linked v') := by
  have hrun : (byLayout onLinked onSharded).result (linked v) =
      ((onLinked.result v).1, linked (onLinked.result v).2) := rfl
  unfold Mutation.Meets
  rw [hrun]
  rcases onLinked.result v with ⟨_ | a, v'⟩ <;> rfl

@[simp] theorem meets_byLayout_sharded {v : Sharded} :
    (byLayout onLinked onSharded).Meets (sharded v) safe R ↔
      onSharded.Meets v safe fun a v' => R a (sharded v') := by
  have hrun : (byLayout onLinked onSharded).result (sharded v) =
      ((onSharded.result v).1, sharded (onSharded.result v).2) := rfl
  unfold Mutation.Meets
  rw [hrun]
  rcases onSharded.result v with ⟨_ | a, v'⟩ <;> rfl

theorem add_meets (owner : Owner) (p : Position) (payload : Payload) (cost : Option Binary64)
    (h : c.Sound) :
    (add m owner p payload cost).Meets c (c.Exact ∧ c.HasRoom m (.add owner p payload cost))
      fun notices c' => c.Outcome (c.Exact ∧ c.HasRoom m (.add owner p payload cost))
        (fun k =>
          let e := Entry.new owner p payload cost c.ledger.overhead c.ledger.nextSeq
          (c.contents.put e).Restored c.ledger e (Notice.victims notices) k) c' := by
  cases c with
  | linked v =>
    refine meets_byLayout_linked.2 ((Linked.add_meets m owner p payload cost h).imp ?_)
    intro notices v' ⟨v₁, w, hn, he, hnotices, hw, _, _⟩
    have hvictims : Notice.victims notices = w.pass.victims := by
      simp [hnotices, Linked.Written.notices]
    rw [hvictims, he] at *
    exact (hw.outcome h hn rfl).linked
  | sharded v =>
    refine meets_byLayout_sharded.2 ((Sharded.add_meets m owner p payload cost h).imp ?_)
    intro notices v' ⟨v₁, pass, replaced, hn, hnotices, hw, _⟩
    have hvictims : Notice.victims notices = pass.victims := by simp [hnotices]
    rw [hvictims]
    exact (hw.outcome h hn rfl).sharded

theorem lookup_meets (image : Identity) (p : Position) (h : c.Sound) :
    (lookup m image p).Meets c safe fun found c' =>
      found = c.contents.get? (image, p) ∧ c.Outcome c.Exact (· = c.contents) c' := by
  cases c with
  | linked v =>
    refine meets_byLayout_linked.2 ((Linked.get?_meets m _ h).imp ?_)
    exact fun found v' ⟨hfound, hkeeps, _⟩ => ⟨hfound, (hkeeps.outcome h).linked⟩
  | sharded v =>
    refine meets_byLayout_sharded.2 ((Sharded.get?_meets m _ h).imp ?_)
    exact fun found v' ⟨hfound, hkeeps⟩ => ⟨hfound, (hkeeps.outcome h).sharded⟩

theorem lookupAll_meets (image : Identity) (points : List Position) (h : c.Sound) :
    (lookupAll m image points).Meets c safe fun found c' =>
      found = points.map (fun p => c.contents.get? (image, p)) ∧
        c.Outcome c.Exact (· = c.contents) c' := by
  cases c with
  | linked v =>
    refine meets_byLayout_linked.2 ((Linked.getAll_meets m _ h).imp ?_)
    intro found v' ⟨hfound, hkeeps⟩
    rw [List.map_map] at hfound
    exact ⟨hfound, (hkeeps.outcome h).linked⟩
  | sharded v =>
    refine meets_byLayout_sharded.2 ((Sharded.getAll_meets m _ h).imp ?_)
    intro found v' ⟨hfound, hkeeps⟩
    rw [List.map_map] at hfound
    exact ⟨hfound, (hkeeps.outcome h).sharded⟩

theorem remove_meets (image : Identity) (p : Position) (h : c.Sound) :
    (remove image p).Meets c c.Exact fun x c' =>
      x.1 = c.contents.get? (image, p) ∧ Notice.victims x.2 = [] ∧
        c.Outcome c.Exact (· = c.contents.drop (image, p)) c' := by
  have hvictims : ∀ found : Option Entry,
      Notice.victims (found.elim [] fun e => Notice.removed [e]) = [] := by
    intro found
    rcases found with _ | e
    · rfl
    · exact Notice.victims_removed [e]
  cases c with
  | linked v =>
    refine meets_byLayout_linked.2 ((Linked.remove_meets _ h).mono Vault.Exact.fits ?_)
    rintro _ v' ⟨rfl, hb, -⟩
    exact ⟨rfl, hvictims _, (Vault.outcome_drop (t := (image, p)) h hb).linked⟩
  | sharded v =>
    have hshelf := Vault.Sound.shelf h
    have himage : ∀ e, v.tiles (.of image p) = some e → e.image = .of image := fun e he =>
      ((hshelf.proper he).image_eq (hshelf.key he)).1
    refine meets_byLayout_sharded.2 ((Sharded.remove_meets h himage).mono Vault.Exact.fits ?_)
    rintro _ v' ⟨rfl, hb⟩
    exact ⟨rfl, hvictims _, (Vault.outcome_drop (t := (image, p)) h hb).sharded⟩

theorem removeImage_meets (image : Identity) (h : c.Sound) :
    (removeImage image).Meets c c.Exact fun x c' => ∃ es,
      c.contents.Lists (·.1 = image) es ∧ x.1 = es.length ∧ Notice.victims x.2 = [] ∧
        c.Outcome c.Exact (· = c.contents.without es) c' := by
  cases c with
  | linked v =>
    refine meets_byLayout_linked.2 ((Linked.removeImage_meets image h).mono Vault.Exact.fits ?_)
    rintro _ v' ⟨es, rfl, hr, -⟩
    exact ⟨es, hr.lists h, rfl, Notice.victims_removed_log es _,
      (hr.outcome h (Shelved.nodup_keysOf (Vault.Sound.valid h) _)).linked⟩
  | sharded v =>
    refine meets_byLayout_sharded.2 ((Sharded.removeImage_meets image h).mono Vault.Exact.fits ?_)
    rintro _ v' ⟨es, rfl, hr⟩
    exact ⟨es, hr.lists h, rfl, Notice.victims_removed_log es _,
      (hr.outcome h (Shelved.nodup_keysOf (Vault.Sound.valid h) _)).sharded⟩

theorem flush_meets (h : c.Sound) :
    flush.Meets c c.Exact fun notices c' => Notice.victims notices = [] ∧
      c.Outcome c.Exact (· = .empty) c' := by
  cases c with
  | linked v =>
    refine meets_byLayout_linked.2 ((Linked.flush_meets h).mono Vault.Exact.fits ?_)
    rintro _ v' ⟨es, rfl, -, hb⟩
    exact ⟨Notice.victims_removed_log es _, (Vault.outcome_empty hb).linked⟩
  | sharded v =>
    refine meets_byLayout_sharded.2 ((Sharded.flush_meets h).mono Vault.Exact.fits ?_)
    rintro _ v' ⟨es, rfl, -, hb⟩
    exact ⟨Notice.victims_removed_log es _, (Vault.outcome_empty hb).sharded⟩

theorem relieve_meets (m : Moment) (h : c.Sound) :
    (relieve m).Meets c c.Exact fun notices c' => c.Outcome c.Exact
      (c.contents.Sheds c.ledger.target.toNat none (Notice.victims notices)) c' := by
  have hvictims : ∀ pass : Vault.Pass, Notice.victims pass.notices = pass.victims := by
    simp [Vault.Pass.notices]
  cases c with
  | linked v =>
    refine meets_byLayout_linked.2 ((Linked.relieve_meets m h).mono Vault.Exact.fits ?_)
    rintro _ v' ⟨pass, rfl, hr, -⟩
    rw [hvictims]
    exact (hr.outcome h).linked
  | sharded v =>
    refine meets_byLayout_sharded.2 ((Sharded.relieve_meets m h).mono Vault.Exact.fits ?_)
    rintro _ v' ⟨pass, rfl, hr⟩
    rw [hvictims]
    exact (hr.outcome h).sharded

/-- A batch that is accepted. -/
theorem writeAll_meets (owner : Owner) (tiles : List (Position × Payload × Option Binary64))
    (h : c.Sound) (hsafe : safe → c.Exact ∧ c.RoomForAll m owner tiles) :
    (byLayout (Linked.addBatch m owner tiles) (Sharded.addBatch m owner tiles)).Meets c safe
      fun notices c' => c.Outcome safe (Contents.Batched c.layout c.ledger
        (Vault.madeFrom owner c.ledger.overhead c.ledger.nextSeq tiles) c.contents
        (Notice.victims notices)) c' := by
  have hproper : ∀ e ∈ Vault.madeFrom owner c.ledger.overhead c.ledger.nextSeq tiles, e.Proper :=
    fun _ he => (Vault.of_mem_madeFrom he).1
  cases c with
  | linked v =>
    refine meets_byLayout_linked.2 ((Linked.addBatch_meets m owner tiles h).mono hsafe ?_)
    intro notices v' ⟨v₁, ws, hn, hnotices, hseries, hsound, hexact⟩
    have hvictims : Notice.victims notices = ws.flatMap (·.pass.victims) := by
      simp [hnotices, Notice.victims_flatMap, Linked.Written.notices]
    obtain ⟨hbatch, hbounds⟩ := Linked.restoredEach hseries (hn.sound h) hproper hn.sameBounds
    rw [hn.contents, ← hvictims] at hbatch
    exact ⟨hsound, hbounds, fun hs => hexact (hsafe hs), fun hs => hbatch (hsafe hs)⟩
  | sharded v =>
    refine meets_byLayout_sharded.2 ((Sharded.addBatch_meets m owner tiles h).mono hsafe ?_)
    intro notices v' ⟨v₁, v₂, ws, hn, hseries, hsound, hexact, hlast⟩
    obtain ⟨hputs, hbounds⟩ := Sharded.contents_of_puts hseries (hn.sound h) hproper hn.sameBounds
    rw [hn.contents] at hputs
    rcases hg : (Vault.madeFrom owner v.ledger.overhead v.ledger.nextSeq tiles).getLast? with _ | last
    · simp only [hg] at hlast
      obtain ⟨rfl, rfl⟩ := hlast
      refine ⟨hsound, hbounds, fun hs => hexact (hsafe hs), fun hs => ?_⟩
      have hputs := hputs (hsafe hs)
      rw [List.getLast?_eq_none_iff.1 hg] at hputs
      simp only [Contents.Batched, layout, ledger, hg]
      exact ⟨rfl, hputs⟩
    · simp only [hg] at hlast
      obtain ⟨pass, hr, hnotices⟩ := hlast
      have hvictims : Notice.victims notices = pass.victims := by
        simp [hnotices, Notice.victims_flatMap]
      have hb := hr.becomes hsound
      refine ⟨hb.sound, hbounds.trans hb.recharged.sameBounds,
        fun hs => (hexact (hsafe hs)).of_perm (hr.perm hsound) hb.recharged, fun hs => ?_⟩
      simp only [Contents.Batched, layout, ledger, hg]
      rw [hvictims]
      have hcontents := hr.restored hsound (hexact (hsafe hs)).fits
        (hproper last (List.mem_of_getLast? hg)) hbounds
      rwa [hputs (hsafe hs)] at hcontents

theorem addBatch_meets (owner : Owner) (points : List Position) (payloads : List Payload)
    (costs : Option (List Binary64)) (h : c.Sound)
    (hsafe : safe → c.Exact ∧ c.HasRoom m (.addBatch owner points payloads costs)) :
    (addBatch m owner points payloads costs).Meets c safe fun x c' =>
      (∃ e, (.addBatch owner points payloads costs : Request Owner Identity).Refused e ∧
        x = .error e ∧ c' = c) ∨
      ∃ tiles notices, Aligned points payloads costs tiles ∧ x = .ok notices ∧
        c.Outcome safe (Contents.Batched c.layout c.ledger
          (Vault.madeFrom owner c.ledger.overhead c.ledger.nextSeq tiles) c.contents
          (Notice.victims notices)) c' := by
  obtain ⟨e, hrefused, hbatch⟩ | ⟨tiles, htiles, hbatch⟩ :=
    addBatch_eq m owner points payloads costs
  · rw [hbatch]
    exact .inl ⟨e, hrefused, rfl, rfl⟩
  · rw [hbatch]
    refine Mutation.meets_map.2 ((writeAll_meets owner tiles h fun hs => ?_).imp ?_)
    · obtain ⟨hx, hroom⟩ := hsafe hs
      exact ⟨hx, hroom tiles htiles⟩
    · exact fun notices c' ho => .inr ⟨tiles, notices, htiles, rfl, ho⟩

theorem setCapacity_meets (bytes : UInt64) (h : c.Sound) :
    (setCapacity m bytes).Meets c c.Exact fun x c' =>
      match c.ledger.setCapacity bytes with
      | .error r => x = .error r ∧ c' = c
      | .ok l => ∃ notices, x = .ok notices ∧ (c.editLedger fun _ => l).Outcome c.Exact
          (fun k => if l.isOverCapacity then
            c.contents.Sheds l.target.toNat none (Notice.victims notices) k
          else c.contents.Stays (Notice.victims notices) k) c' := by
  unfold setCapacity
  rw [Mutation.meets_bind, Mutation.meets_get]
  rcases hl : c.ledger.setCapacity bytes with r | l
  · exact ⟨rfl, rfl⟩
  · have hretuned : c.ledger.Retuned l := Ledger.retuned_of_setCapacity hl
    have hsound := h.editLedger (f := fun _ => l) hretuned
    have hcontents := contents_editLedger (f := fun _ => l) hretuned
    rw [Mutation.meets_bind, Mutation.meets_set]
    dsimp only
    split
    · next hover =>
      rw [Mutation.meets_bind]
      refine (relieve_meets m hsound).mono (fun hx => hx.editLedger hretuned) ?_
      intro notices c' ho
      rw [hcontents, ledger_editLedger] at ho
      exact ⟨_, rfl, ho.mono (fun hx => hx.editLedger hretuned) fun _ => id⟩
    · next hover =>
      exact ⟨_, rfl, (Outcome.refl hsound).mono (fun hx => hx.editLedger hretuned)
        fun k hk => ⟨rfl, hk.trans hcontents⟩⟩

end Cache

/-! ### Requests -/

namespace Request

variable {c c' : Cache} {r : Request Owner Identity}

/-- The ledger with the settings that a request leaves. -/
def rebound (l : Ledger) : Request Owner Identity → Ledger
  | setCapacity bytes => (l.setCapacity bytes).toOption.getD l
  | setThreshold t => (l.setThreshold t).toOption.getD l
  | _ => l

/-- A request was answered: the cache is sound and goes by the bounds that it should, and, if its
sums were exact and there was room, it serves its users. -/
structure Answered (m : Moment) (r : Request Owner Identity) (c : Cache) (x : Reply × List Notice)
    (c' : Cache) : Prop where
  sound : c'.Sound
  bounds : (r.rebound c.ledger).SameBounds c'.ledger
  exact : c.Exact ∧ c.HasRoom m r → c'.Exact
  serves : c.Exact ∧ c.HasRoom m r → c.contents.Serves c.layout c.ledger (c'.sight m) r x.1
    (Notice.victims x.2) c'.contents

/-- Where the settings stay, the outcome decides. -/
theorem Answered.of_outcome {P : Contents → Prop} {x : Reply × List Notice}
    (hr : r.rebound c.ledger = c.ledger) (h : c.Outcome (c.Exact ∧ c.HasRoom m r) P c')
    (hp : ∀ k, P k → c.contents.Serves c.layout c.ledger (c'.sight m) r x.1 (Notice.victims x.2) k) :
    r.Answered m c x c' where
  sound := h.sound
  bounds := by
    rw [hr]
    exact h.bounds
  exact := h.exact
  serves hs := hp _ (h.holds hs)

/-- What leaves the cache as it is. -/
theorem answered_self {x : Reply × List Notice} (h : c.Sound) (hr : r.rebound c.ledger = c.ledger)
    (hx : c.contents.Serves c.layout c.ledger (c.sight m) r x.1 (Notice.victims x.2) c.contents) :
    r.Answered m c x c :=
  .of_outcome hr ((Cache.Outcome.refl h).mono And.left fun _ => id) fun _ hk => hk ▸ hx

theorem editCounters_meets {f : Counters → Counters} (h : c.Sound)
    (hr : r.rebound c.ledger = c.ledger)
    (hx : ∀ k, c.contents.Stays [] k → ∀ c' : Cache,
      c.contents.Serves c.layout c.ledger (c'.sight m) r .done [] k) :
    (editCounters f).Meets c safe fun x c' => r.Answered m c x c' := by
  unfold editCounters
  rw [Mutation.meets_bind, Mutation.meets_modify]
  let g : Ledger → Ledger := fun l => { l with counters := f l.counters }
  have hretuned : c.ledger.Retuned (g c.ledger) := rfl
  refine ⟨h.editLedger hretuned, ?_, fun hs => hs.1.editLedger hretuned, fun hs => hx _ ?_ _⟩
  · rw [hr, Cache.ledger_editLedger]
    exact ⟨rfl, rfl⟩
  · exact ⟨rfl, Cache.contents_editLedger hretuned⟩

theorem setCapacity_answered (bytes : UInt64) (h : c.Sound) :
    (Cache.setCapacity m bytes).Meets c c.Exact fun x c' =>
      (setCapacity bytes).Answered m c (answer x) c' := by
  refine (Cache.setCapacity_meets bytes h).imp fun x c' hx => ?_
  rw [Ledger.setCapacity_eq] at hx
  by_cases hzero : bytes = 0
  · rw [if_pos hzero] at hx
    obtain ⟨rfl, rfl⟩ := hx
    have hrebound : (setCapacity bytes).rebound c'.ledger = c'.ledger := by
      rw [rebound, Ledger.setCapacity_eq, if_pos hzero]
      rfl
    refine answered_self h hrebound ⟨?_, ?_⟩
    · have hreplies := replies_setCapacity (ο := Owner) (ι := Identity) bytes
      rwa [if_pos hzero] at hreplies
    · rw [if_neg fun hc => hc.1 hzero]
      exact ⟨rfl, rfl⟩
  · rw [if_neg hzero] at hx
    obtain ⟨notices, rfl, ho⟩ := hx
    refine ⟨ho.sound, ?_, fun hs => ho.exact hs.1, fun hs => ⟨?_, ?_⟩⟩
    · rw [rebound, Ledger.setCapacity_eq, if_neg hzero]
      have hbounds := ho.bounds
      rwa [Cache.ledger_editLedger] at hbounds
    · have hreplies := replies_setCapacity (ο := Owner) (ι := Identity) bytes
      rwa [if_neg hzero] at hreplies
    · have hholds := ho.holds hs.1
      simp only [Ledger.isOverCapacity, decide_eq_true_iff, UInt64.lt_iff_toNat_lt] at hholds
      simp only [ne_eq, hzero, not_false_eq_true, true_and]
      exact hholds

theorem setThreshold_answered (t : Binary64) (h : c.Sound) :
    (Cache.setThreshold t).Meets c safe fun x c' =>
      (setThreshold t).Answered m c (answer x) c' := by
  unfold Cache.setThreshold
  rw [Mutation.meets_bind, Mutation.meets_get, Ledger.setThreshold_eq]
  by_cases hfraction : t.isFraction
  · rw [if_pos hfraction]
    let l : Ledger := { c.ledger with threshold := t }
    have hretuned : c.ledger.Retuned l := rfl
    refine ⟨h.editLedger (f := fun _ => l) hretuned, ?_,
      fun hs => hs.1.editLedger (f := fun _ => l) hretuned, fun _ => ⟨?_, rfl, ?_⟩⟩
    · rw [rebound, Ledger.setThreshold_eq, if_pos hfraction, Cache.ledger_editLedger]
      exact ⟨rfl, rfl⟩
    · have hreplies := replies_setThreshold (ο := Owner) (ι := Identity) t
      rwa [if_pos hfraction] at hreplies
    · exact Cache.contents_editLedger (f := fun _ => l) hretuned
  · rw [if_neg hfraction]
    have hrebound : (setThreshold t).rebound c.ledger = c.ledger := by
      rw [rebound, Ledger.setThreshold_eq, if_neg hfraction]
      rfl
    refine answered_self h hrebound ⟨?_, rfl, rfl⟩
    have hreplies := replies_setThreshold (ο := Owner) (ι := Identity) t
    rwa [if_neg hfraction] at hreplies

/-- Every request is answered, and with exact sums and room there is no fault. -/
theorem perform_meets (m : Moment) (r : Request Owner Identity) (h : c.Sound) :
    (r.perform m).Meets c (c.Exact ∧ c.HasRoom m r) fun x c' => r.Answered m c x c' := by
  cases r with
  | add owner p payload cost =>
    refine Mutation.meets_bind.2 ((Cache.add_meets owner p payload cost h).imp fun ns c' ho => ?_)
    exact .of_outcome rfl ho fun k hk => ⟨rfl, ⟨rfl, rfl, rfl⟩, hk⟩
  | addBatch owner points payloads costs =>
    refine Mutation.meets_map.2 ((Cache.addBatch_meets owner points payloads costs h id).imp ?_)
    rintro x c' (⟨e, he, rfl, rfl⟩ | ⟨tiles, notices, htiles, rfl, ho⟩)
    · exact answered_self h rfl (.inl ⟨e, he, rfl, rfl, rfl⟩)
    · exact .of_outcome rfl ho fun k hk =>
        .inr ⟨tiles, htiles, rfl, Contents.carry_madeFrom htiles _, hk⟩
  | get image p =>
    refine Mutation.meets_bind.2 ((Cache.lookup_meets image p h).imp ?_)
    rintro _ c' ⟨rfl, ho⟩
    exact .of_outcome rfl (ho.mono And.left fun _ => id) fun k hk => ⟨rfl, rfl, hk⟩
  | getAll image points =>
    refine Mutation.meets_bind.2 ((Cache.lookupAll_meets image points h).imp ?_)
    rintro _ c' ⟨rfl, ho⟩
    refine .of_outcome rfl (ho.mono And.left fun _ => id) fun k hk => ⟨?_, rfl, hk⟩
    rw [List.map_map]
    rfl
  | tilesOf image =>
    refine answered_self h rfl ⟨⟨c.entriesOf (.of image), ?_, rfl⟩, rfl, rfl⟩
    cases c with
    | linked v => exact Vault.lists_entriesOf h image
    | sharded v => exact Vault.lists_entriesOf h image
  | contains image p => exact answered_self h rfl ⟨rfl, rfl, rfl⟩
  | remove image p =>
    refine Mutation.meets_bind.2 ((Cache.remove_meets image p h).mono And.left ?_)
    rintro ⟨_, ns⟩ c' ⟨rfl, hvictims, ho⟩
    exact .of_outcome rfl (ho.mono And.left fun _ => id) fun k hk => ⟨rfl, hvictims, hk⟩
  | removeImage image =>
    refine Mutation.meets_bind.2 ((Cache.removeImage_meets image h).mono And.left ?_)
    rintro ⟨_, ns⟩ c' ⟨es, hes, rfl, hvictims, ho⟩
    exact .of_outcome rfl (ho.mono And.left fun _ => id) fun k hk => ⟨es, hes, rfl, hvictims, hk⟩
  | flush =>
    refine Mutation.meets_bind.2 ((Cache.flush_meets h).mono And.left ?_)
    rintro ns c' ⟨hvictims, ho⟩
    exact .of_outcome rfl (ho.mono And.left fun _ => id) fun k hk => ⟨rfl, hvictims, hk⟩
  | relieve =>
    refine Mutation.meets_bind.2 ((Cache.relieve_meets m h).mono And.left ?_)
    intro ns c' ho
    exact .of_outcome rfl (ho.mono And.left fun _ => id) fun k hk => ⟨rfl, hk⟩
  | setCapacity bytes =>
    exact Mutation.meets_map.2 ((setCapacity_answered bytes h).mono And.left fun _ _ => id)
  | setThreshold t => exact Mutation.meets_map.2 (setThreshold_answered t h)
  | enable => exact editCounters_meets h rfl fun k hk _ => ⟨rfl, hk⟩
  | disable => exact editCounters_meets h rfl fun k hk _ => ⟨rfl, hk⟩
  | reset => exact editCounters_meets h rfl fun k hk _ => ⟨rfl, hk⟩
  | report => exact answered_self h rfl ⟨⟨_, rfl⟩, rfl, rfl⟩
  | list =>
    refine answered_self h rfl ⟨⟨c.entries, ?_, rfl⟩, rfl, rfl⟩
    cases c with
    | linked v => exact Vault.lists_entries h
    | sharded v => exact Vault.lists_entries h

end Request

end TileStore
