import TileStore.Proofs.Refinement

/-!
# Eviction passes converge and do not overshoot

An eviction pass on any cache that can come about, with any capacity and threshold in force and
any key protected: `eviction_converges`. It ends at the target, or with nothing left but what is
protected, and each of its victims was needed to get there. A search of a sharded cache, although it
looks at a few shards and a few entries of each only, finds a victim if there is one: the shards it
probes are different and hold something, and the protected tile is in one of them at most.
-/

namespace TileStore

variable {protect : Option TileKey} {victims : List Entry}

/-! ### What a pass does -/

/-- What there is to see of a cache. -/
structure Showing where
  ledger : Ledger
  entries : List Entry
  get? : TileKey → Option Entry
  /-- The keys that are catalogued for an image. -/
  keysOf : ImageKey → List TileKey

/-- A pass as it should be, with its victims. -/
structure Relieved (protect : Option TileKey) (s : Showing) (victims : List Entry) (s' : Showing) :
    Prop where
  /-- The target is met, or nothing is left that may go. -/
  settled : s'.ledger.memoryUsed ≤ s.ledger.target ∨ ∀ e ∈ s'.entries, some e.key = protect
  spared : ∀ e ∈ victims, some e.key ≠ protect
  nodup : victims.Nodup
  found : ∀ e ∈ victims, s.get? e.key = some e
  gone : ∀ e ∈ victims, s'.get? e.key = none ∧ ∀ image, e.key ∉ s'.keysOf image
  /-- Everything else is left. -/
  perm : s.entries.Perm (victims ++ s'.entries)
  /-- Before each victim went, more was in use than the target. -/
  needed : ∀ before e after, victims = before ++ e :: after →
    s.ledger.target.toNat + total before < s.ledger.memoryUsed.toNat
  freed : s'.ledger.memoryUsed.toNat + total victims = s.ledger.memoryUsed.toNat

namespace Vault

variable {σ : Type} [Shelved σ] {v v' : Vault σ}

/-- What there is to see of a vault. -/
def showing (v : Vault σ) : Showing := ⟨v.ledger, v.entries, v.tiles, Shelved.keysOf v.store⟩

/-- While a pass goes on, what is in use and what has gone add up. -/
theorem Evicts.used_add {target : UInt64} (hv : v.Sound) (hf : Fits v.entries 0)
    (h : Evicts protect target v victims v') :
    v'.ledger.memoryUsed.toNat + total victims = v.ledger.memoryUsed.toNat := by
  have hperm := h.perm hv
  have hsum := total_perm hperm
  rw [total_append] at hsum
  rw [hv.balanced.memoryUsed_toNat hf,
    h.becomes.sound.balanced.memoryUsed_toNat (hf.perm hperm).of_append_right]
  omega

theorem Relieves.relieved (hv : v.Sound) (hf : Fits v.entries 0)
    (h : Relieves protect v victims v') : Relieved protect v.showing victims v'.showing := by
  have hb := h.evicts.becomes
  have hperm := h.evicts.perm hv
  constructor
  case settled => exact h.met hf.length_lt
  case spared => exact h.evicts.ne_protect
  case nodup => exact (List.nodup_append.1 (hperm.nodup hv.shelf.nodup)).1
  case found =>
    exact fun e he => (hv.shelf.mem e).1 (hperm.mem_iff.2 (List.mem_append_left _ he))
  case gone =>
    intro e he
    have hnone : v'.tiles e.key = none := by
      rw [hb.tiles, Tiles.dropAll, if_pos (List.mem_map_of_mem he)]
    refine ⟨hnone, fun image hk => ?_⟩
    obtain ⟨f, hf, -⟩ := (Shelved.mem_keysOf hb.sound.valid image e.key).1 hk
    cases hnone.symm.trans hf
  case perm => exact hperm
  case needed =>
    intro before e after hsplit
    obtain ⟨u, hu, htarget⟩ := (hsplit ▸ h.evicts).exists_before hv
    have hused := hu.used_add hv hf
    have htarget := UInt64.lt_iff_toNat_lt.1 htarget
    change v.ledger.target.toNat + total before < v.ledger.memoryUsed.toNat
    omega
  case freed => exact h.evicts.used_add hv hf

end Vault

namespace Cache

variable {c : Cache}

/-- What there is to see of a cache. -/
def showing (c : Cache) : Showing where
  ledger := c.ledger
  entries := c.entries
  get? := c.get?
  keysOf image :=
    match c with
    | linked c => c.store.catalogue.keys image
    | sharded c => c.store.keysOf image

/-- An eviction pass that spares an entry, if it is told one. -/
def evict (m : Moment) (protect : Option TileKey) : Mutation Cache Vault.Pass :=
  byLayout (Linked.evict m protect) (Sharded.evict m protect)

theorem evict_meets (m : Moment) (protect : Option TileKey) (h : c.Sound) :
    (evict m protect).Meets c (Fits c.entries 0) fun pass c' =>
      Fits c.entries 0 → Relieved protect c.showing pass.victims c'.showing := by
  cases c with
  | linked v =>
    refine meets_byLayout_linked.2 ((Linked.evict_meets m protect h).imp ?_)
    exact fun pass v' hr hf => hr.1.relieved h hf
  | sharded v =>
    refine meets_byLayout_sharded.2 ((Sharded.evict_meets m protect h).imp ?_)
    exact fun pass v' hr hf => hr.relieved h hf

end Cache

/-- A pass on a cache that can come about, with any capacity and threshold in force and any key
protected, ends as it should. That covers the passes that writes set off, too: where such a pass
starts, the write alone would have ended with the greatest capacity in force. In a sharded cache a
search finds nothing only if there is nothing to find, wherever the cursor and the hands are, with
four shards probed at most, all of them different and none empty, and eight entries looked at in
each. -/
theorem eviction_converges :
    (∀ c, Cache.Reaches Cache.HasRoom c → ∀ capacity threshold m protect,
      let d := c.editLedger fun l => { l with capacity := capacity, threshold := threshold }
      ∃ pass d', (Cache.evict m protect).result d = (.ok pass, d') ∧
        Relieved protect d.showing pass.victims d'.showing) ∧
    ∀ v, Cache.Reaches Cache.HasRoom (.sharded v) → ∀ cursor hands rank protect,
      let s := v.store.aimed cursor hands
      (s.pick? rank protect = none ↔ ∀ e ∈ v.store.entries, some e.key = protect) ∧
      s.probed.length ≤ 4 ∧ s.probed.Nodup ∧
      ∀ i ∈ s.probed, ¬(s.shard i).isEmpty ∧
        ((s.shard i).window ShardedStore.sampleSize).length ≤ 8 := by
  constructor
  · intro c hc capacity threshold m protect d
    have hretuned : c.ledger.Retuned { c.ledger with capacity := capacity, threshold := threshold } :=
      rfl
    have hsound : d.Sound := hc.sound.editLedger hretuned
    have hfits : Fits d.entries 0 := (hc.exact.editLedger hretuned).fits
    obtain ⟨pass, d', hresult, hrelieved⟩ := (Cache.evict_meets m protect hsound).exists_ok hfits
    exact ⟨pass, d', hresult, hrelieved hfits⟩
  · intro v hv cursor hands rank protect s
    have hvalid := (Cache.Reaches.sound hv).valid
    exact ⟨hvalid.pick?_aimed_eq_none_iff cursor hands, ShardedStore.length_probed_le s,
      (hvalid.aimed cursor hands).1.nodup_probed,
      fun i hi => ⟨ShardedStore.not_isEmpty_of_mem_probed hi, Shard.length_window_le _ _⟩⟩

/-- Four tiles, of which two have to go to come down to three quarters of eleven hundred bytes. The
cheapest is protected, so the next cheapest go. Searches that spare it find something. -/
theorem eviction_converges_sparing_cheapest :
    let m : Moment := ⟨0, fun _ => true⟩
    let samples (bytes : UInt64) : Payload := ⟨⟨8, bytes, 1⟩, 0⟩
    let batch : Request Owner Identity := .addBatch ⟨0, .hashed 1⟩ [⟨0, 0⟩, ⟨1, 0⟩, ⟨2, 0⟩, ⟨3, 0⟩]
      [samples 100, samples 101, samples 102, samples 103] (some [⟨0x3ff0000000000000⟩,
        ⟨0x4000000000000000⟩, ⟨0x4010000000000000⟩, ⟨0x4008000000000000⟩])
    let k : TileKey := .of (.hashed 1) ⟨0, 0⟩
    let full (layout : Layout) : Cache :=
      ((batch.perform m).result (.new { layout := layout } 0)).2
    let relieved (layout : Layout) : Prop :=
      let d := (full layout).editLedger fun l =>
        { l with capacity := 1100, threshold := ⟨0x3fe8000000000000⟩ }
      Cache.Reaches Cache.HasRoom (full layout) ∧ d.entries.length = 4 ∧
      ∃ pass d', (Cache.evict m (some k)).result d = (.ok pass, d') ∧
        Relieved (some k) d.showing pass.victims d'.showing ∧
        pass.victims.map (·.seq) = [1, 3] ∧ (d'.entries.map (·.seq)).Perm [0, 2]
    relieved .linked ∧ relieved .sharded ∧ ∃ v, full .sharded = .sharded v ∧
      (v.store.aimed 5 fun i => i).pick? (fun e => .of m e {}) (some k) ≠ none := by
  intro m samples batch k full relieved
  have hreaches : ∀ {layout}, (Cache.new { layout := layout } 0).HasRoom m batch →
      Cache.Reaches Cache.HasRoom (full layout) := by
    intro layout hroom
    have hbuild : Cache.build { layout := layout } 0 = .ok (.new { layout := layout } 0) := rfl
    exact (Cache.Reaches.built hbuild).next hroom
  have hrelieved : ∀ {layout}, (Cache.new { layout := layout } 0).HasRoom m batch →
      (let d := (full layout).editLedger fun l =>
        { l with capacity := 1100, threshold := ⟨0x3fe8000000000000⟩ }
      d.entries.length = 4 ∧ ((Cache.evict m (some k)).result d).1.toOption.map
        (fun pass => pass.victims.map (·.seq)) = some [1, 3] ∧
      (((Cache.evict m (some k)).result d).2.entries.map (·.seq)).Perm [0, 2]) →
      relieved layout := by
    rintro layout hroom ⟨hlength, hvictims, hleft⟩
    have hc := hreaches hroom
    obtain ⟨pass, d', hpass, hrelieved⟩ :=
      eviction_converges.1 _ hc 1100 ⟨0x3fe8000000000000⟩ m (some k)
    rw [hpass] at hvictims hleft
    exact ⟨hc, hlength, pass, d', hpass, hrelieved, Option.some.inj hvictims, hleft⟩
  refine ⟨hrelieved (by decide +kernel) (by decide +kernel),
    hrelieved (by decide +kernel) (by decide +kernel), ?_⟩
  have hc : Cache.Reaches Cache.HasRoom (full .sharded) := hreaches (by decide +kernel)
  have hother : ∃ e ∈ (full .sharded).entries, some e.key ≠ some k := by decide +kernel
  have hlayout : (full .sharded).layout = .sharded := by decide +kernel
  generalize full .sharded = c at hc hother hlayout ⊢
  cases c with
  | linked v => cases hlayout
  | sharded v =>
    obtain ⟨e, he, hne⟩ := hother
    exact ⟨v, rfl, fun hnone =>
      hne ((eviction_converges.2 v hc 5 (fun i => i) _ (some k)).1.1 hnone e he)⟩

end TileStore
