import TileStore.Proofs.Reachable

/-!
# Both layouts keep the same kind of map

A cache of either layout, whatever its settings, is a map from tiles to entries and a number of bytes:
`refines_contents`. What it shows is the map and nothing else, and every request that there is room
for is answered from the map and changes it as `Contents.Serves` says. Which entries a pass takes is
left to the layout. What no pass may do is not: it takes entries that are there, never the protected
one, and no more than it needs.
-/

namespace TileStore

namespace Vault

variable {σ : Type} [Shelved σ] {v : Vault σ} {t : Tile} {e : Entry}

/-- An entry is found under its own tile only. -/
theorem Sound.tile_eq (hv : v.Sound) (he : v.contents.get? t = some e) : e.tile = t := by
  have hproper := hv.shelf.proper he
  exact ((hproper.key_eq_iff t).1 (hv.shelf.key he).symm).symm

end Vault

namespace Cache

variable {c : Cache} {t : Tile} {e : Entry}

theorem Sound.tile_eq (h : c.Sound) (he : c.contents.get? t = some e) : e.tile = t := by
  cases c with
  | linked v => exact Vault.Sound.tile_eq h he
  | sharded v => exact Vault.Sound.tile_eq h he

theorem Sound.lists_entries (h : c.Sound) : c.contents.Lists (fun _ => True) c.entries := by
  cases c with
  | linked v => exact Vault.lists_entries h
  | sharded v => exact Vault.lists_entries h

theorem Sound.proper (h : c.Sound) (he : e ∈ c.entries) : e.Proper := by
  cases c with
  | linked v => exact Vault.Sound.proper h he
  | sharded v => exact Vault.Sound.proper h he

theorem Sound.shelf (h : c.Sound) : Shelf c.get? c.entries := by
  cases c with
  | linked v => exact Vault.Sound.shelf h
  | sharded v => exact Vault.Sound.shelf h

/-- The ledger charges the entries. -/
theorem Sound.balanced (h : c.Sound) : c.ledger.Balanced c.entries := by
  cases c with
  | linked v => exact Vault.Sound.balanced h
  | sharded v => exact Vault.Sound.balanced h

theorem Exact.fits (h : c.Exact) : Fits c.entries 0 := by
  cases c with
  | linked v => exact Vault.Exact.fits h
  | sharded v => exact Vault.Exact.fits h

end Cache

/-- A cache is a map from tiles to entries. It starts empty. Whenever there was always room for what
was to be cached, the map is what the cache shows, counting leaves it alone, and a request that there
is room for is answered from it, with the entries themselves, and changes it as it should. -/
theorem refines_contents :
    (∀ s observers c, Cache.build s observers = .ok c → c.contents = .empty) ∧
    ∀ c, Cache.Reaches Cache.HasRoom c →
      (∀ t e, c.contents.get? t = some e → e.tile = t) ∧
      c.contents.Lists (fun _ => True) c.entries ∧
      c.contents.used = total c.entries ∧ c.ledger.tileCount.toNat = c.entries.length ∧
      (∀ h, (c.count h).contents = c.contents) ∧
      ∀ m r, c.HasRoom m r → ∃ reply notices c',
        (r.perform m).result c = (.ok (reply, notices), c') ∧
        (∀ e, (c'.sight m e).entry = e) ∧
        c.contents.Serves c.layout c.ledger (c'.sight m) r reply (Notice.victims notices)
          c'.contents := by
  refine ⟨fun s observers c hb => (Cache.start_of_build hb).2.2, fun c hc => ?_⟩
  have hsound := hc.sound
  have hfits := hc.exact.fits
  refine ⟨fun t e => hsound.tile_eq, hsound.lists_entries, hsound.balanced.memoryUsed_toNat hfits,
    hsound.balanced.tileCount_toNat hfits.length_lt,
    Cache.contents_count c, fun m r hr => ?_⟩
  obtain ⟨⟨reply, notices⟩, c', hx, hserves⟩ := hc.answers hr
  exact ⟨reply, notices, c', hx, fun _ => rfl, hserves⟩

/-- A batch that does not fit in, on a cache with two tiles: one tile comes in place of a cached one, two
are for one position, and each has a size and a cost of its own. The pass that spares the last tile takes
the cheapest, the second of those for one position, and then the tile that was cached before. -/
theorem refines_contents_crowded_batch :
    let m : Moment := ⟨0, fun _ => true⟩
    let owner : Owner := ⟨0, .hashed 1⟩
    let samples (bytes : UInt64) : Payload := ⟨⟨8, bytes, 1⟩, 0⟩
    let before : Request Owner Identity := .addBatch owner [⟨0, 0⟩, ⟨1, 0⟩] [samples 100, samples 101]
      (some [⟨0x4014000000000000⟩, ⟨0x4008000000000000⟩])
    let batch : Request Owner Identity := .addBatch owner [⟨0, 0⟩, ⟨2, 0⟩, ⟨2, 0⟩, ⟨3, 0⟩]
      [samples 102, samples 103, samples 104, samples 105] (some [⟨0x4010000000000000⟩,
        ⟨0x3ff0000000000000⟩, ⟨0x4000000000000000⟩, ⟨0x4018000000000000⟩])
    let start (layout : Layout) : Cache := .new { capacity := 1100, layout := layout } 0
    let serves (layout : Layout) : Prop :=
      let c := ((before.perform m).result (start layout)).2
      Cache.build { capacity := 1100, layout := layout } 0 = .ok (start layout) ∧
      (start layout).contents = .empty ∧ Cache.Reaches Cache.HasRoom c ∧ c.entries.length = 2 ∧
      c.HasRoom m batch ∧
      ∃ reply notices c', (batch.perform m).result c = (.ok (reply, notices), c') ∧
        c.contents.Serves layout c.ledger (c'.sight m) batch reply (Notice.victims notices)
          c'.contents ∧
        Notice.victims notices = [.new owner ⟨2, 0⟩ (samples 104) (some ⟨0x4000000000000000⟩) 256 4,
          .new owner ⟨1, 0⟩ (samples 101) (some ⟨0x4008000000000000⟩) 256 1] ∧
        c'.contents.used = 358 + 361
    serves .linked ∧ serves .sharded := by
  intro m owner samples before batch start serves
  have hserves : ∀ {layout}, (start layout).HasRoom m before →
      (let c := ((before.perform m).result (start layout)).2
      c.layout = layout ∧ c.entries.length = 2 ∧ c.HasRoom m batch ∧
        ((batch.perform m).result c).1.toOption.map (fun x => Notice.victims x.2) =
          some [.new owner ⟨2, 0⟩ (samples 104) (some ⟨0x4000000000000000⟩) 256 4,
            .new owner ⟨1, 0⟩ (samples 101) (some ⟨0x4008000000000000⟩) 256 1] ∧
        ((batch.perform m).result c).2.contents.used = 358 + 361) → serves layout := by
    intro layout hfirst h
    have hbuild : Cache.build { capacity := 1100, layout := layout } 0 = .ok (start layout) := rfl
    have hc : Cache.Reaches Cache.HasRoom _ := Cache.Reaches.next (.built hbuild) hfirst
    obtain ⟨hlayout, hlength, hroom, hvictims, hused⟩ := h
    obtain ⟨reply, notices, c', hx, -, hserved⟩ := (refines_contents.2 _ hc).2.2.2.2.2 m batch hroom
    rw [hx] at hvictims hused
    rw [hlayout] at hserved
    exact ⟨hbuild, refines_contents.1 _ _ _ hbuild, hc, hlength, hroom, reply, notices, c', hx, hserved,
      Option.some.inj hvictims, hused⟩
  exact ⟨hserves (by decide +kernel) (by decide +kernel),
    hserves (by decide +kernel) (by decide +kernel)⟩

end TileStore
