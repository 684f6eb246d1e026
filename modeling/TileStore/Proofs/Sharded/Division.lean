import TileStore.Proofs.Run
import TileStore.Proofs.Upkeep

/-!
# The division of a sharded cache

A sharded cache is divided once and for all: no operation changes the number of its shards or that of
the partitions of its catalogue, `trail_divided`. So a digest selects the same partition at every instant
of a run, and it is the digest modulo the number of partitions. `shardCount_scales` puts this together
with how the number comes about.
-/

namespace TileStore

open Vault

/-! ### Stores -/

/-- A store in so many shards, with a catalogue in as many partitions. -/
structure ShardedStore.Divided (n : Nat) (s : ShardedStore) : Prop where
  shards : s.shards.size = n
  catalogues : s.catalogues.size = n

namespace ShardedStore

variable {s : ShardedStore} {n : Nat}

theorem divided_new (n : Nat) : (ShardedStore.new n).Divided n := ⟨Array.size_replicate, Array.size_replicate⟩

theorem Divided.editShard (h : s.Divided n) (i : Nat) (f : Shard Entry → Shard Entry) :
    (s.editShard i f).Divided n := ⟨(size_editShard s i f).trans h.shards, h.catalogues⟩

theorem Divided.editCatalogue (h : s.Divided n) (i : Nat) (f : Catalogue → Catalogue) :
    (s.editCatalogue i f).Divided n := ⟨h.shards, (size_editCatalogue s i f).trans h.catalogues⟩

theorem Divided.insert (h : s.Divided n) (e : Entry) :
    (insert e).Meets s False fun _ s' => s'.Divided n := by
  unfold ShardedStore.insert
  simp only [Mutation.meets_bind, Mutation.meets_get, Mutation.meets_set, Mutation.meets_pure]
  have hwritten := h.editShard (s.shardOf e.key) (·.insert e.key e)
  split
  · exact hwritten
  · exact hwritten.editCatalogue _ _

theorem Divided.take (h : s.Divided n) (k : TileKey) :
    (take k).Meets s False fun _ s' => s'.Divided n := h.editShard _ _

theorem Divided.strike (h : s.Divided n) (image : ImageKey) (k : TileKey) :
    (strike image k).Meets s False fun _ s' => s'.Divided n := by
  unfold ShardedStore.strike
  simp only [Mutation.meets_bind, Mutation.meets_get, Mutation.meets_set]
  split
  · exact id
  · exact h.editCatalogue _ _

theorem Divided.advance (h : s.Divided n) : s.advance.Divided n :=
  have ⟨hsize, hcatalogues, _⟩ := s.advance_rows
  ⟨hsize.trans h.shards, (congrArg Array.size hcatalogues).trans h.catalogues⟩

/-- In as many partitions as a power of two, a digest selects what it leaves as a remainder. -/
theorem select_eq_mod {count : Nat} (h : count.isPowerOfTwo) (hash : UInt64) :
    select count hash = hash.toNat % count := by
  obtain ⟨k, rfl⟩ := h
  exact Nat.and_two_pow_sub_one_eq_mod _ _

end ShardedStore

/-! ### Computations -/

namespace Sharded

open ShardedStore (Divided)

variable {n : Nat}

theorem divided_evictEntry (e : Entry) : KeepsStore (Divided n) (evictEntry e) :=
  (keepsStore_inStore fun _ h => h.take e.key).bind fun _ =>
    (keepsStore_inStore fun _ h => h.strike e.image e.key).bind fun _ =>
      (keepsStore_account none (some e)).bind fun _ => keepsStore_mark e .evicted

theorem divided_evictSampled (m : Moment) (target : UInt64) (protect : Option TileKey) (fuel : Nat) :
    KeepsStore (Divided n) (evictSampled m target protect fuel) := by
  induction fuel with
  | zero => exact keepsStore_pure []
  | succ fuel ih =>
    refine keepsStore_get fun v h => ?_
    split
    · exact h
    · rw [Mutation.meets_bind, Mutation.meets_set]
      split
      · exact h.advance
      · next e _ =>
        exact ((divided_evictEntry e).bind fun _ => ih.bind fun _ => keepsStore_pure _) _ h.advance

theorem divided_evict (m : Moment) (protect : Option TileKey) :
    KeepsStore (Divided n) (evict m protect) := by
  refine keepsStore_get fun v h => ?_
  dsimp only
  split
  · exact h
  · exact Mutation.meets_bind.2 (divided_evictSampled m _ protect _ v h)

theorem divided_restoreBound (m : Moment) (e : Entry) :
    KeepsStore (Divided n) (restoreBound m e) := by
  refine keepsStore_get fun v h => ?_
  split
  · exact Mutation.meets_bind.2 (divided_evict m _ v h)
  · exact h

theorem divided_write (e : Entry) : KeepsStore (Divided n) (write e) := by
  refine (keepsStore_inStore fun _ h => h.insert e).bind fun replaced => ?_
  have hrest := (keepsStore_account (P := Divided n) (some e) replaced).bind
    fun _ => keepsStore_pure replaced.isSome
  split
  · exact (keepsStore_mark e .updated).bind fun _ => hrest
  · exact hrest

theorem divided_add (m : Moment) (owner : Owner) (p : Position) (payload : Payload)
    (cost : Option Binary64) : KeepsStore (Divided n) (add m owner p payload cost) :=
  (keepsStore_newEntry m owner p payload cost).bind fun e => (divided_write e).bind fun _ =>
    (divided_restoreBound m e).bind fun _ => keepsStore_pure _

theorem divided_addBatch (m : Moment) (owner : Owner)
    (tiles : List (Position × Payload × Option Binary64)) :
    KeepsStore (Divided n) (addBatch m owner tiles) := by
  refine (KeepsStore.mapM (fun (p, payload, cost) =>
    keepsStore_newEntry m owner p payload cost) tiles).bind fun es => ?_
  cases es.getLast? with
  | none => exact keepsStore_pure []
  | some last =>
    refine (KeepsStore.mapM (fun e => ?_) es).bind fun ws => ?_
    · exact (divided_write e).bind fun _ => keepsStore_pure _
    · exact (divided_restoreBound m last).bind fun _ => keepsStore_pure _

theorem divided_get? (m : Moment) (k : TileKey) : KeepsStore (Divided n) (get? m k) := by
  refine keepsStore_get fun v h => ?_
  split
  · rw [Mutation.meets_bind, Mutation.meets_set]
    split <;> exact h
  · exact h

theorem divided_removeKeys (ks : List TileKey) : KeepsStore (Divided n) (removeKeys ks) := by
  refine KeepsStore.mapM (fun k => (keepsStore_inStore fun _ h => h.take k).bind fun found => ?_) ks
  cases found with
  | none => exact keepsStore_throw .missingTile
  | some e => exact (keepsStore_account none (some e)).bind fun _ => keepsStore_pure e

theorem divided_remove (k : TileKey) (image : ImageKey) :
    KeepsStore (Divided n) (remove k image) := by
  refine (keepsStore_inStore fun _ h => h.take k).bind fun found => ?_
  cases found with
  | none => exact keepsStore_pure _
  | some e =>
    exact (keepsStore_inStore fun _ h => h.strike image k).bind fun _ =>
      (keepsStore_account none (some e)).bind fun _ =>
        (keepsStore_dismiss [e]).bind fun _ => keepsStore_pure _

theorem divided_removeImage (image : Identity) : KeepsStore (Divided n) (removeImage image) := by
  refine keepsStore_get fun v h => ?_
  rw [Mutation.meets_bind, Mutation.meets_set]
  exact ((divided_removeKeys _).bind fun es => (keepsStore_dismiss es).bind fun _ =>
    keepsStore_pure _) _ (h.editCatalogue _ _)

theorem divided_flush : KeepsStore (Divided n) flush := by
  refine keepsStore_get fun v h => ?_
  refine ((KeepsStore.mapM (fun i => ?_) _).bind fun parts =>
    (keepsStore_dismiss parts.flatten).bind fun _ => keepsStore_pure _) v h
  refine keepsStore_get fun w hw => ?_
  rw [Mutation.meets_bind, Mutation.meets_set]
  exact divided_removeKeys _ _ (hw.editCatalogue i _)

theorem divided_relieve (m : Moment) : KeepsStore (Divided n) (relieve m) :=
  (divided_evict m none).bind fun _ => keepsStore_pure _

end Sharded

/-! ### Caches -/

namespace Cache

variable {n : Nat} {c c' : Cache} {m : Moment}

/-- A cache is sharded, and divided into so many partitions. -/
def Divided (n : Nat) : Cache → Prop
  | linked _ => False
  | sharded v => v.store.Divided n

theorem divided_byLayout {α : Type} {onLinked : Mutation Linked α} {onSharded : Mutation Sharded α}
    (hs : KeepsStore (ShardedStore.Divided n) onSharded) (h : c.Divided n) :
    (byLayout onLinked onSharded).Meets c False fun _ c' => c'.Divided n := by
  cases c with
  | linked v => exact h.elim
  | sharded v => exact meets_byLayout_sharded.2 (hs v h)

theorem Divided.editLedger (h : c.Divided n) (f : Ledger → Ledger) : (c.editLedger f).Divided n := by
  cases c <;> exact h

theorem Divided.setCapacity (h : c.Divided n) (bytes : UInt64) :
    (setCapacity m bytes).Meets c False fun _ c' => c'.Divided n := by
  unfold Cache.setCapacity
  rw [Mutation.meets_bind, Mutation.meets_get]
  rcases c.ledger.setCapacity bytes with r | l
  · exact h
  · have hset : (c.editLedger fun _ => l).Divided n := h.editLedger _
    rw [Mutation.meets_bind, Mutation.meets_set]
    dsimp only
    split
    · exact Mutation.meets_bind.2 (divided_byLayout (Sharded.divided_relieve m) hset)
    · exact hset

theorem Divided.setThreshold (h : c.Divided n) (t : Binary64) :
    (setThreshold t).Meets c False fun _ c' => c'.Divided n := by
  unfold Cache.setThreshold
  rw [Mutation.meets_bind, Mutation.meets_get]
  rcases c.ledger.setThreshold t with r | l
  · exact h
  · exact h.editLedger _

/-- No request divides a cache anew. -/
theorem Divided.perform (h : c.Divided n) (q : Request Owner Identity) :
    (q.perform m).Meets c False fun _ c' => c'.Divided n := by
  cases q with
  | add owner p payload cost =>
    exact Mutation.meets_bind.2 (divided_byLayout (Sharded.divided_add m owner p payload cost) h)
  | addBatch owner points payloads costs =>
    refine Mutation.meets_map.2 ?_
    obtain ⟨r, -, hbatch⟩ | ⟨tiles, -, hbatch⟩ :=
      addBatch_eq m owner points payloads costs
    · rw [hbatch]
      exact h
    · rw [hbatch]
      exact Mutation.meets_map.2 (divided_byLayout (Sharded.divided_addBatch m owner tiles) h)
  | get image p => exact Mutation.meets_bind.2 (divided_byLayout (Sharded.divided_get? m _) h)
  | getAll image points =>
    exact Mutation.meets_bind.2 (divided_byLayout (KeepsStore.mapM (Sharded.divided_get? m) _) h)
  | remove image p =>
    exact Mutation.meets_bind.2 (divided_byLayout (Sharded.divided_remove _ _) h)
  | removeImage image =>
    exact Mutation.meets_bind.2 (divided_byLayout (Sharded.divided_removeImage image) h)
  | flush => exact Mutation.meets_bind.2 (divided_byLayout Sharded.divided_flush h)
  | relieve => exact Mutation.meets_bind.2 (divided_byLayout (Sharded.divided_relieve m) h)
  | setCapacity bytes => exact Mutation.meets_map.2 (h.setCapacity bytes)
  | setThreshold t => exact Mutation.meets_map.2 (h.setThreshold t)
  | enable | disable | reset => exact h.editLedger _
  | tilesOf | contains | report | list => exact h

end Cache

/-- A cache stays divided as it is all along. -/
theorem trail_divided (n : Nat) : Trail fun _ c => c.Divided n where
  counted _ h := h.editLedger _
  heeded {past s asked notices c'} h hheeds := by
    cases asked with
    | none => exact hheeds.2 ▸ h
    | some q =>
      obtain ⟨reply, hr⟩ := hheeds
      exact (h.perform q).of_ok hr

/-! ### Runs -/

section Instants

variable {ρ : Type} {s : Settings} {observers : Nat} {c : Cache} {i : Instant}

theorem Cache.divided_of_build (hb : build s observers = .ok c) (hs : s.layout = .sharded) :
    c.Divided s.shardCount := by
  obtain ⟨-, rfl⟩ := eq_new_of_build hb
  rw [new, hs]
  exact ShardedStore.divided_new s.shardCount

/-- At every instant of a run the partitions are as many as when the cache was built. -/
theorem Run.divided_of_mem_met (hb : Cache.build s observers = .ok c) (hs : s.layout = .sharded)
    {scene : Scene} {audience : Audience ρ} {allowance depth : Nat} {cs : Script}
    (hi : i ∈ met audience depth cs { session := ⟨scene, c⟩, allowance := allowance }) :
    i.session.cache.Divided s.shardCount := by
  let r : Run ρ := { session := ⟨scene, c⟩, allowance := allowance }
  have hfollows : Follows audience (fun _ c => c.Divided s.shardCount) (fun _ => False) [] r
      (met audience depth cs r) (carryOut audience depth cs r) :=
    follows_carryOut (trail_divided s.shardCount) (fun _ _ => id) (fun _ _ _ => False.elim)
      depth [] cs r fun _ => Cache.divided_of_build hb hs
  obtain ⟨before, after, hsplit⟩ := List.append_of_mem hi
  have hthroughout := hfollows.throughout
  rw [hsplit] at hthroughout
  exact hthroughout.before

end Instants

/-- **The number of partitions** is the greatest power of two up to what is wished for and affordable,
but one at least. The next power of two always fits in a word where it is asked for. So wishes are not
exceeded, several partitions have enough capacity each, and more capacity or greater wishes do not lead
to less. A digest selects the partition that it leaves as a remainder, which is one of the shards and
one of the partitions of the catalogue at every instant of every run. -/
theorem shardCount_scales (s : Settings) :
    let affordable := max 1 (min s.shards.toNat (s.capacity.toNat / 4096))
    IsGreatest {p | p ≤ affordable ∧ p.isPowerOfTwo} s.shardCount ∧
    (affordableShards s.capacity s.shards).toNat = affordable ∧
    IsLeast {p | affordable ≤ p ∧ p.isPowerOfTwo}
      (nextPowerOfTwo (affordableShards s.capacity s.shards)).toNat ∧
    1 ≤ s.shardCount ∧ (s.shards ≠ 0 → s.shardCount ≤ s.shards.toNat) ∧
    (1 < s.shardCount → 4096 * s.shardCount ≤ s.capacity.toNat) ∧
    (∀ t : Settings, s.capacity ≤ t.capacity → s.shards ≤ t.shards →
      s.shardCount ≤ t.shardCount) ∧
    (∀ hash, ShardedStore.select s.shardCount hash = hash.toNat % s.shardCount) ∧
    ∀ {ρ : Type} {observers : Nat} {c : Cache}, Cache.build s observers = .ok c →
      s.layout = .sharded → ∀ (scene : Scene) (audience : Audience ρ) (allowance depth : Nat)
        (cs : Script) (i : Instant),
      i ∈ Run.met audience depth cs { session := ⟨scene, c⟩, allowance := allowance } →
      ∃ v, i.session.cache = .sharded v ∧ v.store.Divided s.shardCount ∧
        (∀ hash, ShardedStore.select s.shardCount hash < v.store.shards.size ∧
          ShardedStore.select s.shardCount hash < v.store.catalogues.size) ∧
        (∀ k, v.store.shardOf k = ShardedStore.select s.shardCount k.hash) ∧
        ∀ image, v.store.catalogueOf image = ShardedStore.select s.shardCount image.hash := by
  intro affordable
  have hgreatest := isGreatest_supportedShards s.capacity s.shards
  have hleast := isLeast_nextPowerOfTwo (toNat_affordableShards_le s.capacity s.shards)
  have hpos : 0 < s.shardCount := Nat.pos_of_isPowerOfTwo s.isPowerOfTwo_shardCount
  have hselect := ShardedStore.select_eq_mod s.isPowerOfTwo_shardCount
  rw [toNat_affordableShards] at hgreatest hleast
  refine ⟨hgreatest, toNat_affordableShards _ _, hleast, hpos, s.shardCount_le_shards,
    s.mul_shardCount_le_capacity, fun t => supportedShards_mono, hselect, ?_⟩
  intro ρ observers c hb hs scene audience allowance depth cs i hi
  have hdivided := Run.divided_of_mem_met hb hs hi
  rcases hcache : i.session.cache with v | v
  · rw [hcache] at hdivided
    exact hdivided.elim
  · rw [hcache] at hdivided
    obtain ⟨hshards, hcatalogues⟩ := hdivided
    refine ⟨v, rfl, ⟨hshards, hcatalogues⟩, fun hash => ?_, fun k => ?_, fun image => ?_⟩
    · have hlt := ShardedStore.select_lt hpos hash
      exact ⟨hlt.trans_eq hshards.symm, hlt.trans_eq hcatalogues.symm⟩
    · rw [ShardedStore.shardOf, hshards]
    · rw [ShardedStore.catalogueOf, hcatalogues]

/-- Forty partitions are wished for and affordable, so there are half as many as sixty-four. They are
still there when a tile has been cached. -/
theorem shardCount_scales_down :
    let s : Settings := { capacity := 200000, shards := 40 }
    let t : Settings := { capacity := 300000, shards := 64 }
    let scene : Scene := { owners := ({} : Std.TreeMap String Owner).insert "a" ⟨0, .hashed 1⟩ }
    let audience : Audience Nat := { view s _ := s.cache.entries.length, react _ _ := none }
    let cs : Script := [.request (.add "a" .origin ⟨⟨8, 100, 1⟩, 0⟩ none)]
    let is := Run.met audience 1 cs { session := ⟨scene, Cache.new s 1⟩, allowance := 1 }
    Cache.build s 1 = .ok (Cache.new s 1) ∧ s.shardCount = 32 ∧ s.shardCount ≤ 40 ∧
      4096 * s.shardCount ≤ 200000 ∧ s.shardCount ≤ t.shardCount ∧
      is.map (·.session.cache.entries.length) = [0, 1] ∧
      ∀ i ∈ is, ∃ v, i.session.cache = .sharded v ∧ v.store.Divided s.shardCount := by
  intro s t scene audience cs is
  have hbuild : Cache.build s 1 = .ok (Cache.new s 1) := rfl
  obtain ⟨-, -, -, -, hwished, hcapacity, hmono, -, hruns⟩ := shardCount_scales s
  refine ⟨hbuild, by decide +kernel, hwished (by decide), hcapacity (by decide +kernel),
    hmono t (by decide) (by decide), by decide +kernel, fun i hi => ?_⟩
  obtain ⟨v, hv, hdivided, -⟩ := hruns hbuild rfl scene audience 1 1 cs i hi
  exact ⟨v, hv, hdivided⟩

end TileStore
