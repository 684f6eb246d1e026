import TileStore.Proofs.Numbering

/-!
# A sharded cache stays in its partitions

A sharded store files a tile by the digest of its key and catalogues it by the digest of its image,
in separate steps and with different digests. Still, at every instant of every run, whatever observers
call back with, both agree: `partitions_agree`. `ShardedStore.Partitioned` spells out what that means,
partition by partition.
-/

namespace TileStore

/-- The shards and the partitions of the catalogue are as many as a power of two. An entry is where
the digest of its key and that of its image say and nowhere else, and the numbers of the entries are
different and below the next one. -/
structure ShardedStore.Partitioned (s : ShardedStore) (next : Nat) : Prop where
  size : ∃ n, s.shards.size = 2 ^ n ∧ s.catalogues.size = 2 ^ n
  filed : ∀ e ∈ s.entries,
    (s.shard (e.key.hash.toNat &&& (s.shards.size - 1))).get? e.key = some e
  /-- Nothing else lies in any shard, and nothing under another key. -/
  eq_of_filed : ∀ i k e, (s.shard i).get? k = some e →
    e ∈ s.entries ∧ k = e.key ∧ i = e.key.hash.toNat &&& (s.shards.size - 1)
  catalogued : ∀ e ∈ s.entries,
    (s.catalogue (e.image.hash.toNat &&& (s.shards.size - 1))).contains e.image e.key
  /-- No key is catalogued without an entry. -/
  exists_of_catalogued : ∀ i image k, (s.catalogue i).contains image k →
    ∃ e ∈ s.entries, e.key = k ∧ e.image = image
  /-- No partition mentions an image of another one, or one without keys. -/
  eq_of_mentioned : ∀ i (image : ImageKey) (keys : KeySet), (s.catalogue i).images[image]? = some keys →
    i = image.hash.toNat &&& (s.shards.size - 1) ∧ keys.isEmpty = false
  nodup_seq : (s.entries.map (·.seq)).Nodup
  seq_lt : ∀ e ∈ s.entries, e.seq < next

namespace ShardedStore

variable {s : ShardedStore} {next : Nat}

theorem Valid.partitioned (h : s.Valid) (hs : Tiles.Serial s.get? next) : s.Partitioned next := by
  have hof : ∀ image, s.catalogueOf image = image.hash.toNat &&& (s.shards.size - 1) := by
    intro image
    rw [catalogueOf, h.same, select]
  have hentry : ∀ {image k}, Tiles.Has s.get? image k →
      ∃ e ∈ s.entries, e.key = k ∧ e.image = image := by
    rintro image k ⟨e, he, himage⟩
    exact ⟨e, h.filed.shelf.mem_of_get he, h.filed.shelf.key he, himage⟩
  constructor
  case size =>
    obtain ⟨n, hn⟩ := h.count
    exact ⟨n, hn, h.same.trans hn⟩
  case filed => exact fun e he => h.filed.mem_entries.1 he
  case eq_of_filed =>
    intro i k e he
    obtain rfl := h.filed.key he
    exact ⟨h.filed.mem_entries.2 (h.filed.get?_of_shard he), rfl, (h.filed.shardOf he).symm⟩
  case catalogued =>
    intro e he
    rw [← hof]
    exact ((h.indexed _).contains_iff _ _).2 ⟨rfl, e, h.filed.mem_entries.1 he, rfl⟩
  case exists_of_catalogued =>
    exact fun i image k hk => hentry (((h.indexed i).contains_iff image k).1 hk).2
  case eq_of_mentioned =>
    intro i image keys hkeys
    obtain ⟨k, hk⟩ := (h.indexed i).exists_key image
      (Std.TreeMap.mem_iff_isSome_getElem?.2 (by rw [hkeys]; rfl))
    exact ⟨hk.1.symm.trans (hof image), (h.indexed i).not_isEmpty hkeys⟩
  case nodup_seq => exact h.filed.shelf.nodup_seq hs
  case seq_lt => exact fun e he => hs.lt (h.filed.mem_entries.1 he)

end ShardedStore

theorem Cache.Consistent.partitioned {c : Cache} (h : c.Consistent .sharded) :
    ∃ v, c = .sharded v ∧ v.store.Partitioned v.ledger.nextSeq := by
  obtain ⟨hsound, hlayout, hserial⟩ := h
  cases c with
  | linked v => cases hlayout
  | sharded v => exact ⟨v, rfl, (Vault.Sound.valid hsound).partitioned hserial⟩

/-- In every run of a sharded cache that was built, whatever the scene, the observers and the
commands, the partitions agree at every instant and at the end, and what observers see are these
instants. -/
theorem partitions_agree {ρ : Type} {s : Settings} {observers : Nat} {c : Cache}
    (hb : Cache.build s observers = .ok c) (hs : s.layout = .sharded) (scene : Scene)
    (audience : Audience ρ) (allowance depth : Nat) (cs : Script) :
    let r : Run ρ := { session := ⟨scene, c⟩, allowance := allowance }
    let r' := Run.carryOut audience depth cs r
    let is := Run.met audience depth cs r
    (∀ i ∈ is, ∃ v, i.session.cache = .sharded v ∧ v.store.Partitioned v.ledger.nextSeq) ∧
    (r'.fault = none →
      ∃ v, r'.session.cache = .sharded v ∧ v.store.Partitioned v.ledger.nextSeq) ∧
    ∀ w, Remark.visit w ∈ r'.journal → ∃ i ∈ is, w.view = audience.view i.session w.entry := by
  intro r r' is
  have hfollows : Run.Follows audience (fun _ c => c.Consistent .sharded) (fun _ => False) [] r is
      r' := by
    refine Run.follows_carryOut (trail_consistent .sharded) (fun _ _ => id) (fun _ _ _ => False.elim)
      depth [] cs r fun _ => ?_
    exact hs ▸ Cache.consistent_of_build hb
  refine ⟨fun i hi => ?_, fun hf => (hfollows.on hf).partitioned, fun w hw => ?_⟩
  · obtain ⟨before, after, hsplit⟩ := List.append_of_mem hi
    have hthroughout := hfollows.throughout
    rw [hsplit] at hthroughout
    exact hthroughout.before.partitioned
  · exact (hfollows.seen w hw).resolve_left (Array.not_mem_empty _)

/-- Two tiles of an image are cached in sixteen partitions, and the observer that hears of the second
one removes the first. -/
theorem partitions_agree_called_back :
    let s : Settings := { layout := .sharded, capacity := 65536, diagnostics := true }
    let scene : Scene := { owners := ({} : Std.TreeMap String Owner).insert "a" ⟨0, .hashed 1⟩ }
    let audience : Audience Nat := {
      view s _ := s.cache.entries.length
      react journal _ :=
        if journal.size = 1 then some [.request (.remove (.given (.hashed 1)) .origin)] else none }
    let cs : Script := [.request (.add "a" .origin ⟨⟨8, 100, 1⟩, 0⟩ none),
      .request (.add "a" { Position.origin with x := 1 } ⟨⟨8, 100, 1⟩, 0⟩ none)]
    let r : Run Nat := { session := ⟨scene, Cache.new s 1⟩, allowance := 1 }
    Cache.build s 1 = .ok (Cache.new s 1) ∧ s.shardCount = 16 ∧
      (Run.met audience 1 cs r).length = 9 ∧
      (Run.carryOut audience 1 cs r).session.cache.entries.length = 1 ∧
      ∃ v, (Run.carryOut audience 1 cs r).session.cache = .sharded v ∧
        v.store.Partitioned v.ledger.nextSeq := by
  intro s scene audience cs r
  have hbuild : Cache.build s 1 = .ok (Cache.new s 1) := rfl
  have hfault : (Run.carryOut audience 1 cs r).fault = none :=
    Option.isNone_iff_eq_none.1 (by decide +kernel)
  obtain ⟨-, hend, -⟩ := partitions_agree hbuild rfl scene audience 1 1 cs
  have hagree := hend hfault
  refine ⟨hbuild, by decide +kernel, by decide +kernel, by decide +kernel, ?_⟩
  with_reducible exact hagree

end TileStore
