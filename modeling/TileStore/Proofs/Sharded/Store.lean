import TileStore.Sharded.Store
import TileStore.Proofs.Mutation
import TileStore.Proofs.Shard
import TileStore.Proofs.Vault

/-!
# The partitions of a sharded store agree

Every entry lies in the shard its key selects: `Filed`. It is catalogued in the partition its image
selects, and nowhere else: `Valid`. Each operation keeps a store valid, and finds in the catalogue what
it looks for. A search probes so few places that it is not plain that it finds a victim whenever there
is one. It does, because one protected key can fill no more than one of the probed shards, and in that
one it stands alone: `eq_protect_of_pick?`.
-/

namespace TileStore.ShardedStore

variable {s s' : ShardedStore} {i j : Nat} {k : TileKey} {e : Entry} {image : ImageKey}

/-! ### Partitions -/

theorem select_lt {count : Nat} (h : 0 < count) (hash : UInt64) : select count hash < count := by
  have : hash.toNat &&& (count - 1) ≤ count - 1 := Nat.and_le_right
  unfold select
  omega

theorem shard_editShard (hi : i < s.shards.size) (f : Shard Entry → Shard Entry) (j : Nat) :
    (s.editShard i f).shard j = if j = i then f (s.shard i) else s.shard j := by
  rw [editShard, shard, Array.getElem?_modify]
  by_cases hj : j = i
  · subst hj
    simp [shard, Array.getElem?_eq_getElem hi]
  · rw [if_neg (Ne.symm hj), if_neg hj, shard]

@[simp] theorem size_editShard (s : ShardedStore) (i : Nat) (f : Shard Entry → Shard Entry) :
    (s.editShard i f).shards.size = s.shards.size := by simp [editShard]

@[simp] theorem shardOf_editShard (s : ShardedStore) (i : Nat) (f : Shard Entry → Shard Entry)
    (k : TileKey) : (s.editShard i f).shardOf k = s.shardOf k := by simp [shardOf]

@[simp] theorem catalogueOf_editShard (s : ShardedStore) (i : Nat) (f : Shard Entry → Shard Entry)
    (image : ImageKey) : (s.editShard i f).catalogueOf image = s.catalogueOf image := rfl

theorem catalogue_editCatalogue (hi : i < s.catalogues.size) (f : Catalogue → Catalogue) (j : Nat) :
    (s.editCatalogue i f).catalogue j = if j = i then f (s.catalogue i) else s.catalogue j := by
  rw [editCatalogue, catalogue, Array.getElem?_modify]
  by_cases hj : j = i
  · subst hj
    simp [catalogue, Array.getElem?_eq_getElem hi]
  · rw [if_neg (Ne.symm hj), if_neg hj, catalogue]

@[simp] theorem size_editCatalogue (s : ShardedStore) (i : Nat) (f : Catalogue → Catalogue) :
    (s.editCatalogue i f).catalogues.size = s.catalogues.size := by simp [editCatalogue]

@[simp] theorem catalogueOf_editCatalogue (s : ShardedStore) (i : Nat) (f : Catalogue → Catalogue)
    (image : ImageKey) : (s.editCatalogue i f).catalogueOf image = s.catalogueOf image := by
  simp [catalogueOf]

/-! ### Filing -/

/-- Every entry lies under its own key in the shard that the key selects. -/
structure Filed (s : ShardedStore) : Prop where
  pos : 0 < s.shards.size
  lined : ∀ i, (s.shard i).Lined
  key : ∀ {i k e}, (s.shard i).get? k = some e → e.key = k
  shardOf : ∀ {i k e}, (s.shard i).get? k = some e → s.shardOf k = i
  proper : ∀ {i k e}, (s.shard i).get? k = some e → e.Proper

namespace Filed

theorem shardOf_lt (h : s.Filed) (k : TileKey) : s.shardOf k < s.shards.size := select_lt h.pos _

theorem get?_of_shard (h : s.Filed) (hi : (s.shard i).get? k = some e) : s.get? k = some e := by
  rw [get?, h.shardOf hi]
  exact hi

theorem mem_entries (h : s.Filed) : e ∈ s.entries ↔ s.get? e.key = some e := by
  simp only [entries, List.mem_flatMap, Array.mem_toList_iff]
  constructor
  · rintro ⟨d, hd, he⟩
    obtain ⟨i, hi⟩ := Array.mem_iff_getElem?.1 hd
    have hshard : s.shard i = d := by rw [shard, hi, Option.getD_some]
    obtain ⟨k, hk⟩ := (hshard ▸ h.lined i).mem_values.1 he
    rw [← hshard] at hk
    obtain rfl := h.key hk
    exact h.get?_of_shard hk
  · intro he
    have hlt := h.shardOf_lt e.key
    refine ⟨_, Array.getElem_mem hlt, ?_⟩
    have hshard : s.shard (s.shardOf e.key) = s.shards[s.shardOf e.key] := by
      rw [shard, Array.getElem?_eq_getElem hlt, Option.getD_some]
    exact (hshard ▸ h.lined (s.shardOf e.key)).mem_values.2 ⟨e.key, hshard ▸ he⟩

theorem nodup_entries (h : s.Filed) : s.entries.Nodup := by
  rw [entries, List.nodup_flatMap]
  have hshard : ∀ i (hi : i < s.shards.toList.length), s.shards.toList[i] = s.shard i := by
    intro i hi
    rw [shard, ← Array.getElem?_toList, List.getElem?_eq_getElem hi, Option.getD_some]
  constructor
  · intro d hd
    obtain ⟨i, hi, rfl⟩ := List.mem_iff_getElem.1 hd
    rw [hshard]
    exact (h.lined i).nodup_values fun j k v hj hk => (h.key hj).symm.trans (h.key hk)
  · refine List.pairwise_iff_getElem.2 fun i j hi hj hij e he he' => ?_
    rw [hshard] at he he'
    obtain ⟨k, hk⟩ := (h.lined i).mem_values.1 he
    obtain ⟨k', hk'⟩ := (h.lined j).mem_values.1 he'
    obtain rfl : k = k' := (h.key hk).symm.trans (h.key hk')
    have := (h.shardOf hk).symm.trans (h.shardOf hk')
    omega

theorem shelf (h : s.Filed) : Shelf s.get? s.entries where
  mem _ := h.mem_entries
  key := h.key
  proper := h.proper
  nodup := h.nodup_entries

/-- An entry is put into its shard. -/
theorem put (h : s.Filed) (he : e.Proper) :
    (s.editShard (s.shardOf e.key) (·.insert e.key e)).Filed ∧
      (s.editShard (s.shardOf e.key) (·.insert e.key e)).get? = Tiles.put s.get? e := by
  have hlt := h.shardOf_lt e.key
  have hshard := shard_editShard hlt (·.insert e.key e)
  have hget : ∀ i k, ((s.editShard (s.shardOf e.key) (·.insert e.key e)).shard i).get? k =
      if i = s.shardOf e.key ∧ k = e.key then some e else (s.shard i).get? k := by
    intro i k
    rw [hshard]
    by_cases hi : i = s.shardOf e.key
    · rw [if_pos hi, Shard.get?_insert, hi]
      simp
    · rw [if_neg hi, if_neg fun hik => hi hik.1]
  refine ⟨⟨by simpa using h.pos, fun i => ?_, fun {i k f} hf => ?_, fun {i k f} hf => ?_,
    fun {i k f} hf => ?_⟩, ?_⟩
  · rw [hshard]
    split
    · exact (h.lined _).insert e.key e
    · exact h.lined i
  · rw [hget] at hf
    split at hf
    · next hik => exact (Option.some.inj hf).symm ▸ hik.2.symm
    · exact h.key hf
  · rw [hget] at hf
    rw [shardOf_editShard]
    split at hf
    · next hik => rw [hik.1, hik.2]
    · exact h.shardOf hf
  · rw [hget] at hf
    split at hf
    · exact Option.some.inj hf ▸ he
    · exact h.proper hf
  · funext k
    rw [get?, shardOf_editShard, hget, Tiles.put]
    by_cases hk : k = e.key
    · simp [hk]
    · rw [if_neg hk, if_neg fun hik => hk hik.2, get?]

/-- The entry under a key is taken out of its shard. -/
theorem take (h : s.Filed) (k : TileKey) :
    (s.editShard (s.shardOf k) (·.erase k)).Filed ∧
      (s.editShard (s.shardOf k) (·.erase k)).get? = Tiles.drop s.get? k := by
  have hlt := h.shardOf_lt k
  have hshard := shard_editShard hlt (·.erase k)
  have hget : ∀ i j, ((s.editShard (s.shardOf k) (·.erase k)).shard i).get? j =
      if i = s.shardOf k ∧ j = k then none else (s.shard i).get? j := by
    intro i j
    rw [hshard]
    by_cases hi : i = s.shardOf k
    · rw [if_pos hi, Shard.get?_erase, hi]
      simp
    · rw [if_neg hi, if_neg fun hij => hi hij.1]
  have hleft : ∀ {i j f}, ((s.editShard (s.shardOf k) (·.erase k)).shard i).get? j = some f →
      (s.shard i).get? j = some f := by
    intro i j f hf
    rw [hget] at hf
    split at hf
    · cases hf
    · exact hf
  refine ⟨⟨by simpa using h.pos, fun i => ?_, fun hf => h.key (hleft hf), fun hf => ?_,
    fun hf => h.proper (hleft hf)⟩, ?_⟩
  · rw [hshard]
    split
    · exact (h.lined _).erase k
    · exact h.lined i
  · rw [shardOf_editShard]
    exact h.shardOf (hleft hf)
  · funext j
    rw [get?, shardOf_editShard, hget, Tiles.drop]
    by_cases hj : j = k
    · simp [hj]
    · rw [if_neg hj, if_neg fun hij => hj hij.2, get?]

/-- Neither the hands nor the catalogue matter. -/
theorem of_rows (h : s.Filed) (s' : ShardedStore) (hsize : s'.shards.size = s.shards.size)
    (hrows : ∀ i, (s'.shard i).table = (s.shard i).table ∧ (s'.shard i).row = (s.shard i).row) :
    s'.Filed ∧ s'.get? = s.get? := by
  have hget : ∀ i, (s'.shard i).get? = (s.shard i).get? := by
    intro i
    funext k
    rw [Shard.get?, (hrows i).1, Shard.get?]
  have hof : s'.shardOf = s.shardOf := by
    funext k
    rw [ShardedStore.shardOf, hsize, ShardedStore.shardOf]
  refine ⟨⟨hsize ▸ h.pos, fun i k j => ?_, ?_, ?_, ?_⟩, ?_⟩
  · rw [Shard.place?, (hrows i).1, (hrows i).2]
    exact h.lined i k j
  · intro i k e hk
    exact h.key (hget i ▸ hk)
  · intro i k e hk
    rw [hof]
    exact h.shardOf (hget i ▸ hk)
  · intro i k e hk
    exact h.proper (hget i ▸ hk)
  · funext k
    rw [get?, hget, hof, get?]

theorem of_shards (h : s.Filed) (s' : ShardedStore) (hs : s'.shards = s.shards) :
    s'.Filed ∧ s'.get? = s.get? := by
  have hshard : s'.shard = s.shard := by
    funext i
    rw [shard, hs, shard]
  exact h.of_rows s' (congrArg Array.size hs) fun i => hshard ▸ ⟨rfl, rfl⟩

end Filed

/-! ### Validity -/

/-- Every entry is filed, and catalogued in the partition that its image selects. -/
structure Valid (s : ShardedStore) : Prop where
  count : ∃ n, s.shards.size = 2 ^ n
  same : s.catalogues.size = s.shards.size
  filed : s.Filed
  indexed : ∀ i, (s.catalogue i).Indexes fun image k =>
    s.catalogueOf image = i ∧ Tiles.Has s.get? image k

namespace Valid

theorem catalogueOf_lt (h : s.Valid) (image : ImageKey) : s.catalogueOf image < s.catalogues.size :=
  select_lt (h.same ▸ h.filed.pos) _

theorem mem_keysOf (h : s.Valid) (image : ImageKey) (k : TileKey) :
    k ∈ s.keysOf image ↔ ∃ e, s.get? k = some e ∧ e.image = image := by
  rw [keysOf, (h.indexed _).mem_keys]
  simp [Tiles.Has]

/-- Changing one partition of the catalogue together with the entries of its images. -/
theorem editCatalogue (h : s.Valid) {f : Catalogue → Catalogue} {g : Tiles}
    (hsize : s'.shards.size = s.shards.size)
    (hs : s'.catalogues = (s.editCatalogue i f).catalogues)
    (hfiled : s'.Filed) (hget : s'.get? = g) (hi : i < s.catalogues.size)
    (hf : (f (s.catalogue i)).Indexes fun image k => s.catalogueOf image = i ∧ g.Has image k)
    (hother : ∀ image k, s.catalogueOf image ≠ i → (Tiles.Has s.get? image k ↔ g.Has image k)) :
    s'.Valid := by
  have hcatalogue : ∀ j, s'.catalogue j = if j = i then f (s.catalogue i) else s.catalogue j := by
    intro j
    rw [← catalogue_editCatalogue hi, catalogue, hs, catalogue]
  have hof : s'.catalogueOf = s.catalogueOf := by
    funext image
    rw [catalogueOf, hs, catalogueOf]
    simp [ShardedStore.editCatalogue]
  refine ⟨hsize ▸ h.count, ?_, hfiled, fun j => ?_⟩
  · rw [hs, size_editCatalogue, h.same, hsize]
  · rw [hcatalogue, hof, hget]
    split
    · next hj => exact hj ▸ hf
    · next hj =>
      refine (h.indexed j).congr fun image k => and_congr_right fun himage => hother image k ?_
      exact himage ▸ hj

/-- What is not there is taken out without a trace. -/
theorem take_none (h : s.Valid) (hk : s.get? k = none) :
    (s.editShard (s.shardOf k) (·.erase k)).Valid ∧
      (s.editShard (s.shardOf k) (·.erase k)).get? = s.get? := by
  obtain ⟨hfiled, hget⟩ := h.filed.take k
  have hsame : Tiles.drop s.get? k = s.get? := Tiles.drop_eq_self hk
  rw [hsame] at hget
  refine ⟨⟨by simpa using h.count, by simpa [editShard] using h.same, hfiled, fun i => ?_⟩, hget⟩
  rw [hget]
  exact h.indexed i

end Valid

/-! ### Operations -/

theorem insert_meets (h : s.Valid) (he : e.Proper) :
    (insert e).Meets s True fun old s' =>
      s'.Valid ∧ old = s.get? e.key ∧ s'.get? = Tiles.put s.get? e := by
  unfold insert
  simp only [Mutation.meets_bind, Mutation.meets_get, Mutation.meets_set, Mutation.meets_pure,
    true_and]
  obtain ⟨hfiled, hput⟩ := h.filed.put he
  rcases hold : s.get? e.key with _ | old
  · have hindexed := (h.indexed (s.catalogueOf e.image)).insert e.image e.key
    obtain ⟨hfiled', hget'⟩ := hfiled.of_shards ((s.editShard (s.shardOf e.key)
      (·.insert e.key e)).editCatalogue (s.catalogueOf e.image) (·.insert e.image e.key)) rfl
    refine ⟨h.editCatalogue (by simp [editCatalogue]) rfl hfiled' (hget'.trans hput)
      (h.catalogueOf_lt e.image) (hindexed.congr fun image k => ?_) fun image k hne => ?_,
      hget'.trans hput⟩
    · rw [← Tiles.has_put hold]
      by_cases himage : image = e.image <;> simp [himage]
    · rw [← Tiles.has_put hold, or_iff_right]
      rintro ⟨rfl, -⟩
      exact hne rfl
  · have himage : old.image = e.image := by
      refine (h.filed.proper hold).image_eq_of_key_eq he ?_
      exact h.filed.key hold
    refine ⟨⟨by simpa using h.count, by simpa [editShard] using h.same, hfiled, fun i => ?_⟩, hput⟩
    simp only [Option.isSome_some, if_true, hput]
    exact (h.indexed i).congr fun image k =>
      and_congr_right' (Tiles.has_put_of_some hold himage image k)

theorem take_meets (s : ShardedStore) (k : TileKey) :
    (take k).Meets s True fun found s' =>
      found = s.get? k ∧ s' = s.editShard (s.shardOf k) (·.erase k) := ⟨rfl, rfl⟩

/-- The key of an entry taken out is struck from the catalogue. -/
theorem strike_meets (h : s.Valid) (he : s.get? k = some e) (hi : e.image = image) :
    (strike image k).Meets (s.editShard (s.shardOf k) (·.erase k)) True fun _ s' =>
      s'.Valid ∧ s'.get? = Tiles.drop s.get? k := by
  obtain rfl := h.filed.key he
  subst hi
  have hlisted : (s.catalogue (s.catalogueOf e.image)).contains e.image e.key :=
    ((h.indexed _).contains_iff _ _).2 ⟨rfl, e, he, rfl⟩
  obtain ⟨hfiled, hdrop⟩ := h.filed.take e.key
  obtain ⟨hfiled', hget'⟩ := hfiled.of_shards ((s.editShard (s.shardOf e.key)
    (·.erase e.key)).editCatalogue (s.catalogueOf e.image) (·.erase e.image e.key)) rfl
  unfold strike
  simp only [Mutation.meets_bind, Mutation.meets_get, Mutation.meets_set]
  have hknown : ((s.editShard (s.shardOf e.key) (·.erase e.key)).catalogue
      (catalogueOf (s.editShard (s.shardOf e.key) (·.erase e.key)) e.image)).contains
        e.image e.key = true := hlisted
  rw [hknown]
  refine ⟨h.editCatalogue (by simp [editCatalogue]) rfl hfiled' (hget'.trans hdrop)
    (h.catalogueOf_lt e.image) ?_ fun image k hne => ?_, hget'.trans hdrop⟩
  · refine ((h.indexed _).erase e.image e.key).congr fun image k => ?_
    rw [← Tiles.has_drop he, ← and_assoc, ← and_assoc, and_comm (a := ¬_)]
  · rw [← Tiles.has_drop he, and_iff_right]
    rintro ⟨rfl, -⟩
    exact hne rfl

/-- Entries come and go without a change in the number of shards. -/
theorem insert_size (e : Entry) (s : ShardedStore) :
    (insert e).Meets s False fun _ s' => s'.shards.size = s.shards.size := by
  unfold insert
  simp only [Mutation.meets_bind, Mutation.meets_get, Mutation.meets_set, Mutation.meets_pure]
  split <;> exact size_editShard ..

theorem strike_shards (image : ImageKey) (k : TileKey) (s : ShardedStore) :
    (strike image k).Meets s False fun _ s' => s'.shards = s.shards := by
  unfold strike
  simp only [Mutation.meets_bind, Mutation.meets_get, Mutation.meets_set]
  split
  · exact id
  · rfl

/-! ### Victims -/

/-- The circuit comes to every shard. -/
theorem Valid.exists_onCircuit (h : s.Valid) (hi : i < s.shards.size) :
    ∃ j < s.shards.size, s.onCircuit j = i := by
  obtain ⟨n, hn⟩ := h.count
  have hmask : ∀ j, s.onCircuit j = (s.cursor + j) % s.shards.size := fun j => by
    rw [onCircuit, hn, Nat.and_two_pow_sub_one_eq_mod]
  obtain ⟨j, hj, hji⟩ := exists_add_mod_eq s.cursor hi
  exact ⟨j, hj, (hmask j).trans hji⟩

theorem probed_eq (s : ShardedStore) :
    s.probed = (((List.range s.shards.size).map s.onCircuit).filter
      fun j => !(s.shard j).isEmpty).take probeLimit := by
  rw [probed, occupied_eq, List.range_eq_range']

/-- No more shards are probed than the limit allows, and only shards that hold something. -/
theorem length_probed_le (s : ShardedStore) : s.probed.length ≤ probeLimit := by
  rw [probed_eq]
  exact List.length_take_le _ _

/-- The circuit comes to no shard twice. -/
theorem Valid.nodup_probed (h : s.Valid) : s.probed.Nodup := by
  obtain ⟨n, hn⟩ := h.count
  have hmask : s.onCircuit = fun j => (s.cursor + j) % s.shards.size := by
    funext j
    rw [onCircuit, hn, Nat.and_two_pow_sub_one_eq_mod]
  have hround := nodup_round s.cursor s.shards.size s.shards.size
  rw [Nat.min_self] at hround
  rw [probed_eq, hmask]
  exact (hround.filter _).sublist (List.take_sublist _ _)

/-- What a search puts forward is an entry that is not protected. -/
theorem Filed.of_pick? (h : s.Filed) {rank : Entry → Rank} {protect : Option TileKey}
    (he : s.pick? rank protect = some e) : s.get? e.key = some e ∧ some e.key ≠ protect := by
  obtain ⟨c, hc, rfl⟩ := Option.map_eq_some_iff.1 he
  obtain ⟨i, -, hi⟩ := List.mem_filterMap.1 (Shard.mem_of_foldl_better hc)
  obtain ⟨k, hk, hp⟩ := Shard.exists_of_sample hi
  obtain rfl := h.key hk
  exact ⟨h.get?_of_shard hk, hp⟩

theorem Filed.exists_of_not_isEmpty (h : s.Filed) (hi : ¬(s.shard i).isEmpty) :
    ∃ k e, (s.shard i).get? k = some e := by
  have hpos : 0 < (s.shard i).row.size := by
    rw [Shard.isEmpty, Array.isEmpty_iff_size_eq_zero] at hi
    omega
  obtain ⟨e, he⟩ := Option.isSome_iff_exists.1
    ((h.lined i).isSome_get?_iff.2 (Array.getElem_mem hpos))
  exact ⟨_, e, he⟩

theorem Filed.not_isEmpty (h : s.Filed) (hk : (s.shard i).get? k = some e) :
    ¬(s.shard i).isEmpty := by
  intro hempty
  have hm := (h.lined i).isSome_get?_iff.1 (by rw [hk]; rfl)
  rw [Shard.isEmpty, Array.isEmpty_iff] at hempty
  rw [hempty] at hm
  exact absurd hm (Array.not_mem_empty _)

/-- If a search finds nothing, everything is protected: the protected key lies in one shard, so no
more than one shard was probed, and there would have been more to probe if more held something. -/
theorem Valid.eq_protect_of_pick? (h : s.Valid) {rank : Entry → Rank} {protect : Option TileKey}
    (hnone : s.pick? rank protect = none) : ∀ e ∈ s.entries, some e.key = protect := by
  have hall : ∀ i ∈ s.probed, ∀ k, ((s.shard i).get? k).isSome → some k = protect := by
    intro i hi
    rw [pick?, Option.map_eq_none_iff, Shard.foldl_better_eq_none_iff,
      List.filterMap_eq_nil_iff] at hnone
    exact (h.filed.lined i).eq_protect_of_sample (by decide) (hnone i hi)
  have hsame : ∀ i ∈ s.probed, ∀ j ∈ s.probed, i = j := by
    have hshard : ∀ i ∈ s.probed, ∃ k, some k = protect ∧ s.shardOf k = i := by
      intro i hi
      have hfull : ¬(s.shard i).isEmpty := by
        rw [probed_eq] at hi
        simpa using (List.mem_filter.1 (List.mem_of_mem_take hi)).2
      obtain ⟨k, e, he⟩ := h.filed.exists_of_not_isEmpty hfull
      exact ⟨k, hall i hi k (by rw [he]; rfl), h.filed.shardOf he⟩
    intro i hi j hj
    obtain ⟨k, hk, rfl⟩ := hshard i hi
    obtain ⟨l, hl, rfl⟩ := hshard j hj
    rw [Option.some.inj (hk.trans hl.symm)]
  have hshort : s.probed.length ≤ 1 := by
    by_contra hlong
    have h₀ : 0 < s.probed.length := by omega
    have h₁ : 1 < s.probed.length := by omega
    have heq := hsame s.probed[0] (List.getElem_mem h₀) s.probed[1] (List.getElem_mem h₁)
    have := (List.Nodup.getElem_inj_iff h.nodup_probed).1 heq
    omega
  have hcomplete : ∀ i < s.shards.size, ¬(s.shard i).isEmpty → i ∈ s.probed := by
    intro i hi hfull
    obtain ⟨j, hj, rfl⟩ := h.exists_onCircuit hi
    rw [probed_eq, List.length_take] at hshort
    rw [probed_eq, List.take_of_length_le (by unfold probeLimit at *; omega)]
    exact List.mem_filter.2 ⟨List.mem_map.2 ⟨j, List.mem_range.2 hj, rfl⟩, by simpa using hfull⟩
  intro e he
  have hget : (s.shard (s.shardOf e.key)).get? e.key = some e := h.filed.mem_entries.1 he
  refine hall _ (hcomplete _ (h.filed.shardOf_lt e.key) (h.filed.not_isEmpty hget)) e.key ?_
  rw [hget]
  rfl

theorem rows_editShard_advance (s : ShardedStore) (i count j : Nat) :
    ((s.editShard i (·.advance count)).shard j).table = (s.shard j).table ∧
      ((s.editShard i (·.advance count)).shard j).row = (s.shard j).row := by
  rw [editShard, shard, shard, Array.getElem?_modify]
  split
  · cases s.shards[j]? <;> exact ⟨rfl, rfl⟩
  · exact ⟨rfl, rfl⟩

/-- A search moves hands and the cursor, and nothing else. -/
theorem advance_rows (s : ShardedStore) :
    s.advance.shards.size = s.shards.size ∧ s.advance.catalogues = s.catalogues ∧
      ∀ i, (s.advance.shard i).table = (s.shard i).table ∧
        (s.advance.shard i).row = (s.shard i).row := by
  have hfold : ∀ (is : List Nat) (t : ShardedStore),
      let t' := is.foldl (fun s i => s.editShard i (·.advance sampleSize)) t
      t'.shards.size = t.shards.size ∧ t'.catalogues = t.catalogues ∧
        ∀ i, (t'.shard i).table = (t.shard i).table ∧ (t'.shard i).row = (t.shard i).row := by
    intro is
    induction is with
    | nil => exact fun t => ⟨rfl, rfl, fun i => ⟨rfl, rfl⟩⟩
    | cons i is ih =>
      intro t
      obtain ⟨hsize, hcatalogues, hrows⟩ := ih (t.editShard i (·.advance sampleSize))
      have hstep := rows_editShard_advance t i sampleSize
      exact ⟨hsize.trans (size_editShard t i _), hcatalogues,
        fun j => ⟨(hrows j).1.trans (hstep j).1, (hrows j).2.trans (hstep j).2⟩⟩
  exact hfold s.probed s

/-- A store whose rows and catalogues are those of a valid one is valid. -/
theorem Valid.of_rows (h : s.Valid) {s' : ShardedStore} (hsize : s'.shards.size = s.shards.size)
    (hcatalogues : s'.catalogues = s.catalogues)
    (hrows : ∀ i, (s'.shard i).table = (s.shard i).table ∧ (s'.shard i).row = (s.shard i).row) :
    s'.Valid ∧ s'.get? = s.get? := by
  obtain ⟨hfiled, hget⟩ := h.filed.of_rows s' hsize hrows
  have hof : s'.catalogueOf = s.catalogueOf := by
    funext image
    rw [catalogueOf, hcatalogues, catalogueOf]
  refine ⟨⟨hsize ▸ h.count, ?_, hfiled, fun i => ?_⟩, hget⟩
  · rw [hcatalogues, hsize]
    exact h.same
  · rw [hof, hget, catalogue, hcatalogues]
    exact h.indexed i

theorem Valid.advance (h : s.Valid) : s.advance.Valid ∧ s.advance.get? = s.get? :=
  have ⟨hsize, hcatalogues, hrows⟩ := s.advance_rows
  h.of_rows hsize hcatalogues hrows

/-- What a search puts forward is still under its key when the search is over, so to remove it if it is
still the same is to remove it. -/
theorem Valid.eraseIfSame_of_pick? (h : s.Valid) {rank : Entry → Rank} {protect : Option TileKey}
    (he : s.pick? rank protect = some e) :
    let shard := s.advance.shard (s.advance.shardOf e.key)
    shard.eraseIfSame e.key e = some (shard.erase e.key) := by
  have hfound : s.advance.get? e.key = some e := by
    rw [h.advance.2]
    exact (h.filed.of_pick? he).1
  exact if_pos hfound

/-- The store with the cursor and the hands anywhere. -/
def aimed (s : ShardedStore) (cursor : Nat) (hands : Nat → Nat) : ShardedStore where
  shards := s.shards.mapIdx fun i shard => { shard with hand := hands i }
  catalogues := s.catalogues
  cursor := cursor

theorem Valid.aimed (h : s.Valid) (cursor : Nat) (hands : Nat → Nat) :
    (s.aimed cursor hands).Valid ∧ (s.aimed cursor hands).get? = s.get? := by
  refine h.of_rows Array.size_mapIdx rfl fun i => ?_
  rw [shard, shard, ShardedStore.aimed, Array.getElem?_mapIdx]
  cases s.shards[i]? <;> exact ⟨rfl, rfl⟩

/-- A search finds a victim unless there is none, wherever the cursor and the hands are. -/
theorem Valid.pick?_aimed_eq_none_iff (h : s.Valid) (cursor : Nat) (hands : Nat → Nat)
    {rank : Entry → Rank} {protect : Option TileKey} :
    (s.aimed cursor hands).pick? rank protect = none ↔ ∀ e ∈ s.entries, some e.key = protect := by
  obtain ⟨hvalid, hget⟩ := h.aimed cursor hands
  have hmem : ∀ e, e ∈ (s.aimed cursor hands).entries ↔ e ∈ s.entries := fun e => by
    rw [hvalid.filed.mem_entries, hget, h.filed.mem_entries]
  constructor
  · intro hnone e he
    exact hvalid.eq_protect_of_pick? hnone e ((hmem e).2 he)
  · intro hall
    refine Option.eq_none_iff_forall_ne_some.2 fun e he => ?_
    obtain ⟨he, hp⟩ := hvalid.filed.of_pick? he
    exact hp (hall e ((hmem e).1 (hvalid.filed.mem_entries.2 he)))

theorem not_isEmpty_of_mem_probed (hi : i ∈ s.probed) : ¬(s.shard i).isEmpty := by
  rw [probed_eq] at hi
  simpa using (List.mem_filter.1 (List.mem_of_mem_take hi)).2

@[simp] theorem shard_new (count i : Nat) : (ShardedStore.new count).shard i = {} := by
  rw [shard, ShardedStore.new, Array.getElem?_replicate]
  split <;> rfl

@[simp] theorem catalogue_new (count i : Nat) : (ShardedStore.new count).catalogue i = {} := by
  rw [catalogue, ShardedStore.new, Array.getElem?_replicate]
  split <;> rfl

@[simp] theorem get?_new (count : Nat) : (ShardedStore.new count).get? = fun _ => none := by
  funext k
  simp [get?, Shard.get?]

theorem Valid.new {count : Nat} (hcount : ∃ n, count = 2 ^ n) : (ShardedStore.new count).Valid := by
  have hpos : 0 < count := by
    obtain ⟨n, rfl⟩ := hcount
    exact Nat.two_pow_pos n
  have hnone : ∀ i k, ((ShardedStore.new count).shard i).get? k = none := by simp [Shard.get?]
  refine ⟨by simpa [ShardedStore.new] using hcount, by simp [ShardedStore.new],
    ⟨by simpa [ShardedStore.new] using hpos, fun i => shard_new count i ▸ .empty, ?_, ?_, ?_⟩,
    fun i => ?_⟩
  · intro i k e hk
    cases (hnone i k).symm.trans hk
  · intro i k e hk
    cases (hnone i k).symm.trans hk
  · intro i k e hk
    cases (hnone i k).symm.trans hk
  · rw [catalogue_new]
    exact Catalogue.Indexes.empty.congr fun image k => by simp [Tiles.Has]

instance : Shelved ShardedStore where
  get? := get?
  entries := entries
  keysOf := keysOf
  Valid := Valid
  shelf h := h.filed.shelf
  nodup_keysOf _ image := Catalogue.nodup_keys _ image
  mem_keysOf := Valid.mem_keysOf

end TileStore.ShardedStore
