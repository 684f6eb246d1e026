import TileStore.Proofs.Sharded.Victims

/-!
# What a search sees

A search looks at few entries, and of these it puts forward the one that ranks first: `sampled_search`.
Which it looks at is told here from the state alone, by going round from the cursor and from the hands,
as `nearest` and `InView`. What it leaves behind is the same store with the cursor and the hands of the
probed shards moved on, `advance_eq`. As a sample starts where the last one of the shard stopped, samples
in succession come to every entry, `Shard.Lined.exists_window`.
-/

namespace TileStore

/-! ### Samples in succession -/

namespace Shard

variable {α : Type} {d : Shard α} {k : TileKey} {x : α} {count calls : Nat}

/-- Samples move the hand by as many places as they look at. -/
theorem iterate_advance (d : Shard α) (count calls : Nat) :
    (·.advance count)^[calls] d = { d with hand := d.hand + calls * min count d.row.size } := by
  induction calls with
  | zero => rw [Nat.zero_mul, Nat.add_zero, Function.iterate_zero, id_eq]
  | succ calls ih =>
    rw [Function.iterate_succ_apply', ih, advance, Nat.succ_mul, Nat.add_assoc]

/-- What a window shows stands at one of the places from the hand on. -/
theorem mem_window_iff : (k, x) ∈ d.window count ↔ d.get? k = some x ∧
    ∃ j < min count d.row.size, d.row[(d.hand + j) % d.row.size]? = some k := by
  rw [mem_window]
  simp only [List.mem_map, List.mem_range, Nat.mod_add_mod]
  constructor
  · rintro ⟨hx, _, ⟨j, hj, rfl⟩, hk⟩
    exact ⟨hx, j, hj, hk⟩
  · rintro ⟨hx, j, hj, hk⟩
    exact ⟨hx, _, ⟨j, hj, rfl⟩, hk⟩

/-- Samples in succession that look at as many places as there are in the row come to every entry. -/
theorem Lined.exists_window (h : d.Lined) (hcalls : d.row.size ≤ calls * min count d.row.size)
    (hx : d.get? k = some x) : ∃ j < calls, (k, x) ∈ ((·.advance count)^[j] d).window count := by
  obtain ⟨p, hp⟩ := Array.mem_iff_getElem?.1 (h.isSome_get?_iff.1 (by rw [hx]; rfl))
  obtain ⟨j, hj, i, hi, hplace⟩ := exists_stretch d.hand (Array.getElem?_eq_some_iff.1 hp).1 hcalls
  refine ⟨j, hj, mem_window_iff.2 ?_⟩
  rw [iterate_advance]
  refine ⟨hx, i, hi, ?_⟩
  rw [hplace]
  exact hp

end Shard

/-- What ranks before something stale is stale. -/
theorem Rank.live_of_isLE {a b : Rank} (h : (compare a b).isLE) (hb : b.live = false) :
    a.live = false := by
  change ((compare a.live b.live).then ((a.cost.totalCompare b.cost).then
    ((compare a.lastAccess b.lastAccess).then (compare a.seq b.seq)))).isLE at h
  rw [hb] at h
  cases ha : a.live with
  | false => rfl
  | true =>
    rw [ha] at h
    cases h

/-! ### Searches -/

namespace ShardedStore

variable {s : ShardedStore} {e f : Entry} {rank : Entry → Rank} {protect : Option TileKey}

/-- The first four shards that hold something, going round from the cursor. -/
def nearest (s : ShardedStore) : List Nat :=
  (((List.range s.shards.size).map fun t => (s.cursor + t) % s.shards.size).filter
    fun i => !(s.shard i).isEmpty).take 4

/-- An entry stands at one of the eight places from the hand on, in one of the nearest shards. Where
there are fewer places, all of them are meant. -/
def InView (s : ShardedStore) (e : Entry) : Prop :=
  ∃ i ∈ s.nearest, ∃ j < min 8 (s.shard i).row.size,
    (s.shard i).row[((s.shard i).hand + j) % (s.shard i).row.size]? = some e.key ∧
      (s.shard i).get? e.key = some e

theorem Valid.probed_eq_nearest (h : s.Valid) : s.probed = s.nearest := by
  obtain ⟨n, hn⟩ := h.count
  have hmask : s.onCircuit = fun t => (s.cursor + t) % s.shards.size := by
    funext t
    rw [onCircuit, hn, Nat.and_two_pow_sub_one_eq_mod]
  rw [probed_eq, hmask]
  rfl

/-- In view is what samples see. -/
theorem Valid.inView_iff (h : s.Valid) :
    s.InView e ↔ ∃ i ∈ s.probed, (e.key, e) ∈ (s.shard i).window sampleSize := by
  rw [h.probed_eq_nearest, InView]
  refine exists_congr fun i => and_congr_right fun _ => ?_
  rw [Shard.mem_window_iff]
  constructor
  · rintro ⟨j, hj, hk, he⟩
    exact ⟨he, j, hj, hk⟩
  · rintro ⟨he, j, hj, hk⟩
    exact ⟨j, hj, hk, he⟩

/-- A search finds nothing if nothing is in view but the protected entry. -/
theorem Valid.pick?_eq_none_iff (h : s.Valid) :
    s.pick? rank protect = none ↔ ∀ e, s.InView e → some e.key = protect := by
  rw [pick?, Option.map_eq_none_iff, Shard.foldl_better_eq_none_iff, List.filterMap_eq_nil_iff]
  constructor
  · intro hnone e he
    obtain ⟨i, hi, hw⟩ := h.inView_iff.1 he
    exact Shard.sample_eq_none_iff.1 (hnone i hi) _ _ hw
  · intro hall i hi
    refine Shard.sample_eq_none_iff.2 fun k e hw => ?_
    obtain rfl := h.filed.key (Shard.mem_window_iff.1 hw).1
    exact hall e (h.inView_iff.2 ⟨i, hi, hw⟩)

/-- What a search puts forward ranks first of all that is in view, the protected entry aside. -/
theorem Valid.least_of_pick? (h : s.Valid) (he : s.pick? rank protect = some e) :
    s.InView e ∧ some e.key ≠ protect ∧
      ∀ f, s.InView f → some f.key ≠ protect → (compare (rank e) (rank f)).isLE := by
  obtain ⟨c, hc, rfl⟩ := Option.map_eq_some_iff.1 he
  obtain ⟨i, hi, hd⟩ := List.mem_filterMap.1 (Shard.mem_of_foldl_better hc)
  obtain ⟨⟨k, hw, hp⟩, hrank, -⟩ := Shard.least_of_sample hd
  obtain rfl := h.filed.key (Shard.mem_window_iff.1 hw).1
  refine ⟨h.inView_iff.2 ⟨i, hi, hw⟩, hp, fun f hf hfp => ?_⟩
  -- the shard of `f` has a sample, which comes before `f` and not before what was put forward
  obtain ⟨j, hj, hfw⟩ := h.inView_iff.1 hf
  rcases hsample : (s.shard j).sample rank sampleSize protect with _ | d
  · exact absurd (Shard.sample_eq_none_iff.1 hsample _ _ hfw) hfp
  · obtain ⟨-, -, hleast⟩ := Shard.least_of_sample hsample
    rw [← hrank]
    exact Std.TransCmp.isLE_trans
      (Shard.least_of_foldl_better hc d (List.mem_filterMap.2 ⟨j, hj, hsample⟩))
      (hleast f.key f hfw hfp)

/-- Different shards are changed one after the other. -/
theorem foldl_editShard (f : Shard Entry → Shard Entry) {is : List Nat} (his : is.Nodup)
    (s : ShardedStore) : is.foldl (fun s i => s.editShard i f) s =
      { s with shards := s.shards.mapIdx fun i d => if i ∈ is then f d else d } := by
  induction is generalizing s with
  | nil =>
    have hsame : s.shards.mapIdx (fun i d => if i ∈ [] then f d else d) = s.shards :=
      Array.ext Array.size_mapIdx (by simp)
    rw [List.foldl_nil, hsame]
  | cons i is ih =>
    obtain ⟨hi, his⟩ := List.nodup_cons.1 his
    rw [List.foldl_cons, ih his, editShard]
    refine congrArg (fun shards => { s with shards := shards }) (Array.ext ?_ fun j hj hj' => ?_)
    · rw [Array.size_mapIdx, Array.size_mapIdx, Array.size_modify]
    rw [Array.getElem_mapIdx, Array.getElem_mapIdx, Array.getElem_modify]
    by_cases hij : i = j
    · subst hij
      rw [if_pos rfl, if_neg hi, if_pos List.mem_cons_self]
    · rw [if_neg hij]
      simp [Ne.symm hij]

/-- After a search the cursor has moved on, and so have the hands of the probed shards. -/
theorem Valid.advance_eq (h : s.Valid) : s.advance =
    { shards := s.shards.mapIdx fun i d =>
        if i ∈ s.nearest then { d with hand := d.hand + min 8 d.row.size } else d
      catalogues := s.catalogues
      cursor := s.cursor + 1 } := by
  rw [ShardedStore.advance, foldl_editShard _ h.nodup_probed, h.probed_eq_nearest]
  rfl

end ShardedStore

/-- **A search puts forward what ranks first of all it sees.** From any state of the store, with the
cursor and the hands anywhere, nothing is found only if nothing is in view but the protected entry. So
if something stale is in view that is not protected, what is put forward is stale. The search moves the
cursor and the hands of the nearest shards, and changes nothing else. Samples of one shard in succession
that look at as many places as it has entries come to all of them. -/
theorem sampled_search {v : Sharded} (h : v.store.Valid) (m : Moment) (protect : Option TileKey) :
    (v.store.pick? (v.rank m) protect = none ↔
      ∀ e, v.store.InView e → some e.key = protect) ∧
    (∀ e, v.store.pick? (v.rank m) protect = some e → v.store.InView e ∧ some e.key ≠ protect ∧
      ∀ f, v.store.InView f → some f.key ≠ protect →
        (compare (v.rank m e) (v.rank m f)).isLE) ∧
    (∀ f, v.store.InView f → some f.key ≠ protect → f.isStale m →
      ∃ e, v.store.pick? (v.rank m) protect = some e ∧ e.isStale m) ∧
    v.store.advance =
      { shards := v.store.shards.mapIdx fun i d =>
          if i ∈ v.store.nearest then { d with hand := d.hand + min 8 d.row.size } else d
        catalogues := v.store.catalogues
        cursor := v.store.cursor + 1 } ∧
    ∀ {α : Type} (d : Shard α), d.Lined → ∀ count calls,
      d.row.size ≤ calls * min count d.row.size → ∀ k x, d.get? k = some x →
        ∃ j < calls, (k, x) ∈ ((·.advance count)^[j] d).window count := by
  refine ⟨h.pick?_eq_none_iff, fun e he => h.least_of_pick? he, fun f hf hp hstale => ?_,
    h.advance_eq, fun d hd count calls hcalls k x hx => hd.exists_window hcalls hx⟩
  rcases hpick : v.store.pick? (v.rank m) protect with _ | e
  · exact absurd (h.pick?_eq_none_iff.1 hpick f hf) hp
  · obtain ⟨-, -, hleast⟩ := h.least_of_pick? hpick
    refine ⟨e, rfl, ?_⟩
    have hgone : (v.rank m f).live = false := by
      simpa [Vault.rank, Rank.of, Entry.isStale] using hstale
    have hlive := Rank.live_of_isLE (hleast f hf hp) hgone
    simpa [Vault.rank, Rank.of, Entry.isStale] using hlive

/-- Of three tiles in four shards the second one belongs to an owner that has gone, so it is put
forward. Two samples of two places each come to all of three entries. -/
theorem sampled_search_three_tiles :
    let m : Moment := ⟨5, fun n => n ≠ 1⟩
    let add (owner : Nat) (x : Int32) : Request Owner Identity :=
      .add ⟨owner, .hashed 1⟩ ⟨x, 0⟩ ⟨⟨8, 100, 1⟩, 0⟩ none
    let s : Settings := { capacity := 16384 }
    let c := [add 0 0, add 1 1, add 0 2].foldl (fun c q => ((q.perform m).result c).2)
      (Cache.new s 0)
    let key (x : Int32) := TileKey.of (.hashed 1) ⟨x, 0⟩
    let d := ((({} : Shard Int32).insert (key 0) 0).insert (key 1) 1).insert (key 2) 2
    (∃ v e, c = .sharded v ∧ v.store.Valid ∧ v.store.pick? (v.rank m) none = some e ∧ e.seq = 1 ∧
      v.store.InView e ∧ e.isStale m ∧ v.store.advance.cursor = v.store.cursor + 1) ∧
    ∀ x ∈ [0, 1, 2], ∃ j < 2, (key x, x) ∈ ((·.advance 2)^[j] d).window 2 := by
  intro m add s c key d
  have hnew : Cache.Reaches Cache.HasRoom (Cache.new s 0) := .built (s := s) rfl
  have hone := hnew.next (m := m) (r := add 0 0) (by decide +kernel)
  have htwo := hone.next (m := m) (r := add 1 1) (by decide +kernel)
  have hc : Cache.Reaches Cache.HasRoom c :=
    htwo.next (m := m) (r := add 0 2) (by decide +kernel)
  have hlayout : c.layout = .sharded := by decide +kernel
  have hpick : Cache.casesOn (motive := fun _ => Option (Nat × Bool)) c (fun _ => none)
      (fun v => (v.store.pick? (v.rank m) none).map fun e => (e.seq, e.isStale m)) =
      some (1, true) := by decide +kernel
  have hd : d.Lined := ((Shard.Lined.empty.insert _ _).insert _ _).insert _ _
  have hsize : d.row.size ≤ 2 * min 2 d.row.size := by decide +kernel
  -- to decide this for the members of the list must not mean to try all words
  have hget : [0, 1, 2].all fun x => d.get? (key x) = some x := by decide +kernel
  clear_value c
  cases c with
  | linked v => cases hlayout
  | sharded v =>
    obtain ⟨e, he, hseq⟩ := Option.map_eq_some_iff.1 hpick
    obtain ⟨hseq, hstale⟩ := Prod.mk.inj hseq
    have hvalid : v.store.Valid := Vault.Sound.valid hc.sound
    obtain ⟨-, hleast, hfound, hadvance, hcover⟩ := sampled_search hvalid m none
    obtain ⟨hview, hp, -⟩ := hleast e he
    obtain ⟨e', he', hstale'⟩ := hfound e hview hp hstale
    refine ⟨⟨v, e', rfl, hvalid, he', ?_, ?_, hstale', congrArg ShardedStore.cursor hadvance⟩,
      fun x hx => hcover d hd 2 2 hsize _ x (of_decide_eq_true (List.all_eq_true.1 hget x hx))⟩
    · rw [← hseq, Option.some.inj (he'.symm.trans he)]
    · exact (hleast e' he').1

end TileStore
