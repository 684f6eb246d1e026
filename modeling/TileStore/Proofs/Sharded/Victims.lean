import TileStore.Proofs.Eviction
import TileStore.Proofs.Queue
import TileStore.Proofs.Starts

/-!
# The victims of a small sharded cache

A search probes four shards and looks at eight entries in each. While there is no more to look at, it
misses nothing. So each victim of a pass has the least rank of all that may go, and since no two
entries have the same number, all victims go in strictly increasing order of rank: `evict_takes`. An
eviction moves other entries in the row of its shard, and every search moves the cursor and the hands,
but neither adds an entry to a shard, `Few.left`, and the ranks of the others stay what they are.

The main result is `sharded_victims`, about the passes of any cache that can come about. The order of
the ranks is put in plain words there, as `Vault.Precedes`.
-/

namespace TileStore

open Vault

/-! ### Ranks -/

/-- Ranks are told apart by the numbers of entries. -/
theorem Rank.seq_eq_of_compare {a b : Rank} (h : compare a b = .eq) : a.seq = b.seq := by
  change (compare a.live b.live).then ((a.cost.totalCompare b.cost).then
    ((compare a.lastAccess b.lastAccess).then (compare a.seq b.seq))) = .eq at h
  simp only [Ordering.then_eq_eq] at h
  exact Std.LawfulEqOrd.eq_of_compare h.2.2.2

/-- One entry comes before another: what has no owner any more before what has one, then what costs
less, then what was used longer ago, then what was made first. -/
def Vault.Precedes {σ : Type} (m : Moment) (v : Vault σ) (e f : Entry) : Prop :=
  (e.isStale m ∧ ¬f.isStale m) ∨ (e.isStale m = f.isStale m ∧
    (e.worth < f.worth ∨ (e.worth = f.worth ∧
      ((v.status e).lastAccess < (v.status f).lastAccess ∨
        ((v.status e).lastAccess = (v.status f).lastAccess ∧ e.seq < f.seq)))))

/-- Ranks are in the order of precedence. -/
theorem Vault.compare_rank_eq_lt_iff {σ : Type} {m : Moment} {v : Vault σ} {e f : Entry}
    (he : e.Made) (hf : f.Made) :
    compare (v.rank m e) (v.rank m f) = .lt ↔ v.Precedes m e f := by
  have hgone : compare (m.alive e.owner) (m.alive f.owner) = .lt ↔ e.isStale m ∧ ¬f.isStale m := by
    unfold Entry.isStale
    cases m.alive e.owner <;> cases m.alive f.owner <;> decide
  have hsame : compare (m.alive e.owner) (m.alive f.owner) = .eq ↔ e.isStale m = f.isStale m := by
    unfold Entry.isStale
    cases m.alive e.owner <;> cases m.alive f.owner <;> decide
  have hcheaper : (e.cost.getD .zero).bits < (f.cost.getD .zero).bits ↔ e.worth < f.worth := by
    rw [← UInt64.not_le, ← not_le, hf.worth_le_iff he]
  have hequal : (e.cost.getD .zero).bits = (f.cost.getD .zero).bits ↔ e.worth = f.worth := by
    rw [le_antisymm_iff (a := e.worth), he.worth_le_iff hf, hf.worth_le_iff he]
    exact ⟨fun h => ⟨UInt64.le_of_eq h, UInt64.le_of_eq h.symm⟩,
      fun h => UInt64.le_antisymm h.1 h.2⟩
  rw [Precedes, ← hgone, ← hsame, ← hcheaper, ← hequal]
  change (compare (m.alive e.owner) (m.alive f.owner)).then
    (((e.cost.getD .zero).totalCompare (f.cost.getD .zero)).then
      ((compare (v.status e).lastAccess (v.status f).lastAccess).then
        (compare e.seq f.seq))) = .lt ↔ _
  rw [Binary64.totalCompare_of_nonneg he.nonneg hf.nonneg]
  simp only [Ordering.then_eq_lt, Std.compare_eq_lt, Std.compare_eq_iff_eq]

theorem Vault.rank_congr {σ τ : Type} {v : Vault σ} {w : Vault τ} {e : Entry}
    (h : (w.status e).lastAccess = (v.status e).lastAccess) (m : Moment) :
    w.rank m e = v.rank m e := by
  rw [Vault.rank, Vault.rank, Rank.of, Rank.of, h]

/-! ### Few entries -/

theorem Shard.isEmpty_iff {d : Shard Entry} : d.isEmpty ↔ d.row.size = 0 :=
  Array.isEmpty_iff_size_eq_zero

theorem Shard.size_row_erase_le (d : Shard Entry) (k : TileKey) :
    (d.erase k).row.size ≤ d.row.size := by
  unfold erase
  split
  · simp
  · exact Nat.le_refl _

namespace ShardedStore

variable {s s' : ShardedStore} {k : TileKey} {i : Nat}

/-- What is taken out of a store with few entries leaves few. -/
theorem Few.left (h : s.Few) (hsize : s'.shards.size = s.shards.size)
    (hrows : ∀ i, (s'.shard i).row.size ≤ (s.shard i).row.size) : s'.Few where
  occupied := by
    have hcount := h.occupied
    rw [toList_shards, List.countP_map] at hcount ⊢
    rw [hsize]
    refine (List.countP_mono_left fun i _ hfull => ?_).trans hcount
    have := hrows i
    simp only [Function.comp_apply, Bool.not_eq_true', Bool.eq_false_iff, ne_eq,
      Shard.isEmpty_iff] at hfull ⊢
    omega
  rows d hd := by
    rw [toList_shards] at hd
    obtain ⟨i, -, rfl⟩ := List.mem_map.1 hd
    exact (hrows i).trans (h.size_row_le i)

@[simp] theorem aimed_self (s : ShardedStore) :
    s.aimed s.cursor (fun i => (s.shard i).hand) = s := by
  have hshards : s.shards.mapIdx (fun i d => { d with hand := (s.shard i).hand }) = s.shards := by
    refine Array.ext Array.size_mapIdx fun i hi hi' => ?_
    rw [Array.getElem_mapIdx, shard, Array.getElem?_eq_getElem hi', Option.getD_some]
  rw [aimed, hshards]

theorem Few.aimed (h : s.Few) (cursor : Nat) (hands : Nat → Nat) : (s.aimed cursor hands).Few := by
  refine h.left Array.size_mapIdx fun i => ?_
  rw [shard, shard, ShardedStore.aimed, Array.getElem?_mapIdx]
  cases s.shards[i]? <;> exact Nat.le_refl _

/-- Four entries are few, wherever they are. -/
theorem Filed.few_of_four (h : s.Filed) (hfour : s.entries.length ≤ 4) : s.Few where
  occupied := by
    let full := (List.range s.shards.size).filter fun i => !(s.shard i).isEmpty
    have hsubset : full ⊆ s.entries.map fun e => s.shardOf e.key := by
      intro i hi
      obtain ⟨k, e, hk⟩ := h.exists_of_not_isEmpty (i := i) (by simpa using (List.mem_filter.1 hi).2)
      obtain rfl := h.key hk
      obtain rfl := h.shardOf hk
      exact List.mem_map_of_mem (h.mem_entries.2 hk)
    have hle := (List.subperm_of_subset (List.nodup_range.filter _) hsubset).length_le
    rw [List.length_map] at hle
    rw [toList_shards, List.countP_map, List.countP_eq_length_filter]
    exact hle.trans hfour
  rows d hd := by
    rw [toList_shards] at hd
    obtain ⟨i, -, rfl⟩ := List.mem_map.1 hd
    exact (h.size_row_le i).trans (hfour.trans (by decide))

/-- In few shards there are no more than eight entries for each that holds something. -/
theorem Few.length_entries_le (h : s.Few) : s.entries.length ≤ 32 := by
  have hall : ∀ ds : List (Shard Entry), (∀ d ∈ ds, d.row.size ≤ 8) →
      (ds.flatMap Shard.values).length ≤ 8 * ds.countP (!·.isEmpty) := by
    intro ds hds
    induction ds with
    | nil => exact Nat.zero_le _
    | cons d ds ih =>
      have hvalues : d.values.length ≤ d.row.size :=
        (List.length_filterMap_le _ _).trans_eq Array.length_toList
      have hd := hds d List.mem_cons_self
      have hrest := ih fun d' hd' => hds d' (List.mem_cons_of_mem d hd')
      rw [List.flatMap_cons, List.length_append, List.countP_cons]
      split
      · omega
      · next hempty =>
        rw [Bool.not_eq_true', Bool.not_eq_false, Shard.isEmpty_iff] at hempty
        omega
  have hlength := hall _ h.rows
  have hcount := h.occupied
  rw [entries]
  omega

end ShardedStore

/-! ### Passes -/

namespace Sharded

variable {v : Sharded} {m : Moment} {e : Entry} {protect : Option TileKey} {target : UInt64}
  {queue : List Entry}

/-- An eviction takes one entry out of a shard, and no entry is used. -/
theorem evictEntry_rows (e : Entry) (v : Sharded) :
    (evictEntry e).Meets v False fun _ v' =>
      (v'.store.shards.size = v.store.shards.size ∧
        ∀ i, (v'.store.shard i).row.size ≤ (v.store.shard i).row.size) ∧
      ∀ f, (v'.status f).lastAccess = (v.status f).lastAccess := by
  unfold evictEntry
  simp only [Mutation.meets_bind, inStore, Mutation.meets_within]
  refine (ShardedStore.take_meets v.store e.key).mono False.elim ?_
  rintro _ s ⟨-, rfl⟩
  refine (ShardedStore.strike_shards e.image e.key _).imp fun _ s hshards => ?_
  refine Mutation.meets_within.2 (Mutation.meets_of_forall fun _ l _ => ?_)
  refine Mutation.meets_modify.2 ⟨⟨?_, fun i => ?_⟩, fun f => Register.lastAccess_mark ..⟩
  · exact (congrArg Array.size hshards).trans (ShardedStore.size_editShard ..)
  · change (s.shard i).row.size ≤ _
    rw [ShardedStore.shard, hshards, ← ShardedStore.shard, ShardedStore.editShard,
      ShardedStore.shard, Array.getElem?_modify]
    split
    · rw [ShardedStore.shard]
      cases v.store.shards[i]? with
      | none => exact Nat.le_refl _
      | some d => exact d.size_row_erase_le e.key
    · exact Nat.le_refl _

/-- From few entries go those that are first in the order of ranks. -/
theorem evictSampled_takes (fuel : Nat) (h : v.Sound) (hfew : v.store.Few)
    (hqueue : InLine (v.rank m) (exposed protect v.entries) queue)
    (hfuel : v.entries.length < fuel) :
    (evictSampled m target protect fuel).Meets v False fun es _ =>
      Shortest target v.ledger.memoryUsed queue es := by
  induction fuel generalizing v queue with
  | zero => cases hfuel
  | succ fuel ih =>
    rw [evictSampled, Mutation.meets_bind, Mutation.meets_get]
    split
    · next htarget => exact .none_of_le htarget
    · next htarget =>
      rw [Mutation.meets_bind, Mutation.meets_set]
      split
      · next hnone =>
        rw [hqueue.eq_nil (h.valid.eq_protect_of_pick? hnone)]
        exact .nil
      · next e hpick =>
        obtain ⟨he, hp⟩ := h.valid.filed.of_pick? hpick
        have hleast := h.valid.pick?_least hfew hpick
        obtain ⟨hvalid, hget⟩ := h.valid.advance
        obtain ⟨hsize, -, hrows⟩ := v.store.advance_rows
        have hb := Becomes.of_store h hvalid hget
        rw [Mutation.meets_bind]
        refine (((evictEntry_meets hb.sound (hb.tiles ▸ he)).mono False.elim fun _ _ h => h).and
          (evictEntry_rows e _)).imp ?_
        rintro _ v₁ ⟨hb₁, ⟨hsize₁, hrows₁⟩, htimes⟩
        rw [hb.tiles] at hb₁
        have hdrop := hb.trans hb₁
        obtain ⟨rest, hrest, hfront⟩ :=
          hdrop.take_front h (UInt64.not_le.1 htarget) he hp hqueue hleast
        -- the entry is not used by its eviction, and nothing comes into a shard
        have hrest : InLine (v₁.rank m) (exposed protect v₁.entries) rest :=
          hrest.congr fun f _ => rank_congr (htimes f) m
        have hfew₁ : v₁.store.Few := hfew.left (hsize₁.trans hsize) fun i =>
          (hrows₁ i).trans_eq (congrArg Array.size (hrows i).2)
        have hlength := (hdrop.perm_drop h he).length_eq
        rw [List.length_cons] at hlength
        rw [Mutation.meets_bind]
        exact (ih hb₁.sound hfew₁ hrest (by omega)).imp fun _ _ hes => hfront hes

/-- A pass over few entries takes those that are first in the order of ranks. -/
theorem evict_takes (h : v.Sound) (hfew : v.store.Few)
    (hqueue : InLine (v.rank m) (exposed protect v.entries) queue) :
    (evict m protect).Meets v False fun pass _ =>
      Shortest v.ledger.target v.ledger.memoryUsed queue pass.victims := by
  unfold evict
  rw [Mutation.meets_bind, Mutation.meets_get]
  dsimp only
  split
  · next htarget => exact .none_of_le htarget
  · have hlength : v.entries.length < 2 ^ 64 := hfew.length_entries_le.trans_lt (by decide)
    have hfuel : v.entries.length < v.ledger.tileCount.toNat + 1 := by
      rw [h.balanced.tileCount_toNat hlength]
      exact Nat.lt_succ_self _
    rw [Mutation.meets_bind]
    exact (evictSampled_takes _ h hfew hqueue hfuel).imp fun _ _ hes => hes

end Sharded

/-! ### What a pass takes -/

/-- A pass from `v` to `v'` that takes these victims. -/
structure Sharded.Takes (m : Moment) (protect : Option TileKey) (v : Sharded) (victims : List Entry)
    (v' : Sharded) : Prop where
  left : v.entries.Perm (victims ++ v'.entries)
  memoryUsed : v'.ledger.memoryUsed = usedWithout v.ledger.memoryUsed victims
  /-- Every victim comes before everything that is left and might have gone. -/
  first : ∀ e ∈ victims, ∀ f ∈ v'.entries, some f.key ≠ protect → v.Precedes m e f

/-- What may go can be put in line by its ranks. -/
theorem Vault.exists_ranking {σ : Type} [Shelved σ] {v : Vault σ} {next : Nat} (hv : v.Sound)
    (hs : v.tiles.Serial next) (m : Moment) (protect : Option TileKey) :
    ∃ ranking, InLine (v.rank m) (exposed protect v.entries) ranking := by
  refine exists_inLine (hv.shelf.nodup.filter _) fun e he f hf heq => ?_
  have he := (hv.shelf.mem e).1 (mem_exposed.1 he).1
  have hf := (hv.shelf.mem f).1 (mem_exposed.1 hf).1
  exact hs.inj he hf (Rank.seq_eq_of_compare heq)

/-- The ranking is in the order of precedence. -/
theorem Vault.precedes_of_inLine {σ : Type} {v : Vault σ} {m : Moment} {es ranking : List Entry}
    (hmade : ∀ {e}, e ∈ es → e.Made) (h : InLine (v.rank m) es ranking) :
    ranking.Pairwise (v.Precedes m) :=
  h.ordered.imp_of_mem fun he hf =>
    (compare_rank_eq_lt_iff (hmade (h.perm.mem_iff.1 he)) (hmade (h.perm.mem_iff.1 hf))).1

theorem Sharded.takes_of_shortest {v v' : Sharded} {m : Moment} {protect : Option TileKey}
    {ranking victims : List Entry} (hv : v.Sound) (hv' : v'.Sound)
    (hmade : ∀ {e}, e ∈ v.entries → e.Made)
    (hline : InLine (v.rank m) (exposed protect v.entries) ranking)
    (hs : Shortest v.ledger.target v.ledger.memoryUsed ranking victims)
    (hleft : v.entries.Perm (victims ++ v'.entries)) : v.Takes m protect victims v' := by
  refine ⟨hleft, hv.balanced.usedWithout hv'.balanced hleft, fun e he f hf hp => ?_⟩
  have he' : e ∈ v.entries := hleft.mem_iff.2 (List.mem_append_left _ he)
  have hf' : f ∈ v.entries := hleft.mem_iff.2 (List.mem_append_right _ hf)
  have hgone : f ∉ victims := fun hmem =>
    (List.nodup_append.1 (hleft.nodup_iff.1 hv.shelf.nodup)).2.2 f hmem f hf rfl
  have hlt := hline.before hs.first he (mem_exposed.2 ⟨hf', hp⟩) hgone
  exact (compare_rank_eq_lt_iff (hmade he') (hmade hf')).1 hlt

/-- The victims of any pass over few entries of a sharded cache, in order. Whatever was asked of the
cache before, however far the request is that starts the pass and whichever key is protected, what may
go is in a strict order of ranks, and goes in this order until no more is in use than the target allows
or nothing is left that may go. The victims are the same from every store that holds the same in no more
than four shards and no more than eight entries in each: whichever shards these are, in whatever order
the entries stand in their rows, and wherever the cursor and the hands are. The store of the cache is one
that holds the same. While there was always room the pass does not fail. -/
theorem sharded_victims {ok : Moment → Cache → Request Owner Identity → Prop} {v w : Sharded}
    {m : Moment} {q : Request Owner Identity} (hv : Cache.Reaches ok (.sharded v))
    (hw : Sharded.Starts m v q w) (protect : Option TileKey) :
    w.store.Valid ∧ ∃ ranking victims,
      InLine (w.rank m) (exposed protect w.entries) ranking ∧
      ranking.Pairwise (w.Precedes m) ∧
      Shortest w.ledger.target w.ledger.memoryUsed ranking victims ∧
      ∀ s : ShardedStore, s.Valid → s.get? = w.store.get? → s.Few → ∀ cursor hands,
        let w₁ : Sharded := { w with store := s.aimed cursor hands }
        (∀ pass w₂, (Sharded.evict m protect).result w₁ = (.ok pass, w₂) →
          pass.victims = victims ∧ w.Takes m protect victims w₂) ∧
        (Cache.Reaches Cache.HasRoom (.sharded v) → Cache.HasRoom m (.sharded v) q →
          ∃ pass w₂, (Sharded.evict m protect).result w₁ = (.ok pass, w₂)) := by
  obtain ⟨layout, hc⟩ := hv.consistent
  have hb := hw.begins hv.sound
  have hsound : w.Sound := hb.sound
  have hmade : ∀ {e}, e ∈ w.entries → e.Made := fun he =>
    hb.all_made hv.made ((hsound.shelf.mem _).1 he)
  obtain ⟨ranking, hline⟩ := exists_ranking hsound (hb.serial hc.serial) m protect
  obtain ⟨victims, hvictims⟩ :=
    Shortest.exists_shortest w.ledger.target w.ledger.memoryUsed ranking
  have hordered := precedes_of_inLine (fun he => hmade (mem_exposed.1 he).1) hline
  refine ⟨hsound.valid, ranking, victims, hline, hordered, hvictims, ?_⟩
  intro s hs hget hfew cursor hands w₁
  -- the other store holds the same, so it lists the same and has the same ranking
  obtain ⟨haimed, hsame⟩ := hs.aimed cursor hands
  have hb₁ : w.Becomes w.tiles w₁ := .of_store hsound haimed (hsame.trans hget)
  have hperm : w.entries.Perm w₁.entries := hb₁.perm hsound
  have hline₁ : InLine (w₁.rank m) (exposed protect w₁.entries) ranking :=
    hline.of_perm (exposed_perm protect hperm)
  have hpass : (Sharded.evict m protect).Meets w₁ (Fits w₁.entries 0) fun pass w₂ =>
      Relieves protect w₁ pass.victims w₂ := Sharded.evict_meets m protect hb₁.sound
  refine ⟨fun pass w₂ hresult => ?_, fun hroom hr => ?_⟩
  · have hevicts := (hpass.of_ok hresult).evicts
    have htakes := (Sharded.evict_takes hb₁.sound (hfew.aimed cursor hands) hline₁).of_ok hresult
    obtain rfl : pass.victims = victims := hvictims.unique htakes
    exact ⟨rfl, Sharded.takes_of_shortest hsound hevicts.becomes.sound hmade hline hvictims
      (hperm.trans (hevicts.perm hb₁.sound))⟩
  · have hfits : Fits w₁.entries 0 := (hb.fits ⟨hroom.exact, hr⟩).perm hperm
    obtain ⟨pass, w₂, hresult, -⟩ := hpass.exists_ok hfits
    exact ⟨pass, w₂, hresult⟩

/-- Four tiles in two of four shards, of which the first is costly, the second was looked up in the
end, and the last belongs to an owner that has gone since. A pass for which there is room for one tile
only takes the last one, then the third and then the second. -/
theorem sharded_victims_four_tiles :
    let moment (now : Nat) : Moment := ⟨now, fun n => n ≠ 1⟩
    let add (owner : Nat) (x : Int32) (cost : Option Binary64) : Request Owner Identity :=
      .add ⟨owner, .hashed 1⟩ ⟨x, 0⟩ ⟨⟨8, 100, 1⟩, 0⟩ cost
    let next (c : Cache) (p : Moment × Request Owner Identity) := ((p.2.perform p.1).result c).2
    let s : Settings := { capacity := 16384, threshold := ⟨0x3fa0000000000000⟩ }
    let c := [(moment 5, add 0 0 (some .one)), (moment 5, add 0 1 none), (moment 5, add 0 2 none),
      (moment 5, add 1 3 none), (moment 6, .get (.hashed 1) ⟨1, 0⟩)].foldl next (Cache.new s 0)
    ∃ v pass w, c = .sharded v ∧ (Sharded.evict (moment 7) none).result v = (.ok pass, w) ∧
      pass.victims.map (·.seq) = [3, 2, 1] ∧ v.Takes (moment 7) none pass.victims w := by
  intro moment add next s c
  have hnew : Cache.ReachesUsing Cache.HasRoom [] (Cache.new s 0) := .built (s := s) rfl
  obtain ⟨us, hus⟩ : ∃ us, Cache.ReachesUsing Cache.HasRoom us c := by
    refine ⟨_, .next (.next (.next (.next (.next hnew ?_) ?_) ?_) ?_) ?_⟩ <;> decide +kernel
  have hlayout : c.layout = .sharded := by decide +kernel
  have hfour : c.entries.length ≤ 4 := by decide +kernel
  have hvictims : ((Cache.evict (moment 7) none).result c).1.toOption.map (·.victims.map (·.seq)) =
      some [3, 2, 1] := by decide +kernel
  clear_value c
  cases c with
  | linked v => cases hlayout
  | sharded v =>
    obtain ⟨hvalid, ranking, victims, -, -, -, hpass⟩ :=
      sharded_victims hus.reaches (.relieve (m := moment 7)) none
    obtain ⟨htakes, hanswers⟩ := hpass v.store hvalid rfl (hvalid.filed.few_of_four hfour)
      v.store.cursor fun i => (v.store.shard i).hand
    rw [ShardedStore.aimed_self] at htakes hanswers
    obtain ⟨pass, w, hresult⟩ := hanswers hus.reaches trivial
    obtain ⟨rfl, htakes⟩ := htakes pass w hresult
    have hpass : ((Cache.evict (moment 7) none).result (.sharded v)).1 = .ok pass :=
      congrArg Prod.fst hresult
    rw [hpass] at hvictims
    exact ⟨v, pass, w, rfl, hresult, Option.some.inj hvictims, htakes⟩

end TileStore
