import TileStore.Proofs.Linked.Cache
import TileStore.Proofs.Sharded.Cache

/-!
# Giving back many entries

When all tiles of an image go, or everything does, entries are given back one by one, in whatever
order the store lists them. That fails if the ledger does not cover them, `Ledger.Covers`, which
does not depend on the order, and does not fail otherwise. The same holds of every other computation
that takes entries out of a store one after the other: `Takes.all`.
-/

namespace TileStore

variable {es fs : List Entry} {e : Entry}

/-! ### Ledgers -/

namespace Ledger

variable {l : Ledger}

/-- So much is charged that all of some entries can be given back. -/
structure Covers (l : Ledger) (es : List Entry) : Prop where
  total_le : total es ≤ l.memoryUsed.toNat
  length_le : es.length ≤ l.tileCount.toNat

/-- The ledger when an entry has been given back. -/
def less (l : Ledger) (e : Entry) : Ledger :=
  { l with memoryUsed := l.memoryUsed - e.size, tileCount := l.tileCount - 1 }

theorem Covers.perm (h : l.Covers es) (hp : es.Perm fs) : l.Covers fs :=
  ⟨total_perm hp ▸ h.total_le, hp.length_eq ▸ h.length_le⟩

theorem covers_nil (l : Ledger) : l.Covers [] := ⟨Nat.zero_le _, Nat.zero_le _⟩

theorem covers_one : l.Covers [e] ↔ e.size ≤ l.memoryUsed ∧ l.tileCount ≠ 0 := by
  rw [UInt64.le_iff_toNat_le, ← UInt64.toNat_inj.ne, UInt64.toNat_zero]
  constructor
  · rintro ⟨hmemory, hcount⟩
    simp at hmemory hcount
    omega
  · rintro ⟨hmemory, hcount⟩
    refine ⟨by simpa using hmemory, ?_⟩
    rw [List.length_singleton]
    omega

/-- Entries can be given back if the first can, and then the others. -/
theorem covers_cons : l.Covers (e :: es) ↔ l.Covers [e] ∧ (l.less e).Covers es := by
  have hless : l.Covers [e] → (l.less e).memoryUsed.toNat = l.memoryUsed.toNat - e.size.toNat ∧
      (l.less e).tileCount.toNat = l.tileCount.toNat - 1 := by
    intro h
    obtain ⟨hmemory, hcount⟩ := covers_one.1 h
    refine ⟨UInt64.toNat_sub_of_le _ _ hmemory, UInt64.toNat_sub_of_le _ _ ?_⟩
    rw [UInt64.le_iff_toNat_le]
    exact h.length_le
  constructor
  · rintro ⟨htotal, hlength⟩
    rw [total_cons] at htotal
    rw [List.length_cons] at hlength
    have hone : l.Covers [e] := ⟨by rw [total_cons, total_nil]; omega, by
      rw [List.length_singleton]; omega⟩
    obtain ⟨hmemory, hcount⟩ := hless hone
    exact ⟨hone, ⟨by omega, by omega⟩⟩
  · rintro ⟨hone, htotal, hlength⟩
    obtain ⟨hmemory, hcount⟩ := hless hone
    have hle := hone.total_le
    have hpos := hone.length_le
    rw [total_cons, total_nil] at hle
    rw [List.length_singleton] at hpos
    exact ⟨by rw [total_cons]; omega, by rw [List.length_cons]; omega⟩

theorem account_went_covers (e : Entry) (l : Ledger) :
    (account none (some e.size)).Meets l (l.Covers [e]) fun _ l' =>
      l.Covers [e] ∧ l' = l.less e := by
  rw [covers_one]
  unfold Mutation.Meets
  simp only [account, Mutation.result_bind, result_release, Mutation.result_get,
    Mutation.result_set]
  by_cases hmemory : l.memoryUsed < e.size
  · simp [hmemory, UInt64.not_le.2 hmemory]
  · by_cases hcount : l.tileCount = 0
    · simp [hmemory, hcount]
    · simp [hmemory, hcount, UInt64.not_lt.1 hmemory, less]

end Ledger

/-! ### Registers -/

/-- Note what happened to some entries. -/
def Register.markAll (r : Register) (a : Action) (es : List Entry) : Register :=
  es.foldl (fun r e => r.mark e.seq a) r

theorem Register.mark_comm (r : Register) (i j : Nat) (a : Action) :
    (r.mark i a).mark j a = (r.mark j a).mark i a := by
  unfold mark
  refine congrArg _ (Array.ext_getElem? fun n => ?_)
  simp only [Array.getElem?_modify]
  by_cases hi : i = n <;> by_cases hj : j = n <;> simp [hi, hj]

theorem Register.markAll_perm (r : Register) (a : Action) (h : es.Perm fs) :
    r.markAll a es = r.markAll a fs := by
  have : RightCommutative fun (r : Register) (e : Entry) => r.mark e.seq a :=
    ⟨fun r e f => r.mark_comm e.seq f.seq a⟩
  exact h.foldl_eq r

@[simp] theorem Register.size_markAll (r : Register) (a : Action) (es : List Entry) :
    (r.markAll a es).size = r.size := by
  induction es generalizing r with
  | nil => rfl
  | cons e es ih => exact (ih _).trans (r.size_mark e.seq a)

namespace Vault

variable {σ : Type} {v v' : Vault σ}

/-- Removed entries are marked. -/
theorem dismiss_marks {safe : Prop} (es : List Entry) (v : Vault σ) :
    (dismiss es).Meets v safe fun notices v' => notices = Notice.removed es ∧
      v' = { v with register := v.register.markAll .removed es } := by
  unfold dismiss
  rw [Mutation.meets_bind]
  refine Mutation.meets_of_result (Mutation.result_forM_modify _ es v) ⟨rfl, ?_⟩
  induction es generalizing v with
  | nil => rfl
  | cons e es ih => exact ih (v.mark e .removed)

theorem account_went_covers (e : Entry) (v : Vault σ) :
    (account none (some e)).Meets v (v.ledger.Covers [e]) fun _ v' =>
      v.ledger.Covers [e] ∧ v' = { v with ledger := v.ledger.less e } :=
  Mutation.meets_within.2 <| (Ledger.account_went_covers e v.ledger).imp fun _ _ ⟨hc, hl⟩ =>
    ⟨hc, hl ▸ rfl⟩

/-- Entries are given back one after the other. -/
theorem accountAll_covers (es : List Entry) (v : Vault σ) :
    (es.forM fun e => account none (some e)).Meets v (v.ledger.Covers es) fun _ v' =>
      v.ledger.Covers es ∧ v'.register = v.register := by
  induction es generalizing v with
  | nil => exact ⟨v.ledger.covers_nil, rfl⟩
  | cons e es ih =>
    rw [Ledger.covers_cons]
    refine Mutation.meets_forM_cons.2 ((account_went_covers e v).mono And.left ?_)
    rintro _ _ ⟨hone, rfl⟩
    refine (ih _).mono And.right ?_
    rintro _ v' ⟨hes, hregister⟩
    exact ⟨⟨hone, hes⟩, hregister⟩

variable [Shelved σ]

/-- A computation that takes what is under a key out of a store and gives it back. It keeps `I`. -/
def Takes (I : Vault σ → Prop) (f : TileKey → Mutation (Vault σ) Entry) : Prop :=
  ∀ {v k e}, I v → v.tiles k = some e →
    (f k).Meets v (v.ledger.Covers [e]) fun e' v' => v.ledger.Covers [e] ∧ e' = e ∧ I v' ∧
      v'.tiles = v.tiles.drop k ∧ v'.ledger = v.ledger.less e ∧ v'.register = v.register

/-- What is under some keys is taken out, if the ledger covers it. -/
theorem Takes.all {I : Vault σ → Prop} {f : TileKey → Mutation (Vault σ) Entry} (hf : Takes I f)
    (ks : List TileKey) (hd : ks.Nodup) (hks : ∀ k ∈ ks, ∃ e, v.tiles k = some e) (hI : I v) :
    (ks.mapM f).Meets v (v.ledger.Covers (ks.filterMap v.tiles)) fun es v' =>
      v.ledger.Covers (ks.filterMap v.tiles) ∧ es = ks.filterMap v.tiles ∧ I v' ∧
        v'.register = v.register := by
  induction ks generalizing v with
  | nil => exact ⟨v.ledger.covers_nil, rfl, hI, rfl⟩
  | cons k ks ih =>
    obtain ⟨hnotin, hd⟩ := List.nodup_cons.1 hd
    obtain ⟨e, he⟩ := hks k List.mem_cons_self
    rw [List.filterMap_cons_some he, Ledger.covers_cons, List.mapM_cons, Mutation.meets_bind]
    refine (hf hI he).mono And.left ?_
    rintro _ v₁ ⟨hone, rfl, hI, htiles, hledger, hregister⟩
    have hsame : ∀ j ∈ ks, v₁.tiles j = v.tiles j := by
      intro j hj
      rw [htiles, Tiles.drop, if_neg fun hjk : j = k => hnotin (hjk ▸ hj)]
    have hrest := ih hd (fun j hj => hsame j hj ▸ hks j (List.mem_cons_of_mem k hj)) hI
    rw [List.filterMap_congr hsame, hledger] at hrest
    rw [Mutation.meets_bind]
    refine hrest.mono And.right ?_
    rintro _ v' ⟨hes, rfl, hI, hregister'⟩
    exact ⟨⟨hone, hes⟩, rfl, hI, hregister'.trans hregister⟩

end Vault

/-! ### Removals -/

namespace Linked

variable {v : Linked}

theorem takes_remove : Vault.Takes Vault.Sound fun k => (do
    match ← Vault.inStore (LinkedStore.remove k) with
    | none => throw .missingTile
    | some e => discharge e : Mutation Linked Entry) := by
  intro v k e h he
  simp only [Mutation.meets_bind, Vault.inStore, Mutation.meets_within]
  refine (LinkedStore.remove_meets h.valid k).mono (fun _ => trivial) ?_
  rintro found s' ⟨hvalid, hfound, hdrop, -⟩
  obtain rfl : found = some e := hfound.trans he
  have hcovers : (discharge e).Meets { v with store := s' } (v.ledger.Covers [e]) fun e' v' =>
      v.ledger.Covers [e] ∧ v' = { v with store := s', ledger := v.ledger.less e } := by
    unfold discharge
    rw [Mutation.meets_bind]
    exact Vault.account_went_covers e _
  refine (hcovers.and (discharge_meets h he hvalid hdrop)).imp ?_
  rintro _ v' ⟨⟨hc, hv'⟩, rfl, hb, -⟩
  refine ⟨hc, rfl, hb.sound, hb.tiles, ?_, ?_⟩
  · rw [hv']
  · rw [hv']

/-- The tiles of an image are removed if the ledger covers them. -/
theorem removeImage_covers (image : Identity) (h : v.Sound) :
    let es := (Shelved.keysOf v.store (.of image)).filterMap v.tiles
    (removeImage image).Meets v (v.ledger.Covers es) fun answer v' => v.ledger.Covers es ∧
      answer = (es.length, Notice.removed es ++ [.log (.imageRemoved image es.length)]) ∧
        v'.register = v.register.markAll .removed es := by
  intro es
  unfold removeImage
  rw [Mutation.meets_bind, Mutation.meets_get]
  dsimp only
  rw [Mutation.meets_bind]
  refine (takes_remove.all _ (Catalogue.nodup_keys _ _) (fun k hk => ?_) h).imp ?_
  · obtain ⟨e, he, -⟩ := (h.valid.indexed.mem_keys _ k).1 hk
    exact ⟨e, he⟩
  · rintro _ v₁ ⟨hc, rfl, -, hregister⟩
    rw [Mutation.meets_bind]
    refine (Vault.dismiss_marks es v₁).imp ?_
    rintro _ _ ⟨rfl, rfl⟩
    exact ⟨hc, rfl, hregister ▸ rfl⟩

/-- Everything is removed if the ledger covers it. -/
theorem flush_covers (v : Linked) :
    flush.Meets v (v.ledger.Covers v.entries) fun notices v' => v.ledger.Covers v.entries ∧
      notices = Notice.removed v.entries ++ [.log (.flushed v.entries.length)] ∧
        v'.register = v.register.markAll .removed v.entries := by
  unfold flush
  simp only [Mutation.meets_bind, Mutation.meets_get, Mutation.meets_set]
  refine (Vault.accountAll_covers v.store.entries { v with store := v.store.clear }).imp ?_
  rintro _ v₁ ⟨hc, hregister⟩
  refine (Vault.dismiss_marks v.store.entries v₁).imp ?_
  rintro _ _ ⟨rfl, rfl⟩
  exact ⟨hc, rfl, hregister ▸ rfl⟩

end Linked

namespace Sharded

variable {v : Sharded} {count : Nat}

/-- What removals keep while the catalogue is behind. -/
structure Standing (count : Nat) (v : Sharded) : Prop where
  filed : v.store.Filed
  size : v.store.shards.size = count

theorem takes_take : Vault.Takes (Standing count) fun k => (do
    match ← Vault.inStore (ShardedStore.take k) with
    | none => throw .missingTile
    | some e =>
      Vault.account none (some e)
      return e : Mutation Sharded Entry) := by
  rintro v k e ⟨hfiled, hsize⟩ he
  simp only [Mutation.meets_bind, Vault.inStore, Mutation.meets_within]
  refine (ShardedStore.take_meets v.store k).mono (fun _ => trivial) ?_
  rintro found _ ⟨hfound, rfl⟩
  obtain rfl : found = some e := hfound.trans he
  obtain ⟨hfiled', hdrop⟩ := hfiled.take k
  rw [Mutation.meets_bind]
  refine (Vault.account_went_covers e _).imp ?_
  rintro _ _ ⟨hc, rfl⟩
  exact ⟨hc, rfl, ⟨hfiled', (ShardedStore.size_editShard ..).trans hsize⟩, hdrop, rfl, rfl⟩

/-- What is under keys that were struck from the catalogue is removed if the ledger covers it. -/
theorem removeKeys_covers (ks : List TileKey) (h : v.Sound) (i : Nat) (f : Catalogue → Catalogue)
    (hd : ks.Nodup) (hks : ∀ k ∈ ks, ∃ e, v.tiles k = some e) :
    (removeKeys ks).Meets { v with store := v.store.editCatalogue i f }
      (v.ledger.Covers (ks.filterMap v.tiles)) fun es v' => v.ledger.Covers (ks.filterMap v.tiles) ∧
        es = ks.filterMap v.tiles ∧ v'.store.shards.size = v.store.shards.size ∧
        v'.register = v.register := by
  obtain ⟨hfiled, hget⟩ := h.valid.filed.of_shards (v.store.editCatalogue i f) rfl
  let w : Sharded := { v with store := v.store.editCatalogue i f }
  have htiles : w.tiles = v.tiles := hget
  have hall := takes_take.all (v := w) ks hd (htiles ▸ hks) ⟨hfiled, rfl⟩
  rw [htiles] at hall
  refine hall.imp ?_
  rintro es v' ⟨hc, hes, ⟨-, hsize⟩, hregister⟩
  exact ⟨hc, hes, hsize, hregister⟩

/-- The tiles of an image are removed if the ledger covers them. -/
theorem removeImage_covers (image : Identity) (h : v.Sound) :
    let es := (Shelved.keysOf v.store (.of image)).filterMap v.tiles
    (removeImage image).Meets v (v.ledger.Covers es) fun answer v' => v.ledger.Covers es ∧
      answer = (es.length, Notice.removed es ++ [.log (.imageRemoved image es.length)]) ∧
        v'.store.shards.size = v.store.shards.size ∧
        v'.register = v.register.markAll .removed es := by
  intro es
  unfold removeImage
  simp only [Mutation.meets_bind, Mutation.meets_get, Mutation.meets_set]
  refine (removeKeys_covers _ h _ _ (Catalogue.nodup_keys _ _) fun k hk => ?_).imp ?_
  · obtain ⟨e, he, -⟩ := (h.valid.mem_keysOf (.of image) k).1 hk
    exact ⟨e, he⟩
  · rintro _ v₁ ⟨hc, rfl, hsize, hregister⟩
    refine (Vault.dismiss_marks es v₁).imp ?_
    rintro _ _ ⟨rfl, rfl⟩
    exact ⟨hc, rfl, hsize, hregister ▸ rfl⟩

/-- With a single partition, everything is removed if the ledger covers it. -/
theorem flush_covers (h : v.Sound) (hone : v.store.shards.size = 1) :
    flush.Meets v (v.ledger.Covers v.entries) fun notices v' => v.ledger.Covers v.entries ∧
      ∃ es, es.Perm v.entries ∧ notices = Notice.removed es ++ [.log (.flushed es.length)] ∧
        v'.store.shards.size = 1 ∧ v'.register = v.register.markAll .removed es := by
  have hindexed := h.valid.indexed 0
  have hd := hindexed.nodup_allKeys <| by
    rintro _ _ k ⟨-, e, he, rfl⟩ ⟨-, f, hf, rfl⟩
    rw [Option.some.inj (he.symm.trans hf)]
  let keys := (v.store.catalogue 0).toList.flatMap (·.2)
  have hes : (keys.filterMap v.tiles).Perm v.entries := by
    refine h.shelf.filterMap_keys hd fun k e he =>
      (hindexed.mem_allKeys k).2 ⟨e.image, ?_, e, he, rfl⟩
    have := h.valid.catalogueOf_lt e.image
    have := h.valid.same
    omega
  have hfound : ∀ k ∈ keys, ∃ e, v.tiles k = some e := by
    intro k hk
    obtain ⟨_, -, e, he, -⟩ := (hindexed.mem_allKeys k).1 hk
    exact ⟨e, he⟩
  have hrange : List.range v.store.catalogues.size = [0] := by
    rw [h.valid.same, hone]
    rfl
  unfold flush
  simp only [Mutation.meets_bind, Mutation.meets_get, Mutation.meets_set, hrange, List.mapM_cons,
    List.mapM_nil, Mutation.meets_pure]
  refine (removeKeys_covers keys h 0 (fun _ => {}) hd hfound).mono (fun hc => hc.perm hes.symm) ?_
  rintro _ v₁ ⟨hc, rfl, hsize, hregister⟩
  rw [List.flatten_cons, List.flatten_nil, List.append_nil]
  refine (Vault.dismiss_marks _ v₁).imp ?_
  rintro _ _ ⟨rfl, rfl⟩
  exact ⟨hc.perm hes, _, hes, rfl, hsize.trans hone, hregister ▸ rfl⟩

end Sharded

end TileStore
