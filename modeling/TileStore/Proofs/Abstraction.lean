import TileStore.Proofs.Contents
import TileStore.Proofs.Linked.Cache
import TileStore.Proofs.Sharded.Cache

/-!
# What a vault holds for its users

Whatever happens to a vault whose sums are exact happens to its contents as `Contents` has it.
-/

namespace TileStore

variable {e : Entry}

/-! ### Keys and tiles -/

theorem Tile.key_inj {t u : Tile} : t.key = u.key ↔ t = u :=
  TileKey.of_inj.trans Prod.ext_iff.symm

theorem Entry.Proper.key_tile (h : e.Proper) : e.tile.key = e.key := by
  obtain ⟨image, hkey, himage⟩ := h
  rw [hkey, Tile.key, Entry.tile, himage]
  rfl

theorem Entry.Proper.key_eq_iff (h : e.Proper) (t : Tile) : t.key = e.key ↔ t = e.tile := by
  rw [← h.key_tile]
  exact Tile.key_inj

theorem Entry.Proper.image_eq_iff (h : e.Proper) (image : Identity) :
    e.image = .of image ↔ e.tile.1 = image := by
  obtain ⟨i, hkey, himage⟩ := h
  rw [Entry.tile, himage]
  exact ImageKey.of_inj

namespace Vault

variable {σ : Type} [Shelved σ] {v v' w : Vault σ} {t : Tile} {es : List Entry} {k : TileKey}

/-- What a vault holds for its users. -/
def contents (v : Vault σ) : Contents := ⟨fun t => v.tiles t.key, v.ledger.memoryUsed.toNat⟩

theorem contents_eq (ht : v'.tiles = v.tiles) (hu : v'.ledger.memoryUsed = v.ledger.memoryUsed) :
    v'.contents = v.contents := by
  rw [contents, contents, ht, hu]

theorem Sound.proper (hv : v.Sound) (he : e ∈ v.entries) : e.Proper :=
  hv.shelf.proper ((hv.shelf.mem e).1 he)

/-- The entries are those that are found under their own tiles. -/
theorem Sound.mem_entries_iff (hv : v.Sound) :
    e ∈ v.entries ↔ v.contents.get? e.tile = some e := by
  change _ ↔ v.tiles e.tile.key = some e
  constructor
  · intro he
    rw [(hv.proper he).key_tile]
    exact (hv.shelf.mem e).1 he
  · intro he
    exact hv.shelf.mem_of_get he

theorem usedFor_contents (v : Vault σ) (t : Tile) :
    v.contents.usedFor t = total (v.tiles t.key).toList := by
  unfold Contents.usedFor
  change (v.tiles t.key).elim 0 _ = _
  rcases v.tiles t.key with _ | e <;> rfl

theorem Sound.used_eq (hv : v.Sound) (hf : Fits v.entries 0) : v.contents.used = total v.entries :=
  hv.balanced.memoryUsed_toNat hf

/-- An entry is put into the contents when it is written. -/
theorem contents_put (hv : v.Sound) (ha : v.Admits e) (he : e.Proper)
    (hb : v.Becomes (v.tiles.put e) v') : v'.contents = v.contents.put e := by
  have hsplit := total_perm (hv.shelf.perm_split e.key)
  have hafter := total_perm (hb.perm_put hv he)
  have hused := hb.sound.used_eq (hb.fits_put hv he ha)
  have hbefore := hv.used_eq (ha.fits.mono (Nat.zero_le _))
  have hfor := usedFor_contents v e.tile
  rw [he.key_tile] at hfor
  rw [total_append] at hsplit
  rw [total_cons] at hafter
  refine Contents.ext (funext fun t => ?_) ?_
  · change v'.tiles t.key = if t = e.tile then some e else v.tiles t.key
    rw [hb.tiles, Tiles.put]
    simp only [he.key_eq_iff]
  · change v'.contents.used = v.contents.used - v.contents.usedFor e.tile + e.size.toNat
    omega

/-- A tile is dropped from the contents when it is removed. -/
theorem contents_drop (hv : v.Sound) (hf : Fits v.entries 0)
    (hb : v.Becomes (v.tiles.drop t.key) v') : v'.contents = v.contents.drop t := by
  have hperm : (without v.entries t.key).Perm v'.entries :=
    (hb.tiles ▸ hv.shelf.drop t.key : Shelf v'.tiles _).perm hb.sound.shelf
  have hsplit := hv.shelf.perm_split t.key
  have hsum := total_perm hsplit
  have hleft := total_perm hperm
  have hused := hb.sound.used_eq ((hf.perm hsplit).of_append_right.perm hperm)
  have hbefore := hv.used_eq hf
  have hfor := usedFor_contents v t
  rw [total_append] at hsum
  refine Contents.ext (funext fun u => ?_) ?_
  · change v'.tiles u.key = if u = t then none else v.tiles u.key
    rw [hb.tiles, Tiles.drop]
    simp only [Tile.key_inj]
  · change v'.contents.used = v.contents.used - v.contents.usedFor t
    omega

/-- Entries that are gone from a vault are gone from its contents. -/
theorem contents_without (hv : v.Sound) (hf : Fits v.entries 0)
    (hp : v.entries.Perm (es ++ v'.entries))
    (hb : v.Becomes (v.tiles.dropAll (es.map (·.key))) v') :
    v'.contents = v.contents.without es := by
  have hsum := total_perm hp
  have hused := hb.sound.used_eq (hf.perm hp).of_append_right
  have hbefore := hv.used_eq hf
  rw [total_append] at hsum
  refine Contents.ext (funext fun t => ?_) ?_
  · change v'.tiles t.key = (v.tiles t.key).filter (· ∉ es)
    rw [hb.tiles, Tiles.dropAll]
    rcases ht : v.tiles t.key with _ | e
    · simp
    · have hkey := hv.shelf.key ht
      have hmem : t.key ∈ es.map (·.key) ↔ e ∈ es := by
        rw [List.mem_map]
        constructor
        · rintro ⟨f, hf, hk⟩
          have := (hv.shelf.mem f).1 (hp.mem_iff.2 (List.mem_append_left _ hf))
          rw [hk, ht] at this
          exact Option.some.inj this ▸ hf
        · exact fun he => ⟨e, he, hkey⟩
      by_cases he : e ∈ es <;> simp [hmem, he, Option.filter]
  · change v'.contents.used = v.contents.used - total es
    omega

/-! ### Passes -/

theorem Relieves.sheds {spared : Option Tile} (hv : v.Sound) (hf : Fits v.entries 0)
    (h : Relieves (spared.map Tile.key) v es v') :
    v.contents.Sheds v.ledger.target.toNat spared es v'.contents := by
  have hperm := h.evicts.perm hv
  have hb := h.evicts.becomes
  have hheld : ∀ e ∈ es, e ∈ v.entries := fun e he =>
    hperm.mem_iff.2 (List.mem_append_left _ he)
  constructor
  · exact (List.nodup_append.1 (hperm.nodup hv.shelf.nodup)).1
  · exact fun e he => hv.mem_entries_iff.1 (hheld e he)
  · rintro e he rfl
    exact h.evicts.ne_protect e he (congrArg some (hv.proper (hheld e he)).key_tile.symm)
  · exact contents_without hv hf hperm hb
  · rintro before e after rfl
    obtain ⟨u, hu, htarget⟩ := h.evicts.exists_before hv
    have hup := hu.perm hv
    have hsum := total_perm hup
    have hused := hu.becomes.sound.used_eq (hf.perm hup).of_append_right
    have hbefore := hv.used_eq hf
    have htarget : v.ledger.target.toNat < u.contents.used := UInt64.lt_iff_toNat_lt.1 htarget
    rw [total_append] at hsum
    omega
  · refine (h.met hf.length_lt).imp UInt64.le_iff_toNat_le.1 fun hall t ht => ?_
    obtain ⟨e, he⟩ := Option.isSome_iff_exists.1 ht
    have hkey := hb.sound.shelf.key he
    have hprotect := hall e (hb.sound.shelf.mem_of_get he)
    obtain ⟨u, rfl, hu⟩ := Option.map_eq_some_iff.1 hprotect.symm
    rw [Tile.key_inj.1 (hkey.symm.trans hu.symm)]

theorem Restores.restored {l : Ledger} (hv : v.Sound) (hf : Fits v.entries 0) (he : e.Proper)
    (hl : l.SameBounds v.ledger) (h : Restores e v es v') :
    v.contents.Restored l e es v'.contents := by
  have hover : v.ledger.isOverCapacity ↔ l.capacity.toNat < v.contents.used := by
    rw [Ledger.isOverCapacity, hl.1, decide_eq_true_iff]
    exact UInt64.lt_iff_toNat_lt
  unfold Restores at h
  unfold Contents.Restored
  split at h
  · next hc =>
    rw [if_pos (hover.1 hc), ← hl.target]
    have hpass : Relieves ((some e.tile).map Tile.key) v es v' := by
      rwa [Option.map_some, he.key_tile]
    exact hpass.sheds hv hf
  · next hc =>
    obtain ⟨rfl, rfl⟩ := h
    rw [if_neg (hover.not.1 hc)]
    exact ⟨rfl, rfl⟩

theorem Keeps.contents (h : v.Keeps v') : v'.contents = v.contents :=
  contents_eq h.tiles (by rw [h.ledger])

theorem Numbered.contents {n : Nat} (h : v.Numbered n v') : v'.contents = v.contents :=
  contents_eq (congrArg Shelved.get? h.1) (by rw [h.2])

/-- Removing what is found under some keys. -/
theorem Removes.contents {ks : List TileKey} (hv : v.Sound) (hf : Fits v.entries 0)
    (h : v.Removes ks es v') (hd : ks.Nodup) : v'.contents = v.contents.without es :=
  contents_without hv hf (h.perm hv hd) (h.map_key hv ▸ h.becomes)

/-- The entries under the keys of an image are those of its tiles. -/
theorem Removes.lists {image : Identity} (hv : v.Sound)
    (h : v.Removes (Shelved.keysOf v.store (.of image)) es v') :
    v.contents.Lists (·.1 = image) es := by
  refine ⟨.of_map (·.key) (h.map_key hv ▸ Shelved.nodup_keysOf hv.valid _), fun e => ?_⟩
  rw [h.mem_iff hv, Shelved.mem_keysOf hv.valid, ← hv.mem_entries_iff, hv.shelf.mem]
  constructor
  · rintro ⟨⟨f, hf, himage⟩, he⟩
    rw [Option.some.inj (hf.symm.trans he)] at himage
    exact ⟨((hv.shelf.proper he).image_eq_iff image).1 himage, he⟩
  · rintro ⟨himage, he⟩
    exact ⟨⟨e, he, ((hv.shelf.proper he).image_eq_iff image).2 himage⟩, he⟩

theorem lists_entriesOf (hv : v.Sound) (image : Identity) :
    v.contents.Lists (·.1 = image)
      ((Shelved.keysOf v.store (.of image)).filterMap v.tiles) := by
  constructor
  · refine (Shelved.nodup_keysOf hv.valid _).filterMap fun j k e hj hk => ?_
    exact (hv.shelf.key hj).symm.trans (hv.shelf.key hk)
  · intro e
    rw [List.mem_filterMap, ← hv.mem_entries_iff, hv.shelf.mem]
    constructor
    · rintro ⟨k, hk, he⟩
      obtain rfl := hv.shelf.key he
      obtain ⟨f, hf, himage⟩ := (Shelved.mem_keysOf hv.valid _ _).1 hk
      rw [Option.some.inj (hf.symm.trans he)] at himage
      exact ⟨((hv.shelf.proper he).image_eq_iff image).1 himage, he⟩
    · rintro ⟨himage, he⟩
      refine ⟨e.key, (Shelved.mem_keysOf hv.valid _ _).2 ⟨e, he, ?_⟩, he⟩
      exact ((hv.shelf.proper he).image_eq_iff image).2 himage

theorem lists_entries (hv : v.Sound) : v.contents.Lists (fun _ => True) v.entries :=
  ⟨hv.shelf.nodup, fun _ => hv.mem_entries_iff.trans (and_iff_right trivial).symm⟩

theorem contents_empty (h : v.Becomes (fun _ => none) v') : v'.contents = .empty := by
  refine Contents.ext (funext fun t => congrFun h.tiles t.key) ?_
  have := h.sound.balanced.memoryUsed
  rw [h.entries_eq_nil] at this
  exact congrArg UInt64.toNat this

end Vault

/-! ### Notices -/

namespace Notice

@[simp] theorem victims_append (ns ms : List Notice) : victims (ns ++ ms) = victims ns ++ victims ms :=
  List.filterMap_append

@[simp] theorem victims_log (lines : List LogLine) : victims (lines.map .log) = [] := by
  simp [victims]

@[simp] theorem victims_written (e : Entry) (replaced : Bool) : victims (written e replaced) = [] := by
  cases replaced <;> rfl

@[simp] theorem victims_evicted (es : List Entry) : victims (evicted es) = es := by
  simp [victims, evicted, List.filterMap_map]

@[simp] theorem victims_removed (es : List Entry) : victims (removed es) = [] := by
  simp [victims, removed]

@[simp] theorem victims_log_one (line : LogLine) : victims [.log line] = [] := rfl

theorem victims_removed_log (es : List Entry) (line : LogLine) :
    victims (removed es ++ [.log line]) = [] := by simp

theorem victims_flatMap {α : Type} (f : α → List Notice) (xs : List α) :
    victims (xs.flatMap f) = xs.flatMap fun x => victims (f x) := List.filterMap_flatMap

end Notice

/-! ### Batches -/

/-- A linked cache restores its bound after each entry of a batch. -/
theorem Linked.restoredEach {v v' : Linked} {es : List Entry} {ws : List Written} {safe : Prop}
    {l : Ledger} (hseries : Mutation.Series (WritesAs safe) es v ws v')
    (hv : v.Sound) (hes : ∀ e ∈ es, e.Proper) (hl : l.SameBounds v.ledger) :
    (safe → Contents.RestoredEach l es v.contents (ws.flatMap (·.pass.victims)) v'.contents) ∧
      l.SameBounds v'.ledger := by
  induction hseries with
  | nil v => exact ⟨fun _ => ⟨rfl, rfl⟩, hl⟩
  | @cons e es w ws v v₂ v' hw _ ih =>
    have he := hes e List.mem_cons_self
    obtain ⟨hrest, hlast⟩ := ih hw.writes.sound
      (fun f hf => hes f (List.mem_cons_of_mem e hf)) (hl.trans hw.writes.recharged.sameBounds)
    refine ⟨fun hsafe => ⟨_, _, _, ?_, hrest hsafe, rfl⟩, hlast⟩
    have ha := hw.admits hsafe
    obtain ⟨v₁, hb, hrestores⟩ := hw.writes
    rw [← Vault.contents_put hv ha he hb]
    exact hrestores.restored hb.sound (hb.fits_put hv he ha) he
      (hl.trans hb.recharged.sameBounds)

/-- A sharded cache puts in all entries of a batch. -/
theorem Sharded.contents_of_puts {v v' : Sharded} {es : List Entry} {ws : List (Entry × Bool)}
    {safe : Prop} {l : Ledger} (hseries : Mutation.Series (Puts safe) es v ws v')
    (hv : v.Sound) (hes : ∀ e ∈ es, e.Proper) (hl : l.SameBounds v.ledger) :
    (safe → v'.contents = es.foldl Contents.put v.contents) ∧ l.SameBounds v'.ledger := by
  induction hseries with
  | nil v => exact ⟨fun _ => rfl, hl⟩
  | @cons e es w ws v v₁ v' hw _ ih =>
    have he := hes e List.mem_cons_self
    obtain ⟨hrest, hlast⟩ := ih hw.becomes.sound
      (fun f hf => hes f (List.mem_cons_of_mem e hf)) (hl.trans hw.becomes.recharged.sameBounds)
    refine ⟨fun hsafe => ?_, hlast⟩
    rw [hrest hsafe, List.foldl_cons, Vault.contents_put hv (hw.admits hsafe) he hw.becomes]

end TileStore
