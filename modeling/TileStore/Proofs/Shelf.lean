import TileStore.Catalogue
import TileStore.Entry
import TileStore.Proofs.Key
import Mathlib.Algebra.Ring.Nat
import Mathlib.Data.List.Perm.Basic
import Mathlib.Data.List.Nodup

/-!
# What a store holds

A store can be asked for the entry under a key and for a list of all entries, and both stores keep a
catalogue beside. `Shelf` says that the look-up and the list show the same entries, each under its
own key and once, `Catalogue.Indexes` that a catalogue names the right keys. A look-up determines the
list up to its order, so the sizes of all entries add up to the same `total` however they are listed.
-/

namespace TileStore

variable {es fs : List Entry} {e old : Entry} {k : TileKey}

/-- The entry is keyed by its image and its position. -/
def Entry.Proper (e : Entry) : Prop :=
  ∃ image, e.key = .of image e.position ∧ e.image = .of image

theorem Entry.proper_new (owner : Owner) (p : Position) (payload : Payload)
    (cost : Option Binary64) (overhead : UInt64) (seq : Nat) :
    (Entry.new owner p payload cost overhead seq).Proper := ⟨owner.identity, rfl, rfl⟩

/-- The key of an entry determines its image and its position. -/
theorem Entry.Proper.image_eq {image : Identity} {p : Position} (h : e.Proper)
    (hk : e.key = .of image p) : e.image = .of image ∧ e.position = p := by
  obtain ⟨i, hkey, himage⟩ := h
  obtain ⟨rfl, hp⟩ := TileKey.of_inj.1 (hkey.symm.trans hk)
  exact ⟨himage, hp⟩

theorem Entry.Proper.image_eq_of_key_eq {f : Entry} (h : e.Proper) (hf : f.Proper)
    (hk : e.key = f.key) : e.image = f.image := by
  obtain ⟨image, hkey, himage⟩ := hf
  exact (h.image_eq (hk.trans hkey)).1.trans himage.symm

/-! ### Sizes -/

/-- Bytes that entries take together. -/
def total (es : List Entry) : Nat := (es.map (·.size.toNat)).sum

@[simp] theorem total_nil : total [] = 0 := rfl

@[simp] theorem total_cons (e : Entry) (es : List Entry) :
    total (e :: es) = e.size.toNat + total es := rfl

@[simp] theorem total_append (es fs : List Entry) : total (es ++ fs) = total es + total fs := by
  simp [total]

theorem total_perm (h : es.Perm fs) : total es = total fs := (h.map _).sum_nat

theorem le_total (h : e ∈ es) : e.size.toNat ≤ total es := by
  obtain ⟨as, bs, rfl⟩ := List.append_of_mem h
  rw [total_append, total_cons]
  omega

theorem total_filter_le (p : Entry → Bool) (es : List Entry) : total (es.filter p) ≤ total es := by
  induction es with
  | nil => exact Nat.le_refl 0
  | cons e es ih =>
    rw [List.filter_cons]
    split <;> simp only [total_cons] <;> omega

/-- The sum of the sizes fits in a word with so many bytes to spare, and no entry is without a
size. -/
structure Fits (es : List Entry) (spare : Nat) : Prop where
  total_lt : total es + spare < 2 ^ 64
  size_pos : ∀ e ∈ es, 0 < e.size.toNat

theorem Fits.nil {spare : Nat} (h : spare < 2 ^ 64) : Fits [] spare := ⟨by simpa using h, nofun⟩

theorem Fits.perm {spare : Nat} (h : Fits es spare) (hp : es.Perm fs) : Fits fs spare :=
  ⟨total_perm hp ▸ h.total_lt, fun e he => h.size_pos e (hp.mem_iff.2 he)⟩

theorem Fits.of_append_right {spare : Nat} (h : Fits (es ++ fs) spare) : Fits fs spare :=
  ⟨by have := h.total_lt; rw [total_append] at this; omega,
    fun e he => h.size_pos e (List.mem_append_right es he)⟩

theorem Fits.tail {spare : Nat} (h : Fits (e :: es) spare) : Fits es spare :=
  (show Fits ([e] ++ es) spare from h).of_append_right

theorem Fits.mono {m n : Nat} (h : Fits es n) (hm : m ≤ n) : Fits es m :=
  ⟨by have := h.total_lt; omega, h.size_pos⟩

/-- Entries that have a size and fit in a word are fewer than a word counts. -/
theorem Fits.length_lt {spare : Nat} (h : Fits es spare) : es.length < 2 ^ 64 := by
  have hle : es.length ≤ total es := by
    have hpos := h.size_pos
    clear h
    induction es with
    | nil => exact Nat.le_refl 0
    | cons e es ih =>
      have := ih fun f hf => hpos f (List.mem_cons_of_mem e hf)
      have := hpos e List.mem_cons_self
      rw [List.length_cons, total_cons]
      omega
  have := h.total_lt
  omega

/-! ### Look-ups and lists -/

/-- What is found under each key. -/
abbrev Tiles := TileKey → Option Entry

/-- The same with an entry under its key. -/
def Tiles.put (g : Tiles) (e : Entry) : Tiles := fun k => if k = e.key then some e else g k

/-- The same with nothing under a key. -/
def Tiles.drop (g : Tiles) (k : TileKey) : Tiles := fun j => if j = k then none else g j

/-- The same with nothing under any of some keys. -/
def Tiles.dropAll (g : Tiles) (ks : List TileKey) : Tiles := fun k => if k ∈ ks then none else g k

@[simp] theorem Tiles.dropAll_nil (g : Tiles) : g.dropAll [] = g := by
  funext k
  simp [dropAll]

theorem Tiles.dropAll_perm {ks ks' : List TileKey} (g : Tiles) (h : ks.Perm ks') :
    g.dropAll ks = g.dropAll ks' := by
  funext k
  simp only [dropAll, h.mem_iff]

theorem Tiles.dropAll_drop (g : Tiles) (k : TileKey) (ks : List TileKey) :
    (g.drop k).dropAll ks = g.dropAll (k :: ks) := by
  funext j
  simp only [dropAll, drop, List.mem_cons]
  by_cases hj : j ∈ ks <;> simp [hj]

theorem Tiles.drop_eq_self {g : Tiles} (h : g k = none) : g.drop k = g := by
  funext j
  unfold drop
  split
  · next hj => rw [hj, h]
  · rfl

/-- There is an entry of an image under a key. -/
def Tiles.Has (g : Tiles) (image : ImageKey) (k : TileKey) : Prop :=
  ∃ e, g k = some e ∧ e.image = image

theorem Tiles.has_put {g : Tiles} (h : g e.key = none) (image : ImageKey) (k : TileKey) :
    (image = e.image ∧ k = e.key) ∨ g.Has image k ↔ (g.put e).Has image k := by
  unfold Has put
  by_cases hk : k = e.key
  · simp [hk, h, eq_comm]
  · simp [hk]

/-- Another entry of the same image under a key is no news. -/
theorem Tiles.has_put_of_some {g : Tiles} (h : g e.key = some old) (hi : old.image = e.image)
    (image : ImageKey) (k : TileKey) : g.Has image k ↔ (g.put e).Has image k := by
  unfold Has put
  by_cases hk : k = e.key
  · simp [hk, h, hi]
  · simp [hk]

theorem Tiles.has_drop {g : Tiles} (h : g e.key = some e) (image : ImageKey) (k : TileKey) :
    ¬(image = e.image ∧ k = e.key) ∧ g.Has image k ↔ (g.drop e.key).Has image k := by
  unfold Has drop
  by_cases hk : k = e.key
  · simp [hk, h, eq_comm]
  · simp [hk]

theorem Tiles.has_dropAll (g : Tiles) (ks : List TileKey) (image : ImageKey) (k : TileKey) :
    (g.dropAll ks).Has image k ↔ k ∉ ks ∧ g.Has image k := by
  unfold Has dropAll
  by_cases hk : k ∈ ks <;> simp [hk]

theorem Tiles.put_eq_self {g : Tiles} (h : g e.key = some e) : g.put e = g := by
  funext k
  unfold put
  split
  · next hk => rw [hk, h]
  · rfl

/-- The entries under other keys. -/
def without (es : List Entry) (k : TileKey) : List Entry := es.filter (·.key ≠ k)

/-- Entries in the order of their use, when one that is there or comes in place of one is used. -/
def usedLast (es : List Entry) (e : Entry) : List Entry := without es e.key ++ [e]

/-- A look-up and a list show the same entries, each under its own key. -/
structure Shelf (g : Tiles) (es : List Entry) : Prop where
  mem : ∀ e, e ∈ es ↔ g e.key = some e
  key : ∀ {k e}, g k = some e → e.key = k
  proper : ∀ {k e}, g k = some e → e.Proper
  nodup : es.Nodup

namespace Shelf

variable {g : Tiles}

theorem mem_of_get (h : Shelf g es) (hk : g k = some e) : e ∈ es := by
  obtain rfl := h.key hk
  exact (h.mem e).2 hk

theorem perm (h : Shelf g es) (h' : Shelf g fs) : es.Perm fs :=
  (List.perm_ext_iff_of_nodup h.nodup h'.nodup).2 fun e => (h.mem e).trans (h'.mem e).symm

/-- What is found under keys, with no key left out, is everything. -/
theorem filterMap_keys {ks : List TileKey} (h : Shelf g es) (hd : ks.Nodup)
    (hks : ∀ k e, g k = some e → k ∈ ks) : (ks.filterMap g).Perm es := by
  have hnodup : (ks.filterMap g).Nodup :=
    hd.filterMap fun j k e hj hk => (h.key hj).symm.trans (h.key hk)
  refine (List.perm_ext_iff_of_nodup hnodup h.nodup).2 fun e => ?_
  rw [List.mem_filterMap, h.mem]
  constructor
  · rintro ⟨k, -, hk⟩
    rwa [h.key hk]
  · exact fun he => ⟨e.key, hks e.key e he, he⟩

theorem congr {g' : Tiles} (h : Shelf g es) (hg : ∀ k, g' k = g k) : Shelf g' es := by
  obtain rfl : g' = g := funext hg
  exact h

/-- Where nothing is found there is nothing. -/
theorem eq_nil (h : Shelf (fun _ => none) es) : es = [] :=
  List.eq_nil_iff_forall_not_mem.2 fun e he => nomatch (h.mem e).1 he

/-- No two entries have the same key. -/
theorem nodup_keys (h : Shelf g es) : (es.map (·.key)).Nodup :=
  h.nodup.map_on fun e he f hf hk => by
    have := (h.mem f).1 hf
    rw [← hk, (h.mem e).1 he] at this
    exact Option.some.inj this

theorem drop (h : Shelf g es) (k : TileKey) : Shelf (g.drop k) (without es k) where
  mem f := by
    rw [without, List.mem_filter, h.mem, Tiles.drop]
    by_cases hf : f.key = k <;> simp [hf]
  key {j f} hj := by
    rw [Tiles.drop] at hj
    split at hj
    · cases hj
    · exact h.key hj
  proper {j f} hj := by
    rw [Tiles.drop] at hj
    split at hj
    · cases hj
    · exact h.proper hj
  nodup := h.nodup.filter _

theorem put (h : Shelf g es) (he : e.Proper) : Shelf (g.put e) (e :: without es e.key) where
  mem f := by
    rw [List.mem_cons, without, List.mem_filter, h.mem, Tiles.put]
    by_cases hf : f.key = e.key
    · simp [hf, eq_comm]
    · simp only [hf, if_false, ne_eq, not_false_eq_true, decide_true, and_true, or_iff_right_iff_imp]
      rintro rfl
      exact absurd rfl hf
  key {j f} hj := by
    rw [Tiles.put] at hj
    split at hj
    · next hk => exact hk ▸ congrArg Entry.key (Option.some.inj hj).symm
    · exact h.key hj
  proper {j f} hj := by
    rw [Tiles.put] at hj
    split at hj
    · exact Option.some.inj hj ▸ he
    · exact h.proper hj
  nodup := List.nodup_cons.2 ⟨fun hm => by simp [without] at hm, h.nodup.filter _⟩

/-- An entry apart from those under other keys. -/
theorem perm_split (h : Shelf g es) (k : TileKey) : es.Perm ((g k).toList ++ without es k) := by
  rcases hk : g k with _ | e
  · rw [without, List.filter_eq_self.2]
    · exact .refl _
    · rintro f hf
      have : f.key ≠ k := by
        rintro rfl
        rw [(h.mem f).1 hf] at hk
        cases hk
      simpa using this
  · obtain rfl := h.key hk
    refine h.perm ((h.drop e.key).put (h.proper hk) |>.congr fun j => ?_) |>.trans ?_
    · simp only [Tiles.put, Tiles.drop]
      split
      · next hj => rw [hj, hk]
      · rfl
    · rw [Option.toList_some, List.singleton_append, without, without, List.filter_filter]
      simp

end Shelf

/-! ### Catalogues -/

theorem KeySet.exists_contains_of_without?_eq_some {s rest : KeySet} (h : s.without? k = some rest) :
    ∃ j, rest.contains j := by
  have hrest : ¬rest.isEmpty := by
    simp only [without?, Option.ite_none_left_eq_some] at h
    exact Option.some.inj h.2 ▸ h.1
  rw [isEmpty_iff] at hrest
  obtain ⟨j, hj⟩ := not_forall.1 hrest
  exact ⟨j, by simpa using hj⟩

/-- A catalogue names the keys that it should, and no image without keys. -/
structure Catalogue.Indexes (c : Catalogue) (P : ImageKey → TileKey → Prop) : Prop where
  contains_iff : ∀ image k, c.contains image k ↔ P image k
  exists_key : ∀ image, image ∈ c.images → ∃ k, P image k

namespace Catalogue.Indexes

open Std (TreeMap)

variable {c : Catalogue} {P Q : ImageKey → TileKey → Prop}

theorem congr (h : c.Indexes P) (hp : ∀ image k, P image k ↔ Q image k) : c.Indexes Q := by
  obtain rfl : P = Q := funext fun image => funext fun k => propext (hp image k)
  exact h

theorem empty : Indexes {} fun _ _ => False where
  contains_iff image k := by simp [contains]
  exists_key image h := absurd h TreeMap.not_mem_emptyc

theorem insert (h : c.Indexes P) (image : ImageKey) (k : TileKey) :
    (c.insert image k).Indexes fun i j => (i = image ∧ j = k) ∨ P i j where
  contains_iff i j := (contains_insert c image i k j).trans (or_congr_right (h.contains_iff i j))
  exists_key i hi := by
    by_cases hne : i = image
    · exact ⟨k, .inl ⟨hne, rfl⟩⟩
    · obtain ⟨j, hj⟩ := h.exists_key i (by
        have : ¬compare image i = .eq := by simpa using Ne.symm hne
        simpa [Catalogue.insert, TreeMap.mem_alter, this] using hi)
      exact ⟨j, .inr hj⟩

theorem erase (h : c.Indexes P) (image : ImageKey) (k : TileKey) :
    (c.erase image k).Indexes fun i j => ¬(i = image ∧ j = k) ∧ P i j where
  contains_iff i j := (contains_erase c image i k j).trans (and_congr_right' (h.contains_iff i j))
  exists_key i hi := by
    suffices ∃ j, (c.erase image k).contains i j by
      obtain ⟨j, hj⟩ := this
      rw [contains_erase, h.contains_iff] at hj
      exact ⟨j, hj⟩
    by_cases hne : i = image
    · subst hne
      rw [Catalogue.erase, TreeMap.mem_alter, if_pos Std.ReflCmp.compare_self] at hi
      cases ht : c.images[i]? with
      | none => simp [ht] at hi
      | some tiles =>
        cases hw : tiles.without? k with
        | none => simp [ht, hw] at hi
        | some rest =>
          obtain ⟨j, hj⟩ := KeySet.exists_contains_of_without?_eq_some hw
          exact ⟨j, by simpa [contains, Catalogue.erase, ht, hw] using hj⟩
    · have hcmp : ¬compare image i = .eq := by simpa using Ne.symm hne
      obtain ⟨j, hj⟩ := h.exists_key i (by
        simpa [Catalogue.erase, TreeMap.mem_alter, hcmp] using hi)
      exact ⟨j, (contains_erase c image i k j).2 ⟨fun e => hne e.1, (h.contains_iff i j).2 hj⟩⟩

theorem eraseImage (h : c.Indexes P) (image : ImageKey) :
    (c.eraseImage image).Indexes fun i j => i ≠ image ∧ P i j where
  contains_iff i j :=
    (contains_eraseImage c image i j).trans (and_congr_right' (h.contains_iff i j))
  exists_key i hi := by
    rw [Catalogue.eraseImage, TreeMap.mem_erase] at hi
    obtain ⟨j, hj⟩ := h.exists_key i hi.2
    exact ⟨j, fun e => hi.1 (by simp [e]), hj⟩

/-- An image that is listed has keys. -/
theorem not_isEmpty (h : c.Indexes P) {image : ImageKey} {keys : KeySet}
    (hi : c.images[image]? = some keys) : keys.isEmpty = false := by
  obtain ⟨k, hk⟩ := h.exists_key image (TreeMap.mem_iff_isSome_getElem?.2 (by rw [hi]; rfl))
  have hcontains := (h.contains_iff image k).2 hk
  rw [contains, hi, Option.elim_some] at hcontains
  refine Bool.eq_false_iff.2 fun hempty => ?_
  rw [keys.isEmpty_iff.1 hempty k] at hcontains
  cases hcontains

theorem mem_keys (h : c.Indexes P) (image : ImageKey) (k : TileKey) :
    k ∈ c.keys image ↔ P image k := (c.mem_keys image k).trans (h.contains_iff image k)

/-- The keys of all images. -/
theorem mem_allKeys (h : c.Indexes P) (k : TileKey) :
    k ∈ c.toList.flatMap (·.2) ↔ ∃ image, P image k := by
  have hlist : k ∈ c.toList.flatMap (·.2) ↔ ∃ image, c.contains image k := by
    simp only [Catalogue.toList, List.mem_flatMap, List.mem_map, Prod.exists,
      TreeMap.mem_toList_iff_getElem?_eq_some]
    constructor
    · rintro ⟨image, _, ⟨_, tiles, hi, heq⟩, hk⟩
      cases heq
      exact ⟨image, by simpa [contains, hi, KeySet.mem_toList] using hk⟩
    · rintro ⟨image, hk⟩
      cases hi : c.images[image]? with
      | none => simp [contains, hi] at hk
      | some tiles =>
        refine ⟨image, tiles.toList, ⟨image, tiles, hi, rfl⟩, ?_⟩
        simpa [contains, hi, KeySet.mem_toList] using hk
  rw [hlist]
  exact exists_congr fun image => h.contains_iff image k

/-- If every key has one image, all keys are named once. -/
theorem nodup_allKeys (h : c.Indexes P) (hp : ∀ i j k, P i k → P j k → i = j) :
    (c.toList.flatMap (·.2)).Nodup := by
  have hkeys : ∀ {image : ImageKey} {tiles : KeySet}, (image, tiles) ∈ c.images.toList →
      ∀ k ∈ tiles.toList, P image k := by
    intro image tiles hm k hk
    rw [TreeMap.mem_toList_iff_getElem?_eq_some] at hm
    rw [← h.contains_iff, contains, hm]
    exact (tiles.mem_toList k).1 hk
  rw [Catalogue.toList, List.flatMap_map, List.nodup_flatMap]
  refine ⟨fun p _ => p.2.nodup_toList, ?_⟩
  refine TreeMap.distinct_keys_toList.imp_of_mem fun {p q} hpm hqm hne k hk hk' => ?_
  have hcmp : p.1 = q.1 := hp p.1 q.1 k (hkeys hpm k hk) (hkeys hqm k hk')
  exact hne (hcmp ▸ Std.ReflCmp.compare_self)

end Catalogue.Indexes

end TileStore
