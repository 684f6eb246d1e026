import Mathlib.Logic.Function.Basic
import TileStore.Carried
import TileStore.Proofs.Key
import TileStore.Sharded.Store

/-!
# Keys and where they are placed

A key is compared by its digest and its content, and the digest alone decides where it is placed:
in which bucket of a table, in which shard, and for an image in which partition of the catalogue.
So a store is right about what it holds only if equal keys have equal digests, and it tells all
tiles apart only if different tiles never have equal keys.

Both hold whatever the digest is. Here the digest is any function of the content, one that gives
every key the same word included: `TileKey.under` and `ImageKey.under` make keys with it, and the
keys in use are those of one such function, `TileKey.of_eq_under` and `ImageKey.of_eq_under`.
Two facts about contents carry everything. The index of a position loses nothing of it, and every
word is the index of some position: `Position.bijective_index`. And the index has a fixed width, so
that it can be cut off again from the bytes it was appended to, although byte identities may be
prefixes of each other or end in the index of some other tile: `TileKey.contentOf_inj`.

The main result is `keys_injective`.
-/

namespace TileStore

/-! ### Positions and their indices -/

namespace Position

/-- The position with an index. -/
def ofIndex (w : UInt64) : Position := ⟨⟨w.toUInt32⟩, ⟨(w >>> 32).toUInt32⟩⟩

theorem index_ofIndex (w : UInt64) : (ofIndex w).index = w := by
  apply UInt64.toNat_inj.1
  have hw : w.toNat < 2 ^ 64 := w.toNat_lt
  have hlow : (ofIndex w).x.toUInt32.toNat = w.toNat % 2 ^ 32 := UInt64.toNat_toUInt32 w
  have hhigh : (ofIndex w).y.toUInt32.toNat = w.toNat / 2 ^ 32 := by
    change (w >>> 32).toUInt32.toNat = _
    rw [UInt64.toNat_toUInt32, UInt64.toNat_shiftRight]
    change w.toNat >>> 32 % 2 ^ 32 = _
    rw [Nat.shiftRight_eq_div_pow]
    omega
  rw [toNat_index, hlow, hhigh]
  omega

/-- Every word is the index of one position. -/
theorem bijective_index : Function.Bijective index :=
  ⟨fun _ _ h => index_inj.1 h, fun w => ⟨ofIndex w, index_ofIndex w⟩⟩

end Position

/-! ### Keys under any digest -/

namespace TileKey

/-- The key of the tile at a position of an image if contents were digested otherwise. -/
def under (digestOf : TileContent → UInt64) (image : Identity) (p : Position) : TileKey :=
  ⟨digestOf (contentOf image p), contentOf image p⟩

theorem of_eq_under : TileKey.of = under fun c => digest c.pieces := rfl

variable {digestOf : TileContent → UInt64} {a b : Identity} {p q : Position}

/-- The digests of keys never decide a comparison of two keys: their contents do. -/
theorem under_eq_iff_content :
    under digestOf a p = under digestOf b q ↔ contentOf a p = contentOf b q :=
  ⟨congrArg content, fun h => by rw [under, under, h]⟩

theorem under_inj : under digestOf a p = under digestOf b q ↔ a = b ∧ p = q :=
  under_eq_iff_content.trans contentOf_inj

end TileKey

namespace ImageKey

/-- The key of an image if identities were digested otherwise. -/
def under (digestOf : Identity → UInt64) (image : Identity) : ImageKey := ⟨digestOf image, image⟩

theorem of_eq_under : ImageKey.of = under fun i => digest (pieces i) := rfl

theorem under_inj {digestOf : Identity → UInt64} {a b : Identity} :
    under digestOf a = under digestOf b ↔ a = b :=
  ⟨congrArg identity, fun h => h ▸ rfl⟩

end ImageKey

/-! ### Where keys are placed -/

/-- Two tile keys go the same ways: a table is given the same word for both, begins at the same
bucket to look for them and offers them the same bucket, and every store has them in one shard. -/
structure TileKey.Together (k l : TileKey) : Prop where
  carried : ∃ w, k.carried = .ok w ∧ l.carried = .ok w
  sought : ∀ (t : Buckets) (i : Nat), t.start k.hash i = t.start l.hash i
  offered : ∀ t : Buckets, t.offer k.hash = t.offer l.hash
  shard : ∀ s : ShardedStore, s.shardOf k = s.shardOf l

/-- Two image keys go the same ways, into one partition of the catalogue of every store. -/
structure ImageKey.Together (i j : ImageKey) : Prop where
  carried : ∃ w, i.carried = .ok w ∧ j.carried = .ok w
  sought : ∀ (t : Buckets) (n : Nat), t.start i.hash n = t.start j.hash n
  partition : ∀ s : ShardedStore, s.catalogueOf i = s.catalogueOf j

/-- The digest alone decides where a key goes, and a table takes it without a fault. -/
theorem TileKey.together_of_hash {k l : TileKey} (h : k.hash = l.hash) : k.Together l where
  carried := ⟨k.hash, rfl, congrArg (carriedDigest ∘ .word) h.symm⟩
  sought t i := by rw [h]
  offered t := by rw [h]
  shard s := by rw [ShardedStore.shardOf, ShardedStore.shardOf, h]

theorem ImageKey.together_of_hash {i j : ImageKey} (h : i.hash = j.hash) : i.Together j where
  carried := ⟨i.hash, rfl, congrArg (carriedDigest ∘ .word) h.symm⟩
  sought t n := by rw [h]
  partition s := by rw [ShardedStore.catalogueOf, ShardedStore.catalogueOf, h]

/-! ### The main result -/

/-- Whatever the digests are, the keys of two tiles are equal only if the tiles have the same image
and the same column and row, and the keys of two images only if the images are the same. Keys with
the same content have the same digest and go to the same places. Columns and rows are put into one
word without loss, and every word comes from one column and row. -/
theorem keys_injective (tileDigest : TileContent → UInt64) (imageDigest : Identity → UInt64)
    (a b : Identity) (p q : Position) :
    let k := TileKey.under tileDigest a p
    let l := TileKey.under tileDigest b q
    let i := ImageKey.under imageDigest a
    let j := ImageKey.under imageDigest b
    (k = l ↔ a = b ∧ p.x = q.x ∧ p.y = q.y) ∧
      (i = j ↔ a = b) ∧
      (k.content = l.content → k.hash = l.hash ∧ k.Together l) ∧
      (i.identity = j.identity → i.hash = j.hash ∧ i.Together j) ∧
      (Function.Bijective fun c : Int32 × Int32 => (Position.mk c.1 c.2).index) ∧
      TileKey.of = TileKey.under (fun c => digest c.pieces) ∧
      ImageKey.of = ImageKey.under fun i => digest (ImageKey.pieces i) := by
  intro k l i j
  have hposition : p = q ↔ p.x = q.x ∧ p.y = q.y := by
    cases p
    cases q
    exact Position.mk.injEq .. ▸ Iff.rfl
  have hpair : Function.Bijective fun c : Int32 × Int32 => Position.mk c.1 c.2 :=
    ⟨fun c d h => Prod.ext (congrArg Position.x h) (congrArg Position.y h),
      fun p => ⟨(p.x, p.y), rfl⟩⟩
  refine ⟨TileKey.under_inj.trans (and_congr_right' hposition), ImageKey.under_inj, fun h => ?_,
    fun h => ?_, Position.bijective_index.comp hpair, TileKey.of_eq_under, ImageKey.of_eq_under⟩
  · have hash : k.hash = l.hash := congrArg tileDigest h
    exact ⟨hash, TileKey.together_of_hash hash⟩
  · have hash : i.hash = j.hash := congrArg imageDigest h
    exact ⟨hash, ImageKey.together_of_hash hash⟩

/-- Two images of which one has for its identity the very bytes that identify a tile of the other,
and a digest that tells nothing apart. The tiles are told apart all the same, and the tile of the
first image goes where it goes when its key is made again. -/
theorem keys_injective_embedded :
    let p : Position := ⟨-1, 7⟩
    let a := Identity.bytes [1, 2]
    let b := Identity.bytes ([1, 2] ++ Hex.wordBytes p.index)
    TileKey.contentOf a p = .bytes [1, 2, 0, 0, 0, 7, 255, 255, 255, 255] ∧
      b = .bytes [1, 2, 0, 0, 0, 7, 255, 255, 255, 255] ∧
      TileKey.under (fun _ => 0) a p ≠ TileKey.under (fun _ => 0) b p ∧
      (TileKey.under (fun _ => 0) a p).Together (TileKey.under (fun _ => 0) a p) ∧
      (ImageKey.under (fun _ => 0) a).Together (ImageKey.under (fun _ => 0) a) := by
  intro p a b
  have hne := (keys_injective (fun _ => 0) (fun _ => 0) a b p p).1
  obtain ⟨-, -, htile, himage, -⟩ := keys_injective (fun _ => 0) (fun _ => 0) a a p p
  refine ⟨by decide, by decide, fun h => ?_, (htile rfl).2, (himage rfl).2⟩
  exact absurd (hne.1 h).1 (by decide)

end TileStore
