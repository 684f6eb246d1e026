import TileStore.KeySet

/-!
# Catalogues

A catalogue lists the tiles of each image, so that all tiles of an image are found without looking
at those of any other. An image without tiles is not in it.
-/

namespace TileStore

open Std (TreeMap)

/-- The tile keys of each image. -/
structure Catalogue where
  images : TreeMap ImageKey KeySet := {}

namespace Catalogue

/-- The keys of an image. -/
def keys (c : Catalogue) (image : ImageKey) : List TileKey := c.images[image]?.elim [] (·.toList)

/-- Whether a key is listed under an image. -/
def contains (c : Catalogue) (image : ImageKey) (k : TileKey) : Bool :=
  c.images[image]?.elim false (·.contains k)

/-- List a key under an image. -/
def insert (c : Catalogue) (image : ImageKey) (k : TileKey) : Catalogue :=
  ⟨c.images.alter image fun tiles => some ((tiles.getD {}).insert k)⟩

/-- Strike a key from an image, and the image once it has no key left. -/
def erase (c : Catalogue) (image : ImageKey) (k : TileKey) : Catalogue :=
  ⟨c.images.alter image (·.bind (·.without? k))⟩

/-- Strike an image. -/
def eraseImage (c : Catalogue) (image : ImageKey) : Catalogue := ⟨c.images.erase image⟩

/-- All images with their keys. -/
def toList (c : Catalogue) : List (ImageKey × List TileKey) :=
  c.images.toList.map fun (image, tiles) => (image, tiles.toList)

/-! ### What is listed -/

theorem mem_keys (c : Catalogue) (image : ImageKey) (k : TileKey) :
    k ∈ c.keys image ↔ c.contains image k := by
  unfold keys contains
  cases c.images[image]? <;> simp [KeySet.mem_toList]

theorem nodup_keys (c : Catalogue) (image : ImageKey) : (c.keys image).Nodup := by
  unfold keys
  cases c.images[image]? <;> simp [KeySet.nodup_toList]

/-- Listing a key lists it under its image and changes nothing else. -/
theorem contains_insert (c : Catalogue) (image i : ImageKey) (k j : TileKey) :
    (c.insert image k).contains i j ↔ (i = image ∧ j = k) ∨ c.contains i j := by
  unfold insert contains
  simp only [TreeMap.getElem?_alter, Std.compare_eq_iff_eq]
  split
  · next h =>
    subst h
    cases c.images[image]? <;> simp [KeySet.contains_insert]
    simp [KeySet.contains_iff_exists]
  · next h => simp [Ne.symm h]

/-- Striking a key strikes it from its image and changes nothing else. -/
theorem contains_erase (c : Catalogue) (image i : ImageKey) (k j : TileKey) :
    (c.erase image k).contains i j ↔ ¬(i = image ∧ j = k) ∧ c.contains i j := by
  unfold erase contains
  simp only [TreeMap.getElem?_alter, Std.compare_eq_iff_eq]
  split
  · next h =>
    subst h
    cases c.images[image]? <;> simp [KeySet.contains_without?]
  · next h => simp [Ne.symm h]

/-- Striking an image strikes all its keys and no other. -/
theorem contains_eraseImage (c : Catalogue) (image i : ImageKey) (j : TileKey) :
    (c.eraseImage image).contains i j ↔ i ≠ image ∧ c.contains i j := by
  unfold eraseImage contains
  simp only [TreeMap.getElem?_erase, Std.compare_eq_iff_eq]
  split
  · next h => simp [h]
  · next h => simp [Ne.symm h]

end Catalogue

end TileStore
