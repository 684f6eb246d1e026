import TileStore.Identity
import TileStore.Order

/-!
# Keys of tiles and images

A tile key is made from the identity of an image and a position, an image key from the identity
alone. Each carries the digest of its content, computed once when the key is made. The content of
a tile key is packed into two words for a hashed identity; for a byte identity the position is
appended to the bytes with a fixed width, so different pairs never share a content.

Keys are in order by their digest first, which nearly always decides.
-/

namespace TileStore

open Std (LawfulEqOrd TransCmp TransOrd)

/-- What identifies a tile. -/
inductive TileContent where
  /-- A hashed identity next to the position in one word. -/
  | packed (image tile : UInt64)
  /-- A byte identity followed by the eight bytes of the position. -/
  | bytes (bs : List UInt8)
deriving DecidableEq

namespace TileContent

/-- The order of contents: two words before bytes. -/
protected def compare : TileContent → TileContent → Ordering
  | .packed image tile, .packed image' tile' => compare [image, tile] [image', tile']
  | .packed _ _, .bytes _ => .lt
  | .bytes _, .packed _ _ => .gt
  | .bytes a, .bytes b => compare a b

instance : Ord TileContent := ⟨TileContent.compare⟩

instance : TransOrd TileContent where
  eq_swap {a b} :=
    match a, b with
    | .packed _ _, .packed _ _ => (inferInstance : TransOrd (List UInt64)).eq_swap
    | .packed _ _, .bytes _ => rfl
    | .bytes _, .packed _ _ => rfl
    | .bytes _, .bytes _ => (inferInstance : TransOrd (List UInt8)).eq_swap
  isLE_trans {a b c} :=
    match a, b, c with
    | .packed _ _, .packed _ _, .packed _ _ =>
      (inferInstance : TransOrd (List UInt64)).isLE_trans
    | .packed _ _, _, .bytes _ => fun _ _ => rfl
    | .bytes _, .packed _ _, _ => nofun
    | _, .bytes _, .packed _ _ => nofun
    | .bytes _, .bytes _, .bytes _ => (inferInstance : TransOrd (List UInt8)).isLE_trans

instance : LawfulEqOrd TileContent where
  compare_self {a} :=
    match a with
    | .packed _ _ => (inferInstance : LawfulEqOrd (List UInt64)).compare_self
    | .bytes _ => (inferInstance : LawfulEqOrd (List UInt8)).compare_self
  eq_of_compare {a b} :=
    match a, b with
    | .packed _ _, .packed _ _ => fun h => by
      cases (inferInstance : LawfulEqOrd (List UInt64)).eq_of_compare h
      rfl
    | .packed _ _, .bytes _ => nofun
    | .bytes _, .packed _ _ => nofun
    | .bytes _, .bytes _ =>
      fun h => congrArg _ ((inferInstance : LawfulEqOrd (List UInt8)).eq_of_compare h)

/-- What a digest absorbs of a tile's content. -/
def pieces : TileContent → List Piece
  | .packed image tile => [.word image, .word tile]
  | .bytes bs => [.word (UInt64.ofNat bs.length), .bytes bs]

end TileContent

/-- The key of a tile. -/
structure TileKey where
  /-- The digest of the content. -/
  hash : UInt64
  content : TileContent
deriving DecidableEq

namespace TileKey

instance : Ord TileKey := ⟨orderBy (·.hash) (·.content)⟩

instance : TransOrd TileKey := inferInstanceAs (TransCmp (orderBy _ _))

instance : LawfulEqOrd TileKey :=
  lawfulEqCmp_orderBy fun ⟨_, _⟩ ⟨_, _⟩ hh hc => by cases hh; cases hc; rfl

/-- The content for a position of an image. -/
def contentOf (image : Identity) (p : Position) : TileContent :=
  match image with
  | .hashed h => .packed h p.index
  | .bytes bs => .bytes (bs ++ Hex.wordBytes p.index)

/-- The key of the tile at a position of an image. -/
def of (image : Identity) (p : Position) : TileKey :=
  let content := contentOf image p
  ⟨digest content.pieces, content⟩

/-- The content in digits. -/
def describe (k : TileKey) : String :=
  match k.content with
  | .packed image tile => "TileKey(" ++ Hex.ofWord image ++ ":" ++ Hex.ofWord tile ++ ")"
  | .bytes bs => "TileKey(" ++ Hex.ofBytes bs ++ ")"

end TileKey

/-- The key that groups the tiles of one image. -/
structure ImageKey where
  /-- The digest of the identity. -/
  hash : UInt64
  identity : Identity
deriving DecidableEq

namespace ImageKey

instance : Ord ImageKey := ⟨orderBy (·.hash) (·.identity)⟩

instance : TransOrd ImageKey := inferInstanceAs (TransCmp (orderBy _ _))

instance : LawfulEqOrd ImageKey :=
  lawfulEqCmp_orderBy fun ⟨_, _⟩ ⟨_, _⟩ hh hi => by cases hh; cases hi; rfl

/-- What a digest absorbs of an identity. -/
def pieces : Identity → List Piece
  | .hashed h => [.word 0, .word h]
  | .bytes bs => [.word 1, .word (UInt64.ofNat bs.length), .bytes bs]

/-- The key of an image. -/
def of (image : Identity) : ImageKey := ⟨digest (pieces image), image⟩

/-- The identity with its kind. -/
def describe (k : ImageKey) : String := "ImageKey(" ++ k.identity.describe ++ ")"

end ImageKey

end TileStore
