import TileStore.Digest
import TileStore.Hex
import Std.Data.TreeMap

/-!
# Image identities and tile positions

An image is known by an identity that outlives the image itself: a 64-bit hash, or a non-empty
byte string that whoever made it keeps unique. `Mint` hands out byte identities of its own,
counted from one. A tile lies at a position in the grid of its image.
-/

namespace TileStore

open Std (LawfulEqOrd TransOrd)

/-! ### Identities -/

/-- The lasting identity of an image. -/
inductive Identity where
  /-- A hash of the image. -/
  | hashed (hash : UInt64)
  /-- A byte string that is already unique. -/
  | bytes (bs : List UInt8)
deriving DecidableEq

namespace Identity

/-- The identity a content hashes to. -/
def ofContent (content : List Piece) : Identity := .hashed (digest content)

/-- The identity of a text: its bytes, and a word that no text contains. -/
def ofText (s : String) : Identity := ofContent [.bytes s.toUTF8.toList, .word 0xff]

/-- The identity of a word. -/
def ofWord (w : UInt64) : Identity := ofContent [.word w]

/-- The identity of a byte string that is hashed, with its length in front. -/
def ofHashedBytes (bs : List UInt8) : Identity :=
  ofContent [.word (UInt64.ofNat bs.length), .bytes bs]

/-- The identity of a pair of coordinates. -/
def ofPair (x y : Int32) : Identity :=
  ofContent [.word x.toUInt32.toUInt64, .word y.toUInt32.toUInt64]

/-- The order of identities: hashes before byte strings, byte strings as in a dictionary. -/
protected def compare : Identity → Identity → Ordering
  | .hashed a, .hashed b => compare a b
  | .hashed _, .bytes _ => .lt
  | .bytes _, .hashed _ => .gt
  | .bytes a, .bytes b => compare a b

instance : Ord Identity := ⟨Identity.compare⟩

instance : TransOrd Identity where
  eq_swap {i j} :=
    match i, j with
    | .hashed _, .hashed _ => (inferInstance : TransOrd UInt64).eq_swap
    | .hashed _, .bytes _ => rfl
    | .bytes _, .hashed _ => rfl
    | .bytes _, .bytes _ => (inferInstance : TransOrd (List UInt8)).eq_swap
  isLE_trans {i j k} :=
    match i, j, k with
    | .hashed _, .hashed _, .hashed _ => (inferInstance : TransOrd UInt64).isLE_trans
    | .hashed _, _, .bytes _ => fun _ _ => rfl
    | .bytes _, .hashed _, _ => nofun
    | _, .bytes _, .hashed _ => nofun
    | .bytes _, .bytes _, .bytes _ => (inferInstance : TransOrd (List UInt8)).isLE_trans

instance : LawfulEqOrd Identity where
  compare_self {i} :=
    match i with
    | .hashed _ => (inferInstance : LawfulEqOrd UInt64).compare_self
    | .bytes _ => (inferInstance : LawfulEqOrd (List UInt8)).compare_self
  eq_of_compare {i j} :=
    match i, j with
    | .hashed _, .hashed _ =>
      fun h => congrArg _ ((inferInstance : LawfulEqOrd UInt64).eq_of_compare h)
    | .hashed _, .bytes _ => nofun
    | .bytes _, .hashed _ => nofun
    | .bytes _, .bytes _ =>
      fun h => congrArg _ ((inferInstance : LawfulEqOrd (List UInt8)).eq_of_compare h)

/-- The digits of an identity. -/
def text : Identity → String
  | .hashed h => Hex.ofWord h
  | .bytes bs => Hex.ofBytes bs

/-- The digits of an identity with its kind. -/
def describe (id : Identity) : String :=
  match id with
  | .hashed _ => "ImageId::Hashed(0x" ++ id.text ++ ")"
  | .bytes _ => "ImageId::Unique(" ++ id.text ++ ")"

end Identity

/-- A source of identities. -/
structure Mint where
  /-- The number of the next identity. -/
  next : UInt64

namespace Mint

/-- A source that has handed out nothing. -/
def fresh : Mint := ⟨1⟩

/-- The next identity, eight bytes long. -/
def issue (m : Mint) : Identity × Mint := (.bytes (Hex.wordBytes m.next), ⟨m.next + 1⟩)

end Mint

/-! ### Positions -/

/-- The position of a tile in the grid of its image. -/
structure Position where
  /-- The column. -/
  x : Int32
  /-- The row. -/
  y : Int32
deriving DecidableEq

namespace Position

/-- The position a grid starts at. -/
def origin : Position := ⟨0, 0⟩

/-- Both coordinates in one word, the row in the high half. -/
def index (p : Position) : UInt64 := p.y.toUInt32.toUInt64 <<< 32 ||| p.x.toUInt32.toUInt64

/-- Column by column. -/
protected def compare (p q : Position) : Ordering := (compare p.x q.x).then (compare p.y q.y)

instance : Ord Position := ⟨Position.compare⟩

/-- The coordinates with their names. -/
def describe (p : Position) : String :=
  "TileCoord \x7b x: " ++ toString p.x.toInt ++ ", y: " ++ toString p.y.toInt ++ " \x7d"

end Position

end TileStore
