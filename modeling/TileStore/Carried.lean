import TileStore.Key
import TileStore.Mutation

/-!
# Carried digests

Keys carry their digest, so a table of keys need not compute one: it passes the word through that
the key gives it. Nothing but a word can be passed through.
-/

namespace TileStore

/-- The digest of a piece that is a digest already. -/
def carriedDigest : Piece → Except Fault UInt64
  | .word w => .ok w
  | .bytes _ => .error .bytesRefused

/-- What a tile key gives to a table. -/
def TileKey.carried (k : TileKey) : Except Fault UInt64 := carriedDigest (.word k.hash)

/-- What an image key gives to a table. -/
def ImageKey.carried (k : ImageKey) : Except Fault UInt64 := carriedDigest (.word k.hash)

end TileStore
