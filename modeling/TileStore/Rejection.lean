import TileStore.Binary64.Decimal
import TileStore.Identity

/-!
# Rejections

A rejection answers a bad argument; the call that gets it has changed nothing. `message` is its
wording.
-/

namespace TileStore

/-- Why a call is refused. -/
inductive Rejection where
  /-- A capacity must be positive. -/
  | capacity (bytes : UInt64)
  /-- A threshold must lie between zero and one. -/
  | threshold (value : Binary64)
  /-- The overhead of an entry must be positive. -/
  | overhead
  /-- There must be at least one shard. -/
  | shards (count : UInt64)
  /-- An identity must not be empty. -/
  | emptyIdentity
  /-- Lists that go together differ in length. -/
  | lengths (what : String) (expected actual : Nat)
deriving DecidableEq

namespace Rejection

/-- The wording of a rejection. -/
def message : Rejection → String
  | .capacity n => "invalid memory capacity: " ++ toString n.toNat ++ " bytes (must be > 0)"
  | .threshold t => "invalid memory threshold: " ++ t.text .plain ++ " (must be within 0.0..=1.0)"
  | .overhead => "invalid entry overhead: must be > 0 bytes"
  | .shards n => "invalid shard count: " ++ toString n.toNat ++ " (must be > 0)"
  | .emptyIdentity => "image identity must not be empty"
  | .lengths what expected actual =>
    what ++ " length mismatch: expected " ++ toString expected ++ ", got " ++ toString actual

end Rejection

/-- An identity given as bytes, which must not be empty. -/
def Identity.ofBytes (bs : List UInt8) : Except Rejection Identity :=
  if bs = [] then .error .emptyIdentity else .ok (.bytes bs)

end TileStore
