import TileStore.Catalogue
import TileStore.Mutation
import TileStore.Shard

/-!
# The sharded store

A store in partitions. A tile lies in the shard that its key's digest selects, and is catalogued
in the partition that its image's digest selects. The number of partitions is a power of two, so
masking a digest selects one. Victims are found by sampling: a search starts at the cursor, probes
the first few shards that hold something, and takes the least rank it saw.
-/

namespace TileStore

/-- The sharded store. -/
structure ShardedStore where
  shards : Array (Shard Entry)
  /-- The partitions of the catalogue. -/
  catalogues : Array Catalogue
  /-- Where the next search starts, modulo the number of shards: so many searches there were, fewer
  than `2 ^ 64` even with a circuit of the shards on top. -/
  cursor : Nat := 0

namespace ShardedStore

/-- An empty store of so many partitions. -/
def new (count : Nat) : ShardedStore := ⟨Array.replicate count {}, Array.replicate count {}, 0⟩

/-- Values looked at in one shard for one victim. -/
def sampleSize : Nat := 8

/-- Shards probed for one victim. -/
def probeLimit : Nat := 4

/-- The partition, of so many, that a digest selects. -/
def select (count : Nat) (hash : UInt64) : Nat := hash.toNat &&& (count - 1)

/-- The shard of a key. -/
def shardOf (s : ShardedStore) (k : TileKey) : Nat := select s.shards.size k.hash

/-- The partition of the catalogue of an image. -/
def catalogueOf (s : ShardedStore) (image : ImageKey) : Nat := select s.catalogues.size image.hash

/-- A shard by its number. -/
def shard (s : ShardedStore) (i : Nat) : Shard Entry := s.shards[i]?.getD {}

/-- A partition of the catalogue by its number. -/
def catalogue (s : ShardedStore) (i : Nat) : Catalogue := s.catalogues[i]?.getD {}

/-! ### Reading -/

/-- The entry under a key. -/
def get? (s : ShardedStore) (k : TileKey) : Option Entry := (s.shard (s.shardOf k)).get? k

/-- All entries, shard by shard. -/
def entries (s : ShardedStore) : List Entry := s.shards.toList.flatMap Shard.values

/-- The keys of an image. -/
def keysOf (s : ShardedStore) (image : ImageKey) : List TileKey :=
  (s.catalogue (s.catalogueOf image)).keys image

/-- The entries of an image. -/
def entriesOf (s : ShardedStore) (image : ImageKey) : List Entry :=
  (s.keysOf image).filterMap s.get?

/-! ### Changing -/

/-- Change a shard. -/
def editShard (s : ShardedStore) (i : Nat) (f : Shard Entry → Shard Entry) : ShardedStore :=
  { s with shards := s.shards.modify i f }

/-- Change a partition of the catalogue. -/
def editCatalogue (s : ShardedStore) (i : Nat) (f : Catalogue → Catalogue) : ShardedStore :=
  { s with catalogues := s.catalogues.modify i f }

/-- Write an entry and catalogue it unless it replaces another; the answer is the one it
replaced. -/
def insert (e : Entry) : Mutation ShardedStore (Option Entry) := do
  let s ← get
  let old := s.get? e.key
  let s := s.editShard (s.shardOf e.key) (·.insert e.key e)
  set <| if old.isSome then s
    else s.editCatalogue (s.catalogueOf e.image) (·.insert e.image e.key)
  return old

/-- Take the entry under a key out of its shard. -/
def take (k : TileKey) : Mutation ShardedStore (Option Entry) := do
  let s ← get
  let found := s.get? k
  set (s.editShard (s.shardOf k) (·.erase k))
  return found

/-- Strike a key from the catalogue, where it must be. -/
def strike (image : ImageKey) (k : TileKey) : Mutation ShardedStore Unit := do
  let s ← get
  let i := s.catalogueOf image
  let known := (s.catalogue i).contains image k
  set (s.editCatalogue i (·.erase image k))
  if !known then throw .uncatalogued

/-! ### Victims -/

/-- The shard that a search comes to after `i` others. -/
def onCircuit (s : ShardedStore) (i : Nat) : Nat := (s.cursor + i) &&& (s.shards.size - 1)

/-- The first `limit` shards that hold something, after `i` shards of the circuit and among the next
`n`. -/
def occupied (s : ShardedStore) (i limit : Nat) : Nat → List Nat
  | 0 => []
  | n + 1 =>
    match limit with
    | 0 => []
    | rest + 1 =>
      if (s.shard (s.onCircuit i)).isEmpty then s.occupied (i + 1) limit n
      else s.onCircuit i :: s.occupied (i + 1) rest n

/-- The shards a search probes. -/
def probed (s : ShardedStore) : List Nat := s.occupied 0 probeLimit s.shards.size

/-- Looking at no more shards than needed makes no difference. -/
theorem occupied_eq (s : ShardedStore) (i limit n : Nat) :
    s.occupied i limit n =
      (((List.range' i n).map s.onCircuit).filter fun j => !(s.shard j).isEmpty).take limit := by
  induction n generalizing i limit with
  | zero => simp [occupied]
  | succ n ih =>
    cases limit with
    | zero => simp [occupied]
    | succ limit =>
      rw [occupied, List.range'_succ, List.map_cons, List.filter_cons]
      split <;> simp [*]

/-- The entry to be evicted first of all that a search looks at. -/
def pick? (s : ShardedStore) (rank : Entry → Rank) (protect : Option TileKey) : Option Entry :=
  let samples := s.probed.filterMap fun i => (s.shard i).sample rank sampleSize protect
  (samples.foldl Shard.better none).map (·.2)

/-- The store after a search: the cursor and the hands of the probed shards have moved on. -/
def advance (s : ShardedStore) : ShardedStore :=
  let s' := s.probed.foldl (fun s i => s.editShard i (·.advance sampleSize)) s
  { s' with cursor := s.cursor + 1 }

end ShardedStore

end TileStore
