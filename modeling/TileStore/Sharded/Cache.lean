import TileStore.Sharded.Store
import TileStore.Vault

/-!
# The sharded cache

A vault around a sharded store. A batch of writes is followed by at most one eviction pass, which
spares the last entry written. A pass that starts above its target evicts one sampled victim after
the other until the target is met or a search finds nothing.

Requests are answered one after the other, and what threads do to each other is left out. No shard is
busy when a search comes to it, so none is passed over or waited for. Nothing happens between a search
and the eviction of what it found, so that is always still there
(`ShardedStore.Valid.eraseIfSame_of_pick?`): no search is in vain, and a pass needs no bound on how often
one may be.
-/

namespace TileStore

/-- A cache with a sharded store. -/
abbrev Sharded := Vault ShardedStore

namespace Sharded

open Vault

/-- An empty cache. -/
def new (s : Settings) (observers : Nat) : Sharded :=
  { ledger := .new s observers, store := .new s.shardCount }

/-! ### Eviction -/

/-- Evict an entry that is in the store. -/
def evictEntry (e : Entry) : Mutation Sharded Unit := do
  let _ ← inStore (ShardedStore.take e.key)
  inStore (ShardedStore.strike e.image e.key)
  account none (some e)
  modify (·.mark e .evicted)

/-- Evict sampled victims, until the memory is down to the target or a search finds nothing. The
fuel bounds the number of searches; each but the last takes an entry off the ledger. -/
def evictSampled (m : Moment) (target : UInt64) (protect : Option TileKey) :
    Nat → Mutation Sharded (List Entry)
  | 0 => return []
  | fuel + 1 => do
    let v ← get
    if v.ledger.memoryUsed ≤ target then return []
    set { v with store := v.store.advance }
    match v.store.pick? (v.rank m) protect with
    | none => return []
    | some e =>
      evictEntry e
      return e :: (← evictSampled m target protect fuel)

/-- An eviction pass. -/
def evict (m : Moment) (protect : Option TileKey) : Mutation Sharded Pass := do
  let before ← get
  let target := before.ledger.target
  if before.ledger.memoryUsed ≤ target then return {}
  let victims ← evictSampled m target protect (before.ledger.tileCount.toNat + 1)
  let after ← get
  return passRecord "sharded" m target before after victims

/-- Run an eviction pass that spares an entry if the memory is over the capacity. -/
def restoreBound (m : Moment) (e : Entry) : Mutation Sharded Pass := do
  let v ← get
  if v.ledger.isOverCapacity then
    let pass ← evict m (some e.key)
    return { pass with log := v.oversizeWarning e ++ pass.log }
  else return {}

/-! ### Writing -/

/-- Write an entry; the answer is whether it replaced another. -/
def write (e : Entry) : Mutation Sharded Bool := do
  let replaced ← inStore (ShardedStore.insert e)
  if replaced.isSome then modify (·.mark e .updated)
  account (some e) replaced
  return replaced.isSome

/-- Cache a tile. -/
def add (m : Moment) (owner : Owner) (p : Position) (payload : Payload) (cost : Option Binary64) :
    Mutation Sharded (List Notice) := do
  let e ← newEntry m owner p payload cost
  let replaced ← write e
  let pass ← restoreBound m e
  return pass.log.map .log ++ (Notice.written e replaced ++ Notice.evicted pass.victims)

/-- Cache several tiles of one owner. -/
def addBatch (m : Moment) (owner : Owner)
    (tiles : List (Position × Payload × Option Binary64)) : Mutation Sharded (List Notice) := do
  let es ← tiles.mapM fun (p, payload, cost) => newEntry m owner p payload cost
  match es.getLast? with
  | none => return []
  | some last =>
    let ws ← es.mapM fun e => return (e, ← write e)
    let pass ← restoreBound m last
    return pass.log.map .log ++
      (ws.flatMap (fun (e, replaced) => Notice.written e replaced) ++ Notice.evicted pass.victims)

/-! ### Looking up -/

/-- Look up a tile. -/
def get? (m : Moment) (k : TileKey) : Mutation Sharded (Option Entry) := do
  let v ← get
  match v.store.get? k with
  | some e =>
    set ((if v.ledger.trackRecency then v.touch e m.now else v).count (.lookup true))
    return some e
  | none =>
    set (v.count (.lookup false))
    return none

/-- Look up several tiles. -/
def getAll (m : Moment) (ks : List TileKey) : Mutation Sharded (List (Option Entry)) :=
  ks.mapM (get? m)

/-! ### Removing -/

/-- Remove a tile. -/
def remove (k : TileKey) (image : ImageKey) : Mutation Sharded (Option Entry × List Notice) := do
  match ← inStore (ShardedStore.take k) with
  | none => return (none, [])
  | some e =>
    inStore (ShardedStore.strike image k)
    account none (some e)
    return (some e, ← dismiss [e])

/-- Remove the entries under keys that are no longer catalogued. -/
def removeKeys (ks : List TileKey) : Mutation Sharded (List Entry) :=
  ks.mapM fun k => do
    match ← inStore (ShardedStore.take k) with
    | none => throw .missingTile
    | some e =>
      account none (some e)
      return e

/-- Remove all tiles of an image. -/
def removeImage (image : Identity) : Mutation Sharded (Nat × List Notice) := do
  let key := ImageKey.of image
  let v ← get
  let keys := v.store.keysOf key
  set { v with store := v.store.editCatalogue (v.store.catalogueOf key) (·.eraseImage key) }
  let es ← removeKeys keys
  let notices ← dismiss es
  return (es.length, notices ++ [.log (.imageRemoved image es.length)])

/-- Remove everything, one partition of the catalogue after the other. -/
def flush : Mutation Sharded (List Notice) := do
  let parts ← (List.range (← get).store.catalogues.size).mapM fun i => do
    let v ← get
    let keys := (v.store.catalogue i).toList.flatMap (·.2)
    set { v with store := v.store.editCatalogue i fun _ => {} }
    removeKeys keys
  let es := parts.flatten
  let notices ← dismiss es
  return notices ++ [.log (.flushed es.length)]

/-- Run an eviction pass that spares nothing. -/
def relieve (m : Moment) : Mutation Sharded (List Notice) := do
  return (← evict m none).notices

end Sharded

end TileStore
