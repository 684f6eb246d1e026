import TileStore.Linked.Store
import TileStore.Vault

/-!
# The linked cache

A vault around a linked store. Every write that takes the memory over the capacity is followed at
once by an eviction pass that spares the entry just written. A pass that starts above its target
first evicts what a sweep of sixty-four slots found without an owner, then follows the schedule,
and stops as soon as the target is met.
-/

namespace TileStore

/-- A cache with a linked store. -/
abbrev Linked := Vault LinkedStore

namespace Linked

open Vault

/-- How many slots a pass sweeps for entries without an owner. -/
def sweepBudget : Nat := 64

/-- An empty cache. -/
def new (s : Settings) (observers : Nat) : Linked := { ledger := .new s observers, store := {} }

/-! ### Eviction -/

/-- Evict the entry in a slot. -/
def evictSlot (slot : Nat) : Mutation Linked Entry := do
  let e ← inStore (LinkedStore.removeSlot slot)
  account none (some e)
  modify (·.mark e .evicted)
  return e

/-- Evict the entries in the listed slots, until the memory is down to the target. -/
def evictListed (target : UInt64) : List Nat → Mutation Linked (List Entry)
  | [] => return []
  | slot :: slots => do
    if (← get).ledger.memoryUsed ≤ target then return []
    let e ← evictSlot slot
    return e :: (← evictListed target slots)

/-- Evict by the schedule, until the memory is down to the target or only the protected entry is
left. The fuel bounds the number of victims. -/
def evictScheduled (target : UInt64) (protect : Option TileKey) :
    Nat → Mutation Linked (List Entry)
  | 0 => return []
  | fuel + 1 => do
    let v ← get
    if v.ledger.memoryUsed ≤ target then return []
    match v.store.cheapest? protect with
    | none => return []
    | some slot =>
      let e ← evictSlot slot
      return e :: (← evictScheduled target protect fuel)

/-- An eviction pass. -/
def evict (m : Moment) (protect : Option TileKey) : Mutation Linked Pass := do
  let before ← get
  let target := before.ledger.target
  if before.ledger.memoryUsed ≤ target then return {}
  set { before with store := before.store.advanceSweep sweepBudget }
  let swept ← evictListed target (before.store.staleSlots m sweepBudget protect)
  let scheduled ← evictScheduled target protect (← get).store.schedule.size
  let after ← get
  return passRecord "linked" m target before after (swept ++ scheduled)

/-! ### Writing -/

/-- What became of a write. -/
structure Written where
  entry : Entry
  replaced : Bool
  /-- The eviction pass it set off. -/
  pass : Pass

/-- Write an entry and restore the bound on the memory. -/
def write (m : Moment) (e : Entry) : Mutation Linked Written := do
  let replaced ← inStore (LinkedStore.insert e)
  if replaced.isSome then modify (·.mark e .updated)
  account (some e) replaced
  let v ← get
  if v.ledger.isOverCapacity then
    let pass ← evict m (some e.key)
    return ⟨e, replaced.isSome, { pass with log := v.oversizeWarning e ++ pass.log }⟩
  else return ⟨e, replaced.isSome, {}⟩

/-- The notices of a write, its log lines aside. -/
def Written.notices (w : Written) : List Notice :=
  Notice.written w.entry w.replaced ++ Notice.evicted w.pass.victims

/-- Cache a tile. -/
def add (m : Moment) (owner : Owner) (p : Position) (payload : Payload) (cost : Option Binary64) :
    Mutation Linked (List Notice) := do
  let e ← newEntry m owner p payload cost
  let w ← write m e
  return w.pass.log.map .log ++ w.notices

/-- Cache several tiles of one owner: all are written before the first is announced. -/
def addBatch (m : Moment) (owner : Owner)
    (tiles : List (Position × Payload × Option Binary64)) : Mutation Linked (List Notice) := do
  let es ← tiles.mapM fun (p, payload, cost) => newEntry m owner p payload cost
  let ws ← es.mapM (write m)
  return (ws.flatMap (·.pass.log)).map .log ++ ws.flatMap Written.notices

/-! ### Looking up -/

/-- The entry at a position, used now if it is there. -/
def find (m : Moment) (k : TileKey) : Mutation Linked (Option Entry) := do
  let found ← inStore (LinkedStore.use k)
  if let some e := found then modify (·.touch e m.now)
  return found

/-- Look up a tile. -/
def get? (m : Moment) (k : TileKey) : Mutation Linked (Option Entry) := do
  let found ← find m k
  modify (·.count (.lookup found.isSome))
  return found

/-- Look up several tiles, then count them. -/
def getAll (m : Moment) (ks : List TileKey) : Mutation Linked (List (Option Entry)) := do
  let found ← ks.mapM (find m)
  found.forM fun f => modify (·.count (.lookup f.isSome))
  return found

/-! ### Removing -/

/-- Give back an entry that was removed. -/
def discharge (e : Entry) : Mutation Linked Entry := do
  account none (some e)
  return e

/-- Remove a tile. -/
def remove (k : TileKey) : Mutation Linked (Option Entry × List Notice) := do
  match ← inStore (LinkedStore.remove k) with
  | none => return (none, [])
  | some e =>
    let e ← discharge e
    return (some e, ← dismiss [e])

/-- Remove all tiles of an image. -/
def removeImage (image : Identity) : Mutation Linked (Nat × List Notice) := do
  let keys := (← get).store.catalogue.keys (.of image)
  let es ← keys.mapM fun k => do
    match ← inStore (LinkedStore.remove k) with
    | none => throw .missingTile
    | some e => discharge e
  let notices ← dismiss es
  return (es.length, notices ++ [.log (.imageRemoved image es.length)])

/-- Remove everything. -/
def flush : Mutation Linked (List Notice) := do
  let v ← get
  let es := v.store.entries
  set { v with store := v.store.clear }
  es.forM fun e => account none (some e)
  let notices ← dismiss es
  return notices ++ [.log (.flushed es.length)]

/-- Run an eviction pass that spares nothing. -/
def relieve (m : Moment) : Mutation Linked (List Notice) := do
  return (← evict m none).notices

end Linked

end TileStore
