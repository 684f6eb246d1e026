import TileStore.Linked.Cache
import TileStore.Sharded.Cache

/-!
# Caches

A cache is a vault of either layout. Everything that can be asked of it is a `Request`; `perform`
answers one at a given moment and says what is to be done afterwards. Requests name owners and
images in whatever way their sender does; `Request.resolve` turns those names into objects.
-/

namespace TileStore

/-- A cache of tiles. -/
inductive Cache where
  | linked (c : Linked)
  | sharded (c : Sharded)

namespace Cache

/-! ### Building and reading -/

/-- An empty cache. -/
def new (s : Settings) (observers : Nat) : Cache :=
  match s.layout with
  | .linked => .linked (.new s observers)
  | .sharded => .sharded (.new s observers)

/-- An empty cache, if the settings are good. -/
def build (s : Settings) (observers : Nat) : Except Rejection Cache := do
  s.validate
  return new s observers

/-- The layout of the store. -/
def layout : Cache → Layout
  | linked _ => .linked
  | sharded _ => .sharded

/-- The ledger. -/
def ledger : Cache → Ledger
  | linked c => c.ledger
  | sharded c => c.ledger

/-- The number of partitions of a sharded cache. -/
def shardCount? : Cache → Option Nat
  | linked _ => none
  | sharded c => some c.store.shards.size

/-- All entries: of a linked cache least recently used first, of a sharded one by partition. -/
def entries : Cache → List Entry
  | linked c => c.store.entries
  | sharded c => c.store.entries

/-- The entry under a key. -/
def get? (c : Cache) (k : TileKey) : Option Entry :=
  match c with
  | linked c => c.store.get? k
  | sharded c => c.store.get? k

/-- The entries of an image. -/
def entriesOf (c : Cache) (image : ImageKey) : List Entry :=
  match c with
  | linked c => c.store.entriesOf image
  | sharded c => c.store.entriesOf image

/-- The status of an entry, cached or not. -/
def status (c : Cache) (e : Entry) : Status :=
  match c with
  | linked c => c.status e
  | sharded c => c.status e

/-- An entry as it is now. -/
def sight (c : Cache) (m : Moment) (e : Entry) : Sighting := ⟨e, c.status e, e.isStale m⟩

/-- The figures now. -/
def report (c : Cache) : Report := c.ledger.report c.layout

/-! ### Changing -/

/-- Change the ledger. -/
def editLedger (c : Cache) (f : Ledger → Ledger) : Cache :=
  match c with
  | linked c => .linked { c with ledger := f c.ledger }
  | sharded c => .sharded { c with ledger := f c.ledger }

/-- Count a happening. -/
def count (c : Cache) (h : Happening) : Cache := c.editLedger (·.count h)

/-- Run the computation for the layout at hand. -/
@[inline] def byLayout {α : Type} (onLinked : Mutation Linked α) (onSharded : Mutation Sharded α) :
    Mutation Cache α :=
  ExceptT.mk fun
    | linked c => let (outcome, c) := onLinked.result c; (outcome, linked c)
    | sharded c => let (outcome, c) := onSharded.result c; (outcome, sharded c)

/-- Cache a tile. -/
def add (m : Moment) (owner : Owner) (p : Position) (payload : Payload) (cost : Option Binary64) :
    Mutation Cache (List Notice) :=
  byLayout (Linked.add m owner p payload cost) (Sharded.add m owner p payload cost)

/-- Accept a list that is as long as it should be. -/
def checkLength (what : String) (expected actual : Nat) : Except Rejection Unit :=
  if expected = actual then .ok () else .error (.lengths what expected actual)

/-- One tile for each position, with its cost. -/
def pairUp (points : List Position) (payloads : List Payload) (costs : Option (List Binary64)) :
    Except Rejection (List (Position × Payload × Option Binary64)) := do
  checkLength "tiles" points.length payloads.length
  match costs with
  | none => return points.zip (payloads.map (·, none))
  | some costs =>
    checkLength "costs" points.length costs.length
    return points.zip (payloads.zip (costs.map some))

/-- Cache several tiles of one owner, one for each position. -/
def addBatch (m : Moment) (owner : Owner) (points : List Position) (payloads : List Payload)
    (costs : Option (List Binary64)) : Mutation Cache (Except Rejection (List Notice)) :=
  match pairUp points payloads costs with
  | .error r => return .error r
  | .ok tiles => .ok <$> byLayout (Linked.addBatch m owner tiles) (Sharded.addBatch m owner tiles)

/-- Look up a tile. -/
def lookup (m : Moment) (image : Identity) (p : Position) : Mutation Cache (Option Entry) :=
  byLayout (Linked.get? m (.of image p)) (Sharded.get? m (.of image p))

/-- Look up several tiles of one image. -/
def lookupAll (m : Moment) (image : Identity) (points : List Position) :
    Mutation Cache (List (Option Entry)) :=
  let keys := points.map (TileKey.of image)
  byLayout (Linked.getAll m keys) (Sharded.getAll m keys)

/-- Remove a tile. -/
def remove (image : Identity) (p : Position) : Mutation Cache (Option Entry × List Notice) :=
  byLayout (Linked.remove (.of image p)) (Sharded.remove (.of image p) (.of image))

/-- Remove all tiles of an image; the answer is how many there were. -/
def removeImage (image : Identity) : Mutation Cache (Nat × List Notice) :=
  byLayout (Linked.removeImage image) (Sharded.removeImage image)

/-- Remove everything. -/
def flush : Mutation Cache (List Notice) := byLayout Linked.flush Sharded.flush

/-- Run an eviction pass that spares nothing. -/
def relieve (m : Moment) : Mutation Cache (List Notice) :=
  byLayout (Linked.relieve m) (Sharded.relieve m)

/-- Set the capacity and go down to it at once. -/
def setCapacity (m : Moment) (bytes : UInt64) :
    Mutation Cache (Except Rejection (List Notice)) := do
  let c ← get
  match c.ledger.setCapacity bytes with
  | .error r => return .error r
  | .ok l =>
    set (c.editLedger fun _ => l)
    let changed := Notice.log (.capacityChanged c.ledger.capacity bytes)
    if l.isOverCapacity then return .ok (changed :: (← relieve m)) else return .ok [changed]

/-- Set the threshold. Nothing is evicted. -/
def setThreshold (t : Binary64) : Mutation Cache (Except Rejection (List Notice)) := do
  let c ← get
  match c.ledger.setThreshold t with
  | .error r => return .error r
  | .ok l =>
    set (c.editLedger fun _ => l)
    return .ok [.log (.thresholdChanged c.ledger.threshold t)]

end Cache

/-! ### Requests -/

/-- A request to a cache. Owners are named by `ο` and images by `ι`. -/
inductive Request (ο ι : Type) where
  | add (owner : ο) (p : Position) (payload : Payload) (cost : Option Binary64)
  | addBatch (owner : ο) (points : List Position) (payloads : List Payload)
      (costs : Option (List Binary64))
  /-- Look up a tile. -/
  | get (image : ι) (p : Position)
  | getAll (image : ι) (points : List Position)
  /-- The tiles of an image, without counting as a look-up. -/
  | tilesOf (image : ι)
  | contains (image : ι) (p : Position)
  | remove (image : ι) (p : Position)
  | removeImage (image : ι)
  | flush
  /-- Evict down to the target. -/
  | relieve
  | setCapacity (bytes : UInt64)
  | setThreshold (t : Binary64)
  | enable
  | disable
  | reset
  | report
  /-- All entries. -/
  | list

/-- An answer. -/
inductive Reply where
  | done
  | accepted
  | rejected (r : Rejection)
  | flag (b : Bool)
  | count (n : Nat)
  | text (s : String)
  | entry (found : Option Sighting)
  | entries (found : List (Option Sighting))
  | report (r : Report) (shards : Option Nat)

namespace Request

/-- The request with owners and images looked up; none if one is unknown. -/
def resolve {ο ο' ι ι' : Type} (owner? : ο → Option ο') (image? : ι → Option ι') :
    Request ο ι → Option (Request ο' ι')
  | add o p payload cost => (owner? o).map (add · p payload cost)
  | addBatch o points payloads costs => (owner? o).map (addBatch · points payloads costs)
  | get i p => (image? i).map (get · p)
  | getAll i points => (image? i).map (getAll · points)
  | tilesOf i => (image? i).map tilesOf
  | contains i p => (image? i).map (contains · p)
  | remove i p => (image? i).map (remove · p)
  | removeImage i => (image? i).map removeImage
  | flush => some flush
  | relieve => some relieve
  | setCapacity bytes => some (setCapacity bytes)
  | setThreshold t => some (setThreshold t)
  | enable => some enable
  | disable => some disable
  | reset => some reset
  | report => some report
  | list => some list

/-- The owner of the tiles a request caches. -/
def owner? {ο ι : Type} : Request ο ι → Option ο
  | add o _ _ _ => some o
  | addBatch o _ _ _ => some o
  | _ => none

/-- Change the counters. -/
def editCounters (f : Counters → Counters) : Mutation Cache (Reply × List Notice) := do
  modify (·.editLedger fun l => { l with counters := f l.counters })
  return (.done, [])

/-- The answer to a request that may be rejected. -/
def answer : Except Rejection (List Notice) → Reply × List Notice
  | .error r => (.rejected r, [])
  | .ok notices => (.accepted, notices)

/-- Answer a request. The notices are what remains to be done. -/
def perform (m : Moment) : Request Owner Identity → Mutation Cache (Reply × List Notice)
  | add owner p payload cost => return (.done, ← Cache.add m owner p payload cost)
  | addBatch owner points payloads costs =>
    answer <$> Cache.addBatch m owner points payloads costs
  | get image p => do
    let found ← Cache.lookup m image p
    let c ← MonadState.get
    return (.entry (found.map (c.sight m)), [])
  | getAll image points => do
    let found ← Cache.lookupAll m image points
    let c ← MonadState.get
    return (.entries (found.map (·.map (c.sight m))), [])
  | tilesOf image => do
    let c ← MonadState.get
    return (.entries ((c.entriesOf (.of image)).map (some <| c.sight m ·)), [])
  | contains image p => do
    let c ← MonadState.get
    return (.flag (c.get? (.of image p)).isSome, [])
  | remove image p => do
    let (found, notices) ← Cache.remove image p
    let c ← MonadState.get
    return (.entry (found.map (c.sight m)), notices)
  | removeImage image => do
    let (n, notices) ← Cache.removeImage image
    return (.count n, notices)
  | flush => return (.done, ← Cache.flush)
  | relieve => return (.done, ← Cache.relieve m)
  | setCapacity bytes => answer <$> Cache.setCapacity m bytes
  | setThreshold t => answer <$> Cache.setThreshold t
  | enable => editCounters (·.enable)
  | disable => editCounters (·.disable)
  | reset => editCounters (·.reset)
  | report => do
    let c ← MonadState.get
    return (.report c.report c.shardCount?, [])
  | list => do
    let c ← MonadState.get
    return (.entries (c.entries.map (some <| c.sight m ·)), [])

end Request

end TileStore
