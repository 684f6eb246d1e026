import TileStore.Counters
import TileStore.Entry

/-!
# Notices

What a call on a cache does after its changes are made: log lines, counts and events for the
observers, in one list in the order they happen. A call first changes the store and then works off
its notices, so an observer that calls back finds the changes complete.
-/

namespace TileStore

/-! ### Log lines -/

/-- How important a log line is. -/
inductive Level where
  | trace | debug | info | warn
deriving DecidableEq

/-- The name of a level. -/
def Level.name : Level → String
  | .trace => "TRACE"
  | .debug => "DEBUG"
  | .info => "INFO"
  | .warn => "WARN"

/-- A detail of a log line. -/
inductive Detail where
  | number (n : Nat)
  | flag (b : Bool)
  | text (s : String)
  | real (x : Binary64)
deriving DecidableEq

/-- A line of the log. -/
structure LogLine where
  level : Level
  message : String
  details : List (String × Detail)
deriving DecidableEq

namespace LogLine

/-- A tile larger than the whole capacity was written. -/
def oversized (size capacity : UInt64) : LogLine :=
  ⟨.warn, "tile exceeds cache capacity",
    [("size", .number size.toNat), ("capacity", .number capacity.toNat)]⟩

/-- An entry was evicted. -/
def evicted (e : Entry) (stale : Bool) : LogLine :=
  ⟨.trace, "evicted tile",
    [("key", .text e.key.describe), ("size", .number e.size.toNat), ("stale", .flag stale)]⟩

/-- An eviction pass has ended. -/
def passEnded (kind : String) (victims : Nat) (freed target memoryUsed : UInt64) : LogLine :=
  ⟨.debug, kind ++ " tile cache eviction pass",
    [("victims", .number victims), ("freed", .number freed.toNat),
      ("target", .number target.toNat), ("memory_used", .number memoryUsed.toNat)]⟩

/-- The tiles of an image were removed. -/
def imageRemoved (image : Identity) (removed : Nat) : LogLine :=
  ⟨.debug, "removed image tiles", [("image", .text image.text), ("removed", .number removed)]⟩

/-- The cache was emptied. -/
def flushed (removed : Nat) : LogLine :=
  ⟨.debug, "flushed tile cache", [("removed", .number removed)]⟩

/-- The capacity was changed. -/
def capacityChanged (previous capacity : UInt64) : LogLine :=
  ⟨.info, "tile cache memory capacity changed",
    [("previous", .number previous.toNat), ("capacity", .number capacity.toNat)]⟩

/-- The threshold was changed. -/
def thresholdChanged (previous threshold : Binary64) : LogLine :=
  ⟨.info, "tile cache memory threshold changed",
    [("previous", .real previous), ("threshold", .real threshold)]⟩

end LogLine

/-! ### Notices -/

/-- A thing to do after a change. -/
inductive Notice where
  /-- Write a log line. -/
  | log (line : LogLine)
  /-- Count a happening. -/
  | count (h : Happening)
  /-- Tell every observer what happened to an entry. -/
  | tell (e : Entry) (a : Action)
deriving DecidableEq

namespace Notice

/-- After a write. -/
def written (e : Entry) (replaced : Bool) : List Notice :=
  [.count (.write replaced), .tell e (.ofWrite replaced)]

/-- After evictions. -/
def evicted (victims : List Entry) : List Notice :=
  .count (.evictions (UInt64.ofNat victims.length)) :: victims.map (.tell · .evicted)

/-- After removals on request. -/
def removed (es : List Entry) : List Notice :=
  .count (.removals (UInt64.ofNat es.length)) :: es.map (.tell · .removed)

end Notice

end TileStore
