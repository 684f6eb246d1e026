import TileStore.Counters
import TileStore.Settings

/-!
# Reports

A report is a cache's counters and settings at one moment, with the ratios computed from them.
-/

namespace TileStore

/-- The figures of a cache at one moment. -/
structure Report where
  layout : Layout
  counters : Counters
  /-- Cached tiles. -/
  tileCount : UInt64
  /-- Bytes charged for them. -/
  memoryUsed : UInt64
  capacity : UInt64
  threshold : Binary64
deriving DecidableEq

namespace Report

/-- Look-ups. -/
def totalAccesses (r : Report) : UInt64 := r.counters.hits + r.counters.misses

/-- Writes. -/
def totalWrites (r : Report) : UInt64 := r.counters.inserts + r.counters.updates

/-- The quotient of two words as numbers; zero if the second is zero. -/
def ratio (part whole : UInt64) : Binary64 :=
  if whole = 0 then .zero else (Binary64.ofNat part.toNat).div (.ofNat whole.toNat)

/-- The part of the look-ups that found a tile. -/
def hitRate (r : Report) : Binary64 := ratio r.counters.hits r.totalAccesses

/-- The part of the capacity in use. -/
def utilization (r : Report) : Binary64 := ratio r.memoryUsed r.capacity

end Report

end TileStore
