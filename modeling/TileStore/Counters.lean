/-!
# Diagnostic counters

Counters of what happens in a cache. They move only while counting is enabled, switching it
changes none of them, and they wrap around like the words they are.
-/

namespace TileStore

/-- The counters and their switch. -/
structure Counters where
  enabled : Bool := false
  /-- Look-ups that found a tile. -/
  hits : UInt64 := 0
  /-- Look-ups that found nothing. -/
  misses : UInt64 := 0
  /-- Writes under a key that held nothing. -/
  inserts : UInt64 := 0
  /-- Writes that replaced a tile. -/
  updates : UInt64 := 0
  /-- Entries removed on request. -/
  removals : UInt64 := 0
  /-- Entries removed to make room. -/
  evictions : UInt64 := 0
deriving DecidableEq

/-- Something that is counted. -/
inductive Happening where
  | lookup (hit : Bool)
  | write (replaced : Bool)
  | removals (n : UInt64)
  | evictions (n : UInt64)
deriving DecidableEq

namespace Counters

/-- Start counting. -/
def enable (c : Counters) : Counters := { c with enabled := true }

/-- Stop counting and keep the counts. -/
def disable (c : Counters) : Counters := { c with enabled := false }

/-- Set every counter to zero and leave the switch. -/
def reset (c : Counters) : Counters := { enabled := c.enabled }

/-- Count a happening, if counting is enabled. -/
def count (c : Counters) (h : Happening) : Counters :=
  if c.enabled then
    match h with
    | .lookup true => { c with hits := c.hits + 1 }
    | .lookup false => { c with misses := c.misses + 1 }
    | .write true => { c with updates := c.updates + 1 }
    | .write false => { c with inserts := c.inserts + 1 }
    | .removals n => { c with removals := c.removals + n }
    | .evictions n => { c with evictions := c.evictions + n }
  else c

theorem count_of_disabled {c : Counters} (h : c.enabled = false) (x : Happening) :
    c.count x = c := by simp [count, h]

@[simp] theorem enabled_count (c : Counters) (x : Happening) :
    (c.count x).enabled = c.enabled := by
  unfold count
  split
  · split <;> rfl
  · rfl

end Counters

end TileStore
