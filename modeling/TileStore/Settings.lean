import TileStore.PowerOfTwo
import TileStore.Rejection

/-!
# Settings

What a cache is built with. `validate` reports the first bad setting; `shardCount` is the number
of partitions a cache of these settings really gets: a power of two that leaves at least 4096
bytes of capacity to each.
-/

namespace TileStore

/-- How a cache is laid out. -/
inductive Layout where
  /-- One store with a recency list and an exact order of victims. -/
  | linked
  /-- Partitions by key, with victims found by sampling. -/
  | sharded
deriving DecidableEq

namespace Layout

/-- The name of a layout. -/
def name : Layout → String
  | .linked => "linked"
  | .sharded => "sharded"

/-- The name as a title. -/
def title : Layout → String
  | .linked => "Linked"
  | .sharded => "Sharded"

/-- The layout with a name. -/
def ofName? : String → Option Layout
  | "linked" => some .linked
  | "sharded" => some .sharded
  | _ => none

@[simp] theorem ofName?_name (l : Layout) : ofName? l.name = some l := by cases l <;> rfl

end Layout

/-- The settings of a cache. -/
structure Settings where
  /-- Bytes the entries may take. -/
  capacity : UInt64 := 64 * 1024 * 1024
  /-- The part of the capacity an eviction pass goes down to: three quarters. -/
  threshold : Binary64 := ⟨0x3fe8000000000000⟩
  layout : Layout := .sharded
  /-- How many partitions are wished for. -/
  shards : UInt64 := 64
  /-- Whether counting and observing are on from the start. -/
  diagnostics : Bool := false
  /-- Whether a hit refreshes the access time of an entry in a sharded cache. -/
  trackRecency : Bool := true
  /-- Bytes charged for each entry beside its samples. -/
  overhead : UInt64 := 256
deriving DecidableEq

/-- Accept a positive capacity. -/
def checkCapacity (bytes : UInt64) : Except Rejection Unit :=
  if bytes = 0 then .error (.capacity bytes) else .ok ()

/-- Accept a threshold between zero and one. -/
def checkThreshold (t : Binary64) : Except Rejection Unit :=
  if t.isFraction then .ok () else .error (.threshold t)

/-- Bytes of capacity below which no partition falls. -/
def leastShardBytes : UInt64 := 4096

/-- So many partitions as are wished for, or as few as leave enough capacity to each, but one at
least. -/
def affordableShards (capacity wished : UInt64) : UInt64 :=
  max 1 (min wished (max 1 (capacity / leastShardBytes)))

/-- How many partitions a capacity supports when so many are wished for. What is affordable is rounded
down to a power of two: it is one, or half the next one. -/
@[irreducible] def supportedShards (capacity wished : UInt64) : UInt64 :=
  let n := affordableShards capacity wished
  if isPowerOfTwo n then n else nextPowerOfTwo n / 2

namespace Settings

/-- Accept good settings, or report the first bad one. -/
def validate (s : Settings) : Except Rejection Unit := do
  checkCapacity s.capacity
  checkThreshold s.threshold
  if s.shards = 0 then throw (.shards s.shards)
  if s.overhead = 0 then throw .overhead

/-- What good settings are. -/
theorem validate_eq_ok_iff (s : Settings) :
    s.validate = .ok () ↔
      s.capacity ≠ 0 ∧ s.threshold.isFraction ∧ s.shards ≠ 0 ∧ s.overhead ≠ 0 := by
  unfold validate checkCapacity checkThreshold
  by_cases hc : s.capacity = 0 <;> cases ht : s.threshold.isFraction <;>
    by_cases hs : s.shards = 0 <;> by_cases ho : s.overhead = 0 <;>
    simp [hc, hs, ho, bind, Except.bind, throw, throwThe, MonadExceptOf.throw, pure, Except.pure]

/-- The number of partitions. -/
def shardCount (s : Settings) : Nat := (supportedShards s.capacity s.shards).toNat

/-- All settings with their names. -/
def describe (s : Settings) : String :=
  "CacheConfig \x7b capacity: " ++ toString s.capacity.toNat ++ ", threshold: "
    ++ s.threshold.text .marked ++ ", variant: " ++ s.layout.title ++ ", shards: "
    ++ toString s.shards.toNat ++ ", diagnostics: " ++ toString s.diagnostics
    ++ ", track_recency: " ++ toString s.trackRecency ++ ", entry_overhead: "
    ++ toString s.overhead.toNat ++ " \x7d"

end Settings

end TileStore
