import TileStore.Mutation
import TileStore.Report

/-!
# Ledgers

The ledger of a cache: its settings in force, the memory and the number of entries charged, and
its counters. Every entry that comes or goes is charged by `account`. Sums are 64-bit words and
wrap; to give back more than was charged is a fault. What only counts steps is a natural number, here
and in the stores, on the supposition that no cache lives to see `2 ^ 64` of them.
-/

namespace TileStore

/-- The settings in force and the sums. -/
structure Ledger where
  capacity : UInt64
  threshold : Binary64
  /-- Bytes charged. -/
  memoryUsed : UInt64 := 0
  /-- Entries charged. -/
  tileCount : UInt64 := 0
  /-- The sequence number of the next entry: so many were made, fewer than `2 ^ 64`. -/
  nextSeq : Nat := 0
  counters : Counters
  /-- Bytes charged for each entry beside its samples. -/
  overhead : UInt64
  trackRecency : Bool
  /-- How many observers are registered. -/
  observers : Nat

namespace Ledger

/-- The ledger of an empty cache. -/
def new (s : Settings) (observers : Nat) : Ledger where
  capacity := s.capacity
  threshold := s.threshold
  counters := { enabled := s.diagnostics }
  overhead := s.overhead
  trackRecency := s.trackRecency
  observers := observers

/-- The memory an eviction pass goes down to. -/
def target (l : Ledger) : UInt64 := ((Binary64.ofNat l.capacity.toNat).mul l.threshold).toWord

/-- More memory is charged than the capacity allows. -/
def isOverCapacity (l : Ledger) : Bool := l.capacity < l.memoryUsed

/-- The ledger with another capacity. -/
def setCapacity (l : Ledger) (bytes : UInt64) : Except Rejection Ledger := do
  checkCapacity bytes
  return { l with capacity := bytes }

/-- The ledger with another threshold. -/
def setThreshold (l : Ledger) (t : Binary64) : Except Rejection Ledger := do
  checkThreshold t
  return { l with threshold := t }

/-- Count a happening. -/
def count (l : Ledger) (h : Happening) : Ledger := { l with counters := l.counters.count h }

/-- Charge memory. -/
def charge (l : Ledger) (size : UInt64) : Ledger := { l with memoryUsed := l.memoryUsed + size }

/-- Give memory back. -/
def release (size : UInt64) : Mutation Ledger Unit := do
  let l ← get
  set { l with memoryUsed := l.memoryUsed - size }
  if l.memoryUsed < size then throw .memoryUnderflow

/-- Charge what came and give back what went, by their sizes. A replacement is both at once, and
what came is charged first. -/
def account : Option UInt64 → Option UInt64 → Mutation Ledger Unit
  | some came, some went => do
    modify (·.charge came)
    release went
  | some came, none =>
    modify fun l => { l.charge came with tileCount := l.tileCount + 1 }
  | none, some went => do
    release went
    let l ← get
    set { l with tileCount := l.tileCount - 1 }
    if l.tileCount = 0 then throw .countUnderflow
  | none, none => return

/-- Giving back is a fault exactly if it is more than is charged. -/
theorem result_release (size : UInt64) (l : Ledger) :
    (release size).result l =
      (if l.memoryUsed < size then .error .memoryUnderflow else .ok (),
        { l with memoryUsed := l.memoryUsed - size }) := by
  simp only [release, Mutation.result_bind, Mutation.result_get, Mutation.result_set]
  split <;> rfl

theorem result_account_came (size : UInt64) (l : Ledger) :
    (account (some size) none).result l =
      (.ok (), { l.charge size with tileCount := l.tileCount + 1 }) := rfl

theorem result_account_replaced (came went : UInt64) (l : Ledger) :
    (account (some came) (some went)).result l = (release went).result (l.charge came) := rfl

theorem result_account_went {size : UInt64} {l : Ledger} (h : size ≤ l.memoryUsed)
    (hc : l.tileCount ≠ 0) :
    (account none (some size)).result l =
      (.ok (), { l with memoryUsed := l.memoryUsed - size, tileCount := l.tileCount - 1 }) := by
  simp [account, Mutation.result_bind, result_release, UInt64.not_lt.2 h, hc]

/-- The figures for a report. -/
def report (l : Ledger) (layout : Layout) : Report where
  layout := layout
  counters := l.counters
  tileCount := l.tileCount
  memoryUsed := l.memoryUsed
  capacity := l.capacity
  threshold := l.threshold

end Ledger

end TileStore
