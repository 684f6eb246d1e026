import TileStore.Rank

/-!
# Shards

A shard is one partition of a sharded store. Its keys stand in a row, and a table leads from each
key to its place in the row and its value. A key that is removed is replaced by the last one. A
sample looks at the next few keys from the hand on, round the row, and moves the hand past them, so
that samples in succession cover the whole row.
-/

namespace TileStore

open Std (TreeMap)

/-- A partition of a store. -/
structure Shard (α : Type) where
  /-- The place and the value of each key. -/
  table : TreeMap TileKey (Nat × α) := {}
  /-- The keys in their order. -/
  row : Array TileKey := #[]
  /-- Where the next sample starts, modulo the length of the row. All samples together take fewer than
  `2 ^ 64` steps, so no word would wrap. -/
  hand : Nat := 0

namespace Shard

variable {α : Type}

/-! ### Reading -/

/-- There is no key. -/
def isEmpty (s : Shard α) : Bool := s.row.isEmpty

/-- The value under a key. -/
def get? (s : Shard α) (k : TileKey) : Option α := s.table[k]?.map (·.2)

/-- Whether a key has a value. -/
def contains (s : Shard α) (k : TileKey) : Bool := s.table.contains k

/-- The values in the order of their keys. -/
def values (s : Shard α) : List α := s.row.toList.filterMap s.get?

/-! ### Writing and removing -/

/-- Put a value under a key: in the place of the one that was there, else at the end. -/
def insert (s : Shard α) (k : TileKey) (v : α) : Shard α :=
  match s.table[k]? with
  | some (i, _) => { s with table := s.table.insert k (i, v) }
  | none => { s with table := s.table.insert k (s.row.size, v), row := s.row.push k }

/-- Remove the value under a key. The last key takes its place. -/
def erase (s : Shard α) (k : TileKey) : Shard α :=
  match s.table[k]?, s.row.back? with
  | some (i, _), some last =>
    { s with
      table := (s.table.modify last fun p => (i, p.2)).erase k
      row := (s.row.setIfInBounds i last).pop }
  | _, _ => { s with table := s.table.erase k }

/-- Remove the value under a key if it is the expected one, for those who found it some time ago. An
eviction pass knows that it is: `ShardedStore.Valid.eraseIfSame_of_pick?`. -/
def eraseIfSame [DecidableEq α] (s : Shard α) (k : TileKey) (expected : α) : Option (Shard α) :=
  if s.get? k = some expected then some (s.erase k) else none

theorem contains_eq_isSome_get? (s : Shard α) (k : TileKey) :
    s.contains k = (s.get? k).isSome := by
  rw [contains, get?, TreeMap.contains_eq_isSome_getElem?, Option.isSome_map]

/-- A key has the value it got last. -/
theorem get?_insert (s : Shard α) (k j : TileKey) (v : α) :
    (s.insert k v).get? j = if j = k then some v else s.get? j := by
  unfold insert get?
  split <;> simp only [TreeMap.getElem?_insert, Std.compare_eq_iff_eq, eq_comm (a := k)] <;>
    split <;> rfl

/-- Removing a key changes the value of no other. -/
theorem get?_erase (s : Shard α) (k j : TileKey) :
    (s.erase k).get? j = if j = k then none else s.get? j := by
  unfold erase get?
  split
  · simp only [TreeMap.getElem?_erase, TreeMap.getElem?_modify, Std.compare_eq_iff_eq]
    by_cases hj : j = k
    · simp [hj]
    · rw [if_neg (Ne.symm hj), if_neg hj]
      split
      · next h => simp [h, Function.comp_def]
      · rfl
  · simp only [TreeMap.getElem?_erase, Std.compare_eq_iff_eq]
    by_cases hj : j = k
    · simp [hj]
    · rw [if_neg (Ne.symm hj), if_neg hj]

/-! ### Sampling -/

/-- The first of two candidates unless the second is evicted before it. -/
def better (best : Option (Rank × α)) (candidate : Rank × α) : Option (Rank × α) :=
  match best with
  | none => some candidate
  | some b => if candidate.1.before b.1 then some candidate else some b

/-- The next keys from the hand on with their values, at most `count` and at most the whole row. -/
def window (s : Shard α) (count : Nat) : List (TileKey × α) :=
  let n := s.row.size
  (List.range (min count n)).filterMap fun i =>
    s.row[(s.hand % n + i) % n]?.bind fun k => (s.get? k).map (k, ·)

/-- The value of the window to be evicted first, the protected one aside, with its rank. -/
def sample (s : Shard α) (rank : α → Rank) (count : Nat) (protect : Option TileKey) :
    Option (Rank × α) :=
  ((s.window count).filter fun p => some p.1 ≠ protect).foldl
    (fun best p => better best (rank p.2, p.2)) none

/-- Move the hand past the window of a sample. -/
def advance (s : Shard α) (count : Nat) : Shard α :=
  { s with hand := s.hand + min count s.row.size }

end Shard

end TileStore
