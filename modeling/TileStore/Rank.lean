import TileStore.Entry

/-!
# Ranks of victims

Which entry is evicted first. The order is by, in turn: whether the owner is gone, the cost (an
entry without one counts as zero), the last use, and the age. The least rank goes first.
-/

namespace TileStore

/-- An entry's place in the order of victims. -/
structure Rank where
  /-- The owner still exists. -/
  live : Bool
  cost : Binary64
  lastAccess : Nat
  seq : Nat
deriving DecidableEq

namespace Rank

/-- The rank of an entry with a status. -/
def of (m : Moment) (e : Entry) (s : Status) : Rank where
  live := m.alive e.owner
  cost := e.cost.getD .zero
  lastAccess := s.lastAccess
  seq := e.seq

/-- The order of victims. -/
protected def compare (a b : Rank) : Ordering :=
  (compare a.live b.live).then <| (a.cost.totalCompare b.cost).then <|
    (compare a.lastAccess b.lastAccess).then (compare a.seq b.seq)

instance : Ord Rank := ⟨Rank.compare⟩

/-- `a` is evicted before `b`. -/
def before (a b : Rank) : Bool := a.compare b = .lt

end Rank

end TileStore
