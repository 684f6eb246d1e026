import TileStore.Key
import TileStore.Payload
import TileStore.Binary64.Decimal

/-!
# Entries

An entry is a tile in a cache with its bookkeeping, and never changes. What changes, the time of
the last use and what last happened to the tile, is its status.
-/

namespace TileStore

/-! ### Actions -/

/-- What happens to a tile. -/
inductive Action where
  /-- Written under a key that held nothing. -/
  | added
  /-- Written over another tile. -/
  | updated
  /-- Removed on request. -/
  | removed
  /-- Removed to make room. -/
  | evicted
deriving DecidableEq

namespace Action

/-- The name of an action. -/
def name : Action → String
  | .added => "Added"
  | .updated => "Updated"
  | .removed => "Removed"
  | .evicted => "Evicted"

/-- The number of an action. -/
def number : Action → Nat
  | .added => 0
  | .updated => 1
  | .removed => 2
  | .evicted => 3

/-- All actions, in the order of their numbers. -/
def all : List Action := [.added, .updated, .removed, .evicted]

/-- The action with a number. -/
def ofNumber? (n : Nat) : Option Action := all.find? (·.number = n)

/-- The action with a name. -/
def ofName? (s : String) : Option Action := all.find? (·.name = s)

/-- A write, by whether it replaced a tile. -/
def ofWrite (replaced : Bool) : Action := if replaced then .updated else .added

@[simp] theorem ofNumber?_number (a : Action) : ofNumber? a.number = some a := by cases a <;> rfl

/-- Only the numbers of actions are read. -/
theorem ofNumber?_eq_some_iff (n : Nat) (a : Action) : ofNumber? n = some a ↔ n = a.number :=
  ⟨fun h => by simpa [eq_comm] using List.find?_some h, fun h => h ▸ ofNumber?_number a⟩

@[simp] theorem ofName?_name (a : Action) : ofName? a.name = some a := by cases a <;> rfl

end Action

/-! ### Owners and moments -/

/-- The image object that owns a tile. Several objects may share an identity. -/
structure Owner where
  /-- Which object it is. -/
  number : Nat
  identity : Identity
deriving DecidableEq

/-- The world outside the cache while a call runs. It stands still: the clock is read once for each
call, also where a cache would read it for each entry of a batch, or for each tile that a sharded cache
looks up of several. -/
structure Moment where
  /-- Milliseconds since the cache was built. -/
  now : Nat
  /-- Whether the owner with a number still exists. -/
  alive : Nat → Bool

/-! ### Entries -/

/-- The cost an entry keeps: none for a number that cannot be ordered, and zero for one that is
not positive. -/
def keptCost (cost : Option Binary64) : Option Binary64 :=
  (cost.filter (!·.isNaN)).map fun c => if c.isPositive then c else .zero

/-- A tile as it was cached. Nothing of it ever changes. -/
structure Entry where
  key : TileKey
  image : ImageKey
  position : Position
  /-- The number of the owner, which the entry does not keep alive. -/
  owner : Nat
  payload : Payload
  /-- What it costs to make the tile again. -/
  cost : Option Binary64
  /-- Bytes charged for the tile. -/
  size : UInt64
  /-- How many entries were made before. -/
  seq : Nat
deriving DecidableEq

/-- What changes about an entry. -/
structure Status where
  /-- When the tile was last used. Milliseconds are not a word here: fewer than `2 ^ 64` of them are
  supposed to pass. -/
  lastAccess : Nat := 0
  /-- What last happened to the tile. -/
  action : Action := .added
deriving DecidableEq, Inhabited

namespace Entry

/-- A new entry. -/
def new (owner : Owner) (p : Position) (payload : Payload) (cost : Option Binary64)
    (overhead : UInt64) (seq : Nat) : Entry where
  key := .of owner.identity p
  image := .of owner.identity
  position := p
  owner := owner.number
  payload := payload
  cost := keptCost cost
  size := payload.footprint + overhead
  seq := seq

/-- The owner is gone. -/
def isStale (e : Entry) (m : Moment) : Bool := !m.alive e.owner

/-- All that is known of an entry. -/
def describe (e : Entry) (s : Status) (stale : Bool) : String :=
  let cost := match e.cost with
    | none => "None"
    | some c => "Some(" ++ c.text .marked ++ ")"
  "TileEntry \x7b key: " ++ e.key.describe ++ ", coord: " ++ e.position.describe
    ++ ", size: " ++ toString e.size.toNat ++ ", cost: " ++ cost
    ++ ", seq: " ++ toString e.seq ++ ", last_access: " ++ toString s.lastAccess
    ++ ", action: " ++ s.action.name ++ ", stale: " ++ toString stale ++ " \x7d"

end Entry

namespace Status

/-- Note a use. The time never goes back. -/
def touch (s : Status) (now : Nat) : Status := { s with lastAccess := max s.lastAccess now }

/-- Note what happened. -/
def mark (s : Status) (a : Action) : Status := { s with action := a }

@[simp] theorem action_touch (s : Status) (now : Nat) : (s.touch now).action = s.action := rfl

@[simp] theorem lastAccess_mark (s : Status) (a : Action) :
    (s.mark a).lastAccess = s.lastAccess := rfl

theorem le_lastAccess_touch (s : Status) (now : Nat) :
    s.lastAccess ≤ (s.touch now).lastAccess := Nat.le_max_left _ _

end Status

/-- An entry with its status and whether its owner is gone, as seen at one moment. -/
structure Sighting where
  entry : Entry
  status : Status
  stale : Bool
deriving DecidableEq

end TileStore
