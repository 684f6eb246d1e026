import TileStore.Catalogue
import TileStore.Entry
import TileStore.Recency

/-!
# The linked store

A store that knows the exact order of its victims. Entries lie in the slots of a recency list; a
table leads from each key to its slot, a sorted schedule from each turn to its slot, and a
catalogue from each image to its keys. A turn is a cost and the tick of the last use: the cheapest
entry goes first, and of equally cheap ones the one used longest ago.

Owners disappear without a word, so entries whose owner is gone are looked for by a sweep over the
slots, which goes on where it stopped.
-/

namespace TileStore

open Std (LawfulEqOrd TransCmp TransOrd TreeMap)

/-- A place in the order of victims. Costs are never negative, so their patterns are ordered as they
are. -/
structure Turn where
  /-- The pattern of the cost, of zero if there is none. -/
  cost : UInt64
  /-- The count of writes and hits at the last one. -/
  tick : Nat
deriving DecidableEq

namespace Turn

instance : Ord Turn := ⟨orderBy (·.cost) (·.tick)⟩

instance : TransOrd Turn := inferInstanceAs (TransCmp (orderBy _ _))

instance : LawfulEqOrd Turn :=
  lawfulEqCmp_orderBy fun ⟨_, _⟩ ⟨_, _⟩ hc ht => by cases hc; cases ht; rfl

/-- The turn of an entry used at a tick. -/
def of (e : Entry) (tick : Nat) : Turn := ⟨(e.cost.getD .zero).bits, tick⟩

end Turn

/-- Slots by their turn, the first victim in front. -/
abbrev Schedule := TreeMap Turn Nat

/-- The first slot that passes a test. Nothing after it is looked at. -/
def Schedule.find? (s : Schedule) (p : Nat → Bool) : Option Nat :=
  match s.foldlM (fun _ _ slot => if p slot then Except.error slot else .ok ()) () with
  | .error slot => some slot
  | .ok () => none

theorem Schedule.find?_eq (s : Schedule) (p : Nat → Bool) :
    s.find? p = (s.toList.map (·.2)).find? p := by
  rw [find?, TreeMap.foldlM_eq_foldlM_toList]
  induction s.toList with
  | nil => rfl
  | cons q qs ih =>
    rw [List.foldlM_cons, List.map_cons, List.find?_cons]
    cases p q.2
    · exact ih
    · rfl

/-- An entry with its turn. -/
structure Resident where
  entry : Entry
  turn : Turn
deriving DecidableEq

/-- The linked store. -/
structure LinkedStore where
  /-- The slot of each key. -/
  slots : TreeMap TileKey Nat := {}
  recency : Recency Resident := {}
  schedule : Schedule := {}
  catalogue : Catalogue := {}
  /-- How many writes and hits there were, fewer than `2 ^ 64`. -/
  tick : Nat := 0
  /-- The slot the next sweep starts at. -/
  sweep : Nat := 0

namespace LinkedStore

/-! ### Reading -/

/-- The entry in a slot. -/
def entryAt? (s : LinkedStore) (slot : Nat) : Option Entry := (s.recency.get? slot).map (·.entry)

/-- The entry under a key. -/
def get? (s : LinkedStore) (k : TileKey) : Option Entry := s.slots[k]?.bind s.entryAt?

/-- All entries, least recently used first. -/
def entries (s : LinkedStore) : List Entry := s.recency.toList.map (·.2.entry)

/-- The entries of an image. -/
def entriesOf (s : LinkedStore) (image : ImageKey) : List Entry :=
  (s.catalogue.keys image).filterMap s.get?

/-! ### Writing and using -/

/-- Run a computation of the recency list. -/
@[inline] def inRecency {α : Type} (f : Mutation (Recency Resident) α) : Mutation LinkedStore α :=
  f.within (·.recency) fun l s => { s with recency := l }

/-- Give a slot another turn in the schedule. -/
def reschedule (s : LinkedStore) (old new : Turn) (slot : Nat) : LinkedStore :=
  { s with schedule := (s.schedule.erase old).insert new slot }

/-- Write an entry, which becomes the most recently used; the answer is the one it replaced. -/
def insert (e : Entry) : Mutation LinkedStore (Option Entry) := do
  modify fun s => { s with tick := s.tick + 1 }
  let s ← get
  let turn := Turn.of e s.tick
  match s.slots[e.key]? with
  | some slot =>
    let old ← inRecency (Recency.replace slot ⟨e, turn⟩)
    modify (·.reschedule old.turn turn slot)
    return some old.entry
  | none =>
    let (slot, recency) := s.recency.push ⟨e, turn⟩
    set { s with
      recency := recency
      catalogue := s.catalogue.insert e.image e.key
      schedule := s.schedule.insert turn slot
      slots := s.slots.insert e.key slot }
    return none

/-- Use the entry under a key, which becomes the most recently used. -/
def use (k : TileKey) : Mutation LinkedStore (Option Entry) := do
  match (← get).slots[k]? with
  | none => return none
  | some slot =>
    inRecency (Recency.moveToFront slot)
    modify fun s => { s with tick := s.tick + 1 }
    let s ← get
    match s.recency.get? slot with
    | none => throw .danglingSlot
    | some r =>
      let turn := { r.turn with tick := s.tick }
      set ({ s with recency := s.recency.assign slot { r with turn } }.reschedule r.turn turn slot)
      return some r.entry

/-! ### Removing -/

/-- Remove the entry in a slot. -/
def removeSlot (slot : Nat) : Mutation LinkedStore Entry := do
  let r ← inRecency (Recency.remove slot)
  let s ← get
  let scheduled := s.schedule[r.turn]?
  let known := s.slots[r.entry.key]?
  let listed := s.catalogue.contains r.entry.image r.entry.key
  set { s with
    schedule := s.schedule.erase r.turn
    slots := s.slots.erase r.entry.key
    catalogue := s.catalogue.erase r.entry.image r.entry.key }
  if scheduled ≠ some slot then throw .orderMismatch
  if known ≠ some slot then throw .slotMismatch
  if !listed then throw .uncatalogued
  return r.entry

/-- Remove the entry under a key. -/
def remove (k : TileKey) : Mutation LinkedStore (Option Entry) := do
  match (← get).slots[k]? with
  | none => return none
  | some slot => return some (← removeSlot slot)

/-- Remove everything. The count of uses goes on. -/
def clear (s : LinkedStore) : LinkedStore := { tick := s.tick }

/-! ### Victims -/

/-- Whether the entry in a slot is not the protected one. -/
def unprotected (s : LinkedStore) (protect : Option TileKey) (slot : Nat) : Bool :=
  match s.entryAt? slot with
  | some e => some e.key ≠ protect
  | none => false

/-- The slot of the first victim of the schedule. -/
def cheapest? (s : LinkedStore) (protect : Option TileKey) : Option Nat :=
  s.schedule.find? (s.unprotected protect)

/-- The slots the next sweep looks at. -/
def sweepWindow (s : LinkedStore) (budget : Nat) : List Nat :=
  (List.range (min budget s.recency.slots)).map fun i => (s.sweep + i) % s.recency.slots

/-- The slots of the next sweep whose owner is gone. -/
def staleSlots (s : LinkedStore) (m : Moment) (budget : Nat) (protect : Option TileKey) :
    List Nat :=
  (s.sweepWindow budget).filter fun slot =>
    s.unprotected protect slot && (s.entryAt? slot).any (·.isStale m)

/-- The store after a sweep. -/
def advanceSweep (s : LinkedStore) (budget : Nat) : LinkedStore :=
  match (s.sweepWindow budget).getLast? with
  | some slot => { s with sweep := slot + 1 }
  | none => s

end LinkedStore

end TileStore
