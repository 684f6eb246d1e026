import TileStore.Mutation

/-!
# Recency lists

A doubly linked list of values from the most to the least recently used, in an arena of nodes that
link to each other by their number. A value keeps its node until it is removed; nodes without a
value form a chain and are used again, the latest first. `toList` is the sequence a list stands
for.
-/

namespace TileStore

/-- A node of the arena. In the chain of empty nodes `next` leads on. -/
structure Recency.Node (α : Type) where
  value : Option α
  /-- The node used next after this one. -/
  prev : Option Nat
  /-- The node used last before this one. -/
  next : Option Nat

/-- A list of values in the order of their use. -/
structure Recency (α : Type) where
  nodes : Array (Recency.Node α) := #[]
  /-- The most recently used node. -/
  head : Option Nat := none
  /-- The least recently used node. -/
  tail : Option Nat := none
  /-- The first empty node. -/
  free : Option Nat := none
  /-- How many values there are. -/
  size : Nat := 0

namespace Recency

variable {α : Type}

/-! ### Reading -/

/-- The value of a node. -/
def get? (l : Recency α) (i : Nat) : Option α := (l.nodes[i]?).bind (·.value)

/-- How many nodes there are, with and without a value. -/
def slots (l : Recency α) : Nat := l.nodes.size

/-- The nodes with their values from node `i` on, each followed by the one used after it. -/
def follow (l : Recency α) : Nat → Option Nat → List (Nat × α)
  | fuel + 1, some i =>
    match l.nodes[i]? with
    | some ⟨some v, prev, _⟩ => (i, v) :: follow l fuel prev
    | _ => []
  | _, _ => []

/-- The nodes with their values, least recently used first. -/
def toList (l : Recency α) : List (Nat × α) := l.follow l.slots l.tail

/-! ### Links -/

/-- Change a node. -/
def edit (l : Recency α) (i : Nat) (f : Node α → Node α) : Recency α :=
  { l with nodes := l.nodes.modify i f }

/-- Change the node a link leads to, if any. -/
def editAt (l : Recency α) (link : Option Nat) (f : Node α → Node α) : Recency α :=
  match link with
  | some i => l.edit i f
  | none => l

/-- Put an unlinked node in front. -/
def linkFront (l : Recency α) (i : Nat) : Recency α :=
  let head := l.head
  let l := (l.edit i fun n => { n with prev := none, next := head }).editAt head
    fun n => { n with prev := some i }
  { l with head := some i, tail := l.tail.or (some i) }

/-- Take a node out of the sequence. -/
def unlink (l : Recency α) (i : Nat) : Recency α :=
  match l.nodes[i]? with
  | none => l
  | some n =>
    let l := match n.prev with
      | some p => l.edit p fun m => { m with next := n.next }
      | none => { l with head := n.next }
    let l := match n.next with
      | some q => l.edit q fun m => { m with prev := n.prev }
      | none => { l with tail := n.prev }
    l.edit i fun m => { m with prev := none, next := none }

/-! ### Operations -/

/-- Add a value as most recently used; the answer is its node. -/
def push (l : Recency α) (v : α) : Nat × Recency α :=
  let node : Node α := ⟨some v, none, none⟩
  let (i, l') := match l.free with
    | some i =>
      (i, { l with free := (l.nodes[i]?).bind (·.next), nodes := l.nodes.setIfInBounds i node })
    | none => (l.nodes.size, { l with nodes := l.nodes.push node })
  let l'' := l'.linkFront i
  (i, { l'' with size := l''.size + 1 })

/-- Give a node that has a value another one. -/
def assign (l : Recency α) (i : Nat) (v : α) : Recency α :=
  l.edit i fun n => { n with value := n.value.map fun _ => v }

/-- The number that a link to no node has: the greatest word. No arena is large enough to have a
node of this number. -/
def noNode : Nat := UInt64.size - 1

/-- The number of the most recently used node. -/
def front (l : Recency α) : Nat := l.head.getD noNode

/-- Make a node the most recently used. What is in front already stays there, which goes for
`noNode` in a list without values. -/
def moveToFront (i : Nat) : Mutation (Recency α) Unit := do
  let l ← get
  if l.front = i then return
  if i < l.slots then set ((l.unlink i).linkFront i) else throw (.noSlot i l.slots)

/-- Put a value in place of the one in a node and make it the most recently used; the answer is the
value that was there. -/
def replace (i : Nat) (v : α) : Mutation (Recency α) α := do
  let l ← get
  match l.nodes[i]? with
  | none => throw (.noSlot i l.slots)
  | some n =>
    set (l.edit i fun n => { n with value := some v })
    match n.value with
    | none => throw .emptySlot
    | some old =>
      moveToFront i
      return old

/-- Remove a value; the answer is the value. Its node is the next to be used again. -/
def remove (i : Nat) : Mutation (Recency α) α := do
  let l ← get
  match l.nodes[i]? with
  | none => throw (.noSlot i l.slots)
  | some n =>
    match n.value with
    | none => throw .emptySlot
    | some v =>
      let free := l.free
      let l := ((l.edit i fun n => { n with value := none }).unlink i).edit i
        fun n => { n with next := free }
      set { l with free := some i, size := l.size - 1 }
      return v

end Recency

end TileStore
