/-!
# Faults and mutations

A fault is the end of a run: an invariant of the store turned out to be broken. A mutation is a
computation on a state that may end in a fault; it says what state was reached in either case.
-/

namespace TileStore

/-- Which invariant turned out to be broken. -/
inductive Fault where
  /-- More memory was given back than was in use. -/
  | memoryUnderflow
  /-- An entry was given back while none was counted. -/
  | countUnderflow
  /-- A recency slot that should hold a value is empty. -/
  | emptySlot
  /-- A recency slot beyond the end of the arena. -/
  | noSlot (slot slots : Nat)
  /-- A key leads to an empty recency slot. -/
  | danglingSlot
  /-- The eviction order and the recency list disagree. -/
  | orderMismatch
  /-- The key map and the recency list disagree. -/
  | slotMismatch
  /-- A cached tile is missing from the catalogue of its image. -/
  | uncatalogued
  /-- The catalogue names a tile that is not cached. -/
  | missingTile
  /-- A digest that only passes words through was given bytes. -/
  | bytesRefused
deriving DecidableEq

namespace Fault

/-- The wording of a fault. -/
def message : Fault → String
  | .memoryUnderflow => "tile cache memory accounting underflow"
  | .countUnderflow => "tile cache tile count underflow"
  | .emptySlot => "recency slot is occupied"
  | .noSlot slot slots =>
    "index out of bounds: the len is " ++ toString slots ++ " but the index is " ++ toString slot
  | .danglingSlot => "slot map points at an empty recency slot"
  | .orderMismatch => "eviction index out of sync with recency list"
  | .slotMismatch => "slot map out of sync with recency list"
  | .uncatalogued => "image index out of sync with tile store"
  | .missingTile => "image index references a missing tile"
  | .bytesRefused => "PassthroughHasher only works with u64 hash values"

end Fault

/-- A computation on a state `σ` that may end in a fault; the state it reached is kept either
way. -/
abbrev Mutation (σ : Type) := ExceptT Fault (StateM σ)

namespace Mutation

/-- The outcome and the state reached. -/
@[inline] def result {σ α : Type} (m : Mutation σ α) (s : σ) : Except Fault α × σ := m.run.run s

/-- Run on one part of a larger state. -/
@[inline] def within {σ τ α : Type} (part : σ → τ) (put : τ → σ → σ) (m : Mutation τ α) :
    Mutation σ α :=
  ExceptT.mk fun s =>
    let (outcome, t) := m.result (part s)
    (outcome, put t s)

/-! ### What a mutation comes to -/

@[simp] theorem result_pure {σ α : Type} (a : α) (s : σ) :
    (pure a : Mutation σ α).result s = (.ok a, s) := rfl

@[simp] theorem result_throw {σ α : Type} (f : Fault) (s : σ) :
    (throw f : Mutation σ α).result s = (.error f, s) := rfl

@[simp] theorem result_get {σ : Type} (s : σ) : (get : Mutation σ σ).result s = (.ok s, s) := rfl

@[simp] theorem result_set {σ : Type} (t s : σ) :
    (set t : Mutation σ PUnit).result s = (.ok ⟨⟩, t) := rfl

@[simp] theorem result_modify {σ : Type} (f : σ → σ) (s : σ) :
    (modify f : Mutation σ PUnit).result s = (.ok ⟨⟩, f s) := rfl

/-- A mutation that goes on with another: a fault in the first is the end of both. -/
theorem result_bind {σ α β : Type} (m : Mutation σ α) (f : α → Mutation σ β) (s : σ) :
    (m >>= f).result s =
      match m.result s with
      | (.ok a, t) => (f a).result t
      | (.error e, t) => (.error e, t) := by
  change (ExceptT.bind m f) s = _
  simp only [ExceptT.bind, ExceptT.mk, bind, StateT.bind, result, ExceptT.run, StateT.run]
  rcases m s with ⟨_ | _, _⟩ <;> rfl

@[simp] theorem result_map {σ α β : Type} (g : α → β) (m : Mutation σ α) (s : σ) :
    (g <$> m).result s = ((m.result s).1.map g, (m.result s).2) := by
  rw [← bind_pure_comp, result_bind]
  rcases m.result s with ⟨_ | _, _⟩ <;> rfl

@[simp] theorem result_within {σ τ α : Type} (part : σ → τ) (put : τ → σ → σ)
    (m : Mutation τ α) (s : σ) :
    (m.within part put).result s =
      ((m.result (part s)).1, put (m.result (part s)).2 s) := rfl

end Mutation

end TileStore
