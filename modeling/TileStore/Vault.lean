import TileStore.Ledger
import TileStore.Notice
import TileStore.Rank

/-!
# Vaults

A vault is what every cache is made of, whatever the layout of its store: a ledger, a register of
the status of each entry it ever made, and the store itself. Entries are known to the register by
their sequence number, so the status of an entry can still be read when it has left the store.
-/

namespace TileStore

/-- The status of each entry ever made, by sequence number. -/
structure Register where
  statuses : Array Status := #[]

namespace Register

/-- The status of the entry with a sequence number. -/
def status (r : Register) (seq : Nat) : Status := r.statuses[seq]?.getD default

/-- Enter the next entry, made now. -/
def enter (r : Register) (now : Nat) : Register := ⟨r.statuses.push ⟨now, .added⟩⟩

/-- Note a use. -/
def touch (r : Register) (seq now : Nat) : Register := ⟨r.statuses.modify seq (·.touch now)⟩

/-- Note what happened. -/
def mark (r : Register) (seq : Nat) (a : Action) : Register :=
  ⟨r.statuses.modify seq (·.mark a)⟩

/-- How many entries were made. -/
def size (r : Register) : Nat := r.statuses.size

@[simp] theorem size_enter (r : Register) (now : Nat) : (r.enter now).size = r.size + 1 := by
  simp [size, enter]

@[simp] theorem size_touch (r : Register) (seq now : Nat) : (r.touch seq now).size = r.size := by
  simp [size, touch]

@[simp] theorem size_mark (r : Register) (seq : Nat) (a : Action) :
    (r.mark seq a).size = r.size := by
  simp [size, mark]

theorem status_enter (r : Register) (now i : Nat) :
    (r.enter now).status i = if i = r.size then ⟨now, .added⟩ else r.status i := by
  unfold status enter size
  rw [Array.getElem?_push]
  split <;> rfl

/-- Noting a use changes no other status. -/
theorem status_touch (r : Register) (seq now i : Nat) (h : seq < r.size) :
    (r.touch seq now).status i = if i = seq then (r.status i).touch now else r.status i := by
  unfold status touch
  rw [Array.getElem?_modify]
  by_cases hi : seq = i
  · subst hi
    simp [Array.getElem?_eq_getElem h]
  · simp [hi, Ne.symm hi]

/-- Noting what happened changes no other status. -/
theorem status_mark (r : Register) (seq i : Nat) (a : Action) (h : seq < r.size) :
    (r.mark seq a).status i = if i = seq then (r.status i).mark a else r.status i := by
  unfold status mark
  rw [Array.getElem?_modify]
  by_cases hi : seq = i
  · subst hi
    simp [Array.getElem?_eq_getElem h]
  · simp [hi, Ne.symm hi]

end Register

/-- A store of kind `σ` with its ledger and its register. -/
structure Vault (σ : Type) where
  ledger : Ledger
  register : Register := {}
  store : σ

namespace Vault

variable {σ : Type}

/-- The status of an entry. -/
def status (v : Vault σ) (e : Entry) : Status := v.register.status e.seq

/-- The rank of an entry. -/
def rank (v : Vault σ) (m : Moment) (e : Entry) : Rank := .of m e (v.status e)

/-- Count a happening. -/
def count (v : Vault σ) (h : Happening) : Vault σ := { v with ledger := v.ledger.count h }

/-- Note a use of an entry. -/
def touch (v : Vault σ) (e : Entry) (now : Nat) : Vault σ :=
  { v with register := v.register.touch e.seq now }

/-- Note what happened to an entry. -/
def mark (v : Vault σ) (e : Entry) (a : Action) : Vault σ :=
  { v with register := v.register.mark e.seq a }

/-- Run a computation of the store. -/
@[inline] def inStore {α : Type} (f : Mutation σ α) : Mutation (Vault σ) α :=
  f.within (·.store) fun s v => { v with store := s }

/-- Charge an entry that came and give back one that went. -/
def account (came went : Option Entry) : Mutation (Vault σ) Unit :=
  (Ledger.account (came.map (·.size)) (went.map (·.size))).within (·.ledger)
    fun l v => { v with ledger := l }

/-- Make the next entry. It is not in the store yet. -/
def newEntry (m : Moment) (owner : Owner) (p : Position) (payload : Payload)
    (cost : Option Binary64) : Mutation (Vault σ) Entry := do
  let v ← get
  let seq := v.ledger.nextSeq
  set { v with
    ledger := { v.ledger with nextSeq := seq + 1 }
    register := v.register.enter m.now }
  return .new owner p payload cost v.ledger.overhead seq

/-- Mark entries that were removed on request; the answer announces them. -/
def dismiss (es : List Entry) : Mutation (Vault σ) (List Notice) := do
  es.forM fun e => modify (·.mark e .removed)
  return Notice.removed es

/-- What an eviction pass did. -/
structure Pass where
  /-- The evicted entries, in order. -/
  victims : List Entry := []
  log : List LogLine := []

/-- The notices of a pass without a write. -/
def Pass.notices (p : Pass) : List Notice := p.log.map .log ++ Notice.evicted p.victims

/-- The record of a pass that went from one state to another. -/
def passRecord (kind : String) (m : Moment) (target : UInt64) (before after : Vault σ)
    (victims : List Entry) : Pass where
  victims := victims
  log := victims.map (fun e => .evicted e (e.isStale m)) ++
    [.passEnded kind victims.length (before.ledger.memoryUsed - after.ledger.memoryUsed) target
      after.ledger.memoryUsed]

/-- The warning about an entry that is larger than the capacity. -/
def oversizeWarning (v : Vault σ) (e : Entry) : List LogLine :=
  if v.ledger.capacity < e.size then [.oversized e.size v.ledger.capacity] else []

end Vault

end TileStore
