import TileStore.Proofs.Dates
import TileStore.Proofs.Linked.Clock
import TileStore.Proofs.Watched

/-!
# Entries made ahead of time

A batch makes all of its entries before it writes the first one. When each is made just before it is
written, the writes in between find the number of the next entry smaller and the register shorter. They
go by neither, and what they note stands further down in the register: a write from a vault that is ahead
comes to the same and leaves a vault that is ahead (`Linked.writesAhead`, `Sharded.writesAhead`). So it
does not matter when the entries of a batch are made: `Vault.WritesAhead.alike`.
-/

namespace TileStore

variable {m : Moment} {e : Entry} {seq n : Nat}

/-! ### Registers -/

namespace Register

variable {r : Register} {es : List Entry} {now : Nat}

/-- Enter so many entries, all made now. -/
def enters (r : Register) (now : Nat) : Nat → Register
  | 0 => r
  | n + 1 => (r.enter now).enters now n

@[simp] theorem size_enters (r : Register) (now n : Nat) : (r.enters now n).size = r.size + n := by
  induction n generalizing r with
  | zero => rfl
  | succ n ih => rw [enters, ih, size_enter, Nat.add_assoc, Nat.add_comm 1]

/-- What was entered before can be marked before or after. -/
theorem mark_enter (h : seq < r.size) (now : Nat) (a : Action) :
    (r.enter now).mark seq a = (r.mark seq a).enter now := by
  have hne : seq ≠ r.statuses.size := Nat.ne_of_lt h
  refine congrArg Register.mk (Array.ext_getElem? fun i => ?_)
  unfold enter mark
  rw [Array.getElem?_modify, Array.getElem?_push, Array.getElem?_push, Array.getElem?_modify,
    Array.size_modify]
  split <;> grind

theorem mark_enters (h : seq < r.size) (now n : Nat) (a : Action) :
    (r.enters now n).mark seq a = (r.mark seq a).enters now n := by
  induction n generalizing r with
  | zero => rfl
  | succ n ih =>
    rw [enters, ih (by rw [size_enter]; omega), mark_enter h]
    rfl

theorem markAll_enters (h : ∀ e ∈ es, e.seq < r.size) (now n : Nat) (a : Action) :
    (r.enters now n).markAll a es = (r.markAll a es).enters now n := by
  induction es generalizing r with
  | nil => rfl
  | cons e es ih =>
    have hes : ∀ f ∈ es, f.seq < (r.mark e.seq a).size := fun f hf => by
      rw [size_mark]
      exact h f (List.mem_cons_of_mem e hf)
    rw [markAll, List.foldl_cons, mark_enters (h e List.mem_cons_self)]
    exact ih hes

end Register

/-! ### Vaults -/

/-- The ledger with so many entries more that were made. -/
def Ledger.ahead (l : Ledger) (n : Nat) : Ledger := { l with nextSeq := l.nextSeq + n }

theorem Ledger.unread_ahead (n : Nat) : Unread (ahead · n) :=
  ⟨fun _ _ _ => rfl, fun _ => rfl, fun _ => rfl⟩

namespace Vault

variable {σ α : Type} {v v' : Vault σ}

/-- The vault with so many entries more that were made now. -/
def ahead (v : Vault σ) (now n : Nat) : Vault σ :=
  { v with ledger := v.ledger.ahead n, register := v.register.enters now n }

theorem ahead_ahead (v : Vault σ) (now n : Nat) : (v.ahead now 1).ahead now n = v.ahead now (n + 1) := by
  have hnext : v.ledger.nextSeq + 1 + n = v.ledger.nextSeq + (n + 1) := by omega
  simp only [ahead, Ledger.ahead, hnext]
  rfl

/-- Making entries takes a vault ahead. -/
theorem newEntries_ahead (m : Moment) (owner : Owner)
    (tiles : List (Position × Payload × Option Binary64)) (v : Vault σ) :
    (tiles.mapM fun (p, payload, cost) => newEntry m owner p payload cost).Meets v True fun es v' =>
      es = madeFrom owner v.ledger.overhead v.ledger.nextSeq tiles ∧
        v' = v.ahead m.now tiles.length := by
  induction tiles generalizing v with
  | nil => exact ⟨rfl, rfl⟩
  | cons t tiles ih =>
    obtain ⟨p, payload, cost⟩ := t
    have hmade : (newEntry m owner p payload cost).Meets v True fun e v' =>
        e = .new owner p payload cost v.ledger.overhead v.ledger.nextSeq ∧
          v' = v.ahead m.now 1 := ⟨rfl, rfl⟩
    rw [List.mapM_cons, Mutation.meets_bind]
    refine hmade.imp ?_
    rintro _ _ ⟨rfl, rfl⟩
    rw [Mutation.meets_bind]
    refine (ih (v.ahead m.now 1)).imp ?_
    rintro _ _ ⟨rfl, rfl⟩
    exact ⟨rfl, ahead_ahead v m.now tiles.length⟩

/-! ### Writing ahead of time -/

/-- Make an entry and write it at once. -/
def place (write : Entry → Mutation (Vault σ) α) (m : Moment) (owner : Owner)
    (tile : Position × Payload × Option Binary64) : Mutation (Vault σ) α := do
  let e ← newEntry m owner tile.1 tile.2.1 tile.2.2
  write e

variable [Shelved σ]

/-- The vault is sound, the register has a status for each entry that was made, and what the vault holds
was made. -/
structure Regular (v : Vault σ) : Prop where
  sound : v.Sound
  size : v.register.size = v.ledger.nextSeq
  lt : ∀ e ∈ v.entries, e.seq < v.ledger.nextSeq

theorem Regular.ahead (h : v.Regular) (now n : Nat) : (v.ahead now n).Regular where
  sound := ⟨h.sound.valid, h.sound.balanced.memoryUsed, h.sound.balanced.tileCount⟩
  size := (v.register.size_enters now n).trans (congrArg (· + n) h.size)
  lt e he := Nat.lt_add_right n (h.lt e he)

/-- Where an entry that was made is written, all entries were made. -/
theorem Regular.lt_of_put (h : v.Regular) (he : e.Proper) (hseq : e.seq < v.ledger.nextSeq)
    (hb : v.Becomes (v.tiles.put e) v') : ∀ f ∈ v'.entries, f.seq < v.ledger.nextSeq := by
  intro f hf
  rcases List.mem_cons.1 ((hb.perm_put h.sound he).mem_iff.1 hf) with rfl | hold
  · exact hseq
  · exact h.lt f (List.mem_filter.1 hold).1

theorem Regular.put (h : v.Regular) (he : e.Proper) (hseq : e.seq < v.ledger.nextSeq)
    (hb : v.Becomes (v.tiles.put e) v') (hsize : v'.register.size = v.register.size) :
    v'.Regular := by
  have hnext : v'.ledger.nextSeq = v.ledger.nextSeq := by rw [hb.recharged]
  exact ⟨hb.sound, by rw [hsize, hnext, h.size], hnext ▸ h.lt_of_put he hseq hb⟩

/-- A write leaves a regular vault, and evicts what was made. -/
theorem Regular.writes {victims : List Entry} (h : v.Regular) (he : e.Proper)
    (hseq : e.seq < v.ledger.nextSeq) (hw : v.Writes e victims v')
    (hsize : v'.register.size = v.register.size) :
    v'.Regular ∧ ∀ f ∈ victims, f.seq < v.ledger.nextSeq := by
  have hnext : v'.ledger.nextSeq = v.ledger.nextSeq := by rw [hw.recharged]
  have hsound : v'.Sound := hw.sound
  obtain ⟨v₁, hb, hrestores⟩ := hw
  have hperm := hrestores.perm hb.sound
  have hmade := h.lt_of_put he hseq hb
  refine ⟨⟨hsound, by rw [hsize, hnext, h.size], fun f hf => ?_⟩, fun f hf => ?_⟩
  · rw [hnext]
    exact hmade f (hperm.mem_iff.2 (List.mem_append_right _ hf))
  · exact hmade f (hperm.mem_iff.2 (List.mem_append_left _ hf))

/-- Written in a vault that is ahead, an entry that was made comes to the same, and the vault stays
ahead. -/
def WritesAhead (write : Entry → Mutation (Vault σ) α) : Prop :=
  ∀ v e now n, v.Regular → e.Proper → e.seq < v.ledger.nextSeq →
    (write e).Alike (write e) (v.ahead now n) v fun b w' a v' =>
      b = a ∧ w' = v'.ahead now n ∧ v'.Regular ∧ v.ledger.Recharged v'.ledger

/-- Entries that were made ahead of time are written like those that are made one by one. -/
theorem WritesAhead.alike_made {β : Type} {write : Entry → Mutation (Vault σ) α}
    (hw : WritesAhead write) (f : α → β) (m : Moment) (owner : Owner)
    (tiles : List (Position × Payload × Option Binary64)) (h : v.Regular) :
    ((madeFrom owner v.ledger.overhead v.ledger.nextSeq tiles).mapM write).Alike
      (tiles.mapM fun t => f <$> place write m owner t) (v.ahead m.now tiles.length) v
      fun as v' bs w' => bs = as.map f ∧ w' = v' ∧ v'.Regular := by
  induction tiles generalizing v with
  | nil => exact ⟨rfl, rfl, h⟩
  | cons t tiles ih =>
    let e : Entry := .new owner t.1 t.2.1 t.2.2 v.ledger.overhead v.ledger.nextSeq
    have hmade : (newEntry m owner t.1 t.2.1 t.2.2).Meets v True fun e' v' =>
        e' = e ∧ v' = v.ahead m.now 1 := ⟨rfl, rfl⟩
    rw [madeFrom, List.mapM_cons, List.mapM_cons, List.length_cons, ← ahead_ahead]
    simp only [place, map_eq_pure_bind, bind_assoc, pure_bind]
    refine Mutation.alike_right hmade trivial ?_
    rintro _ _ ⟨rfl, rfl⟩
    refine Mutation.alike_bind ((hw _ e m.now tiles.length (h.ahead m.now 1)
      (Entry.proper_new ..) (Nat.lt_succ_self _)).imp ?_)
    rintro a _ _ w' ⟨rfl, rfl, hregular, hrecharged⟩
    have hrest := ih hregular
    simp only [place, map_eq_pure_bind, bind_assoc] at hrest
    have hoverhead : w'.ledger.overhead = v.ledger.overhead := by rw [hrecharged]; rfl
    have hnext : w'.ledger.nextSeq = v.ledger.nextSeq + 1 := by rw [hrecharged]; rfl
    rw [hoverhead, hnext] at hrest
    refine Mutation.alike_bind (hrest.imp ?_)
    rintro as v' _ _ ⟨rfl, rfl, hv'⟩
    exact ⟨rfl, rfl, hv'⟩

/-- It does not matter when the entries of a batch are made. -/
theorem WritesAhead.alike {β : Type} {write : Entry → Mutation (Vault σ) α} (hw : WritesAhead write)
    (f : α → β) (m : Moment) (owner : Owner) (tiles : List (Position × Payload × Option Binary64))
    (h : v.Regular) :
    (do let es ← tiles.mapM fun (p, payload, cost) => newEntry m owner p payload cost
        es.mapM write).Alike
      (tiles.mapM fun t => f <$> place write m owner t) v v
      fun as v' bs w' => bs = as.map f ∧ w' = v' ∧ v'.Regular := by
  refine Mutation.alike_left (newEntries_ahead m owner tiles v) trivial ?_
  rintro _ _ ⟨rfl, rfl⟩
  exact hw.alike_made f m owner tiles h

end Vault

open Vault

/-- The stores are the same, and so are the ledgers, but for so many entries that the first has made
more. -/
def Vault.IsAhead {σ : Type} (n : Nat) (w v : Vault σ) : Prop :=
  w.store = v.store ∧ w.ledger = v.ledger.ahead n

theorem Vault.IsAhead.eq {σ : Type} {v w : Vault σ} {now : Nat} (h : IsAhead n w v)
    (hr : w.register = v.register.enters now n) : w = v.ahead now n := by
  unfold ahead
  rw [← h.1, ← h.2, ← hr]

/-- What a write notes of entries that were made before stands where it would stand. -/
theorem Linked.Written.marks_enters {w : Written} {r : Register} (hentry : w.entry.seq < r.size)
    (hvictims : ∀ e ∈ w.pass.victims, e.seq < r.size) (now n : Nat) :
    w.marks (r.enters now n) = (w.marks r).enters now n := by
  unfold marks
  cases w.replaced with
  | true =>
    rw [if_pos rfl, if_pos rfl, Register.mark_enters hentry, Register.markAll_enters]
    exact fun e he => (r.size_mark _ _).symm ▸ hvictims e he
  | false => exact Register.markAll_enters hvictims now n _

/-- A linked cache writes ahead of time like any other. -/
theorem Linked.writesAhead (m : Moment) : WritesAhead (Linked.write m) := by
  intro v e now n h he hseq
  let u : Linked := { v with register := v.register.enters now n }
  have hclock : Unclocked (write m e) (write m e) := unclocked_write rfl e
  have hlater := write_marks m e u
  have hwritten := ((write_meets m h.sound he).mono False.elim fun _ _ hw => hw).and
    (write_marks m e v)
  refine (((hclock u v ⟨rfl, rfl⟩).and_meets hlater hwritten).change_left
    (ignores_write (Ledger.unread_ahead n) m e u)).imp ?_
  rintro _ _ w v' ⟨u', rfl, ⟨rfl, hledger, hstore⟩, ⟨hentry, hmarks⟩, ⟨-, -, hwrites, -⟩, -, hmarks'⟩
  have hsize : v'.register.size = v.register.size := hmarks' ▸ (w.dates now v.register).size
  obtain ⟨hregular, hvictims⟩ := h.writes he hseq hwrites hsize
  have hregister : u'.register = v'.register.enters now n := by
    rw [hmarks, hmarks', w.marks_enters]
    · rw [hentry, h.size]
      exact hseq
    · rw [h.size]
      exact hvictims
  have hahead : IsAhead n (u'.edited (·.ahead n)) v' := ⟨hstore.symm, congrArg (·.ahead n) hledger.symm⟩
  exact ⟨rfl, hahead.eq hregister, hregular, hwrites.recharged⟩

theorem Vault.alike_inStore {σ α : Type} {v w : Vault σ} (h : IsAhead n w v) (f : Mutation σ α) :
    (inStore f).Alike (inStore f) w v fun b w' a v' => b = a ∧ IsAhead n w' v' := by
  obtain ⟨hstore, hledger⟩ := h
  unfold Mutation.Alike inStore
  rw [Mutation.result_within, Mutation.result_within, hstore]
  rcases f.result v.store with ⟨_ | a, s'⟩
  · trivial
  · exact ⟨rfl, rfl, hledger⟩

theorem Vault.alike_charge {σ : Type} {v w : Vault σ} (h : IsAhead n w v) (came went : Option Entry) :
    (account came went).Alike (account came went) w v fun _ w' _ v' => IsAhead n w' v' := by
  obtain ⟨hstore, hledger⟩ := h
  have hshadows := (Ledger.unread_ahead n).ignores_account (came.map (·.size)) (went.map (·.size))
    v.ledger
  unfold Mutation.Shadows at hshadows
  unfold Mutation.Alike account
  rw [Mutation.result_within, Mutation.result_within, hledger, hshadows]
  generalize (Ledger.account (came.map (·.size)) (went.map (·.size))).result v.ledger = x
  rcases x with ⟨_ | a, l⟩
  · trivial
  · exact ⟨hstore, rfl⟩

/-- A write does not go by the register. -/
theorem Sharded.alike_write {v w : Sharded} (h : IsAhead n w v) (e : Entry) :
    (write e).Alike (write e) w v fun b w' a v' => b = a ∧ IsAhead n w' v' := by
  refine Mutation.alike_bind ((Vault.alike_inStore h (ShardedStore.insert e)).imp ?_)
  rintro replaced w₁ _ v₁ ⟨rfl, h₁⟩
  have hcharge : ∀ {v w : Sharded}, IsAhead n w v →
      (account (some e) replaced >>= fun _ => pure replaced.isSome).Alike
        (account (some e) replaced >>= fun _ => pure replaced.isSome) w v
        fun b w' a v' => b = a ∧ IsAhead n w' v' := fun h =>
    Mutation.alike_bind ((Vault.alike_charge h _ _).imp fun _ _ _ _ h' => ⟨rfl, h'⟩)
  split
  · rw [Mutation.alike_modify_left, Mutation.alike_modify_right]
    exact hcharge h₁
  · exact hcharge h₁

/-- Write an entry; the answer names it. -/
def Sharded.record (e : Entry) : Mutation Sharded (Entry × Bool) := return (e, ← write e)

/-- A sharded cache writes ahead of time like any other. -/
theorem Sharded.writesAhead : WritesAhead Sharded.record := by
  intro v e now n h he hseq
  have hwritten := ((write_meets h.sound he).mono False.elim fun _ _ hw => hw).and (write_marks e v)
  refine Mutation.alike_bind (((alike_write (v := v) (w := v.ahead now n) ⟨rfl, rfl⟩ e).and_meets
    (write_marks e _) hwritten).imp ?_)
  rintro replaced w' _ v' ⟨⟨rfl, hahead⟩, hmarks, ⟨-, hb⟩, hmarks'⟩
  have hsize : v'.register.size = v.register.size := by
    rw [hmarks']
    split
    · exact Register.size_mark _ _ _
    · rfl
  have hregister : w'.register = v'.register.enters now n := by
    rw [hmarks, hmarks']
    split
    · exact Register.mark_enters (h.size ▸ hseq) now n _
    · rfl
  exact ⟨rfl, hahead.eq hregister, h.put he hseq hb hsize, hb.recharged⟩

end TileStore
