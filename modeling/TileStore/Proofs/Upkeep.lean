import TileStore.Proofs.Mutation
import TileStore.Proofs.Vault

/-!
# What the store of a vault keeps

Some things are true of a store whatever is done to it. `KeepsStore` says that a computation keeps such
a thing true, and the rules follow the way computations are put together: the ledger and the register
are of no account, so only the operations of the store have to be looked at.
-/

namespace TileStore.Vault

variable {σ α β : Type} {P : σ → Prop}

/-- What is true of the store stays true, if there is no fault. -/
def KeepsStore (P : σ → Prop) (f : Mutation (Vault σ) α) : Prop :=
  ∀ v, P v.store → f.Meets v False fun _ v' => P v'.store

/-! ### Computations -/

theorem keepsStore_pure (a : α) : KeepsStore P (pure a) := fun _ h => h

theorem keepsStore_throw (f : Fault) : KeepsStore P (throw f : Mutation (Vault σ) α) :=
  fun _ _ => id

theorem KeepsStore.bind {f : Mutation (Vault σ) α} {g : α → Mutation (Vault σ) β}
    (hf : KeepsStore P f) (hg : ∀ a, KeepsStore P (g a)) : KeepsStore P (f >>= g) :=
  fun v h => Mutation.meets_bind.2 ((hf v h).imp fun a v' h' => hg a v' h')

/-- What is done next may depend on the vault as it is now. -/
theorem keepsStore_get {g : Vault σ → Mutation (Vault σ) β}
    (hg : ∀ v, P v.store → (g v).Meets v False fun _ v' => P v'.store) :
    KeepsStore P (get >>= g) :=
  fun v h => Mutation.meets_bind.2 (Mutation.meets_get.2 (hg v h))

theorem KeepsStore.mapM {f : α → Mutation (Vault σ) β} (hf : ∀ a, KeepsStore P (f a))
    (xs : List α) : KeepsStore P (xs.mapM f) := fun v h =>
  (Mutation.meets_mapM (R := fun _ _ _ _ => True) (fun _ w => P w.store)
    (fun a _ w hw => (hf a w hw).imp fun _ _ hw' => ⟨trivial, hw'⟩) xs v h).imp fun _ _ h => h.2

theorem KeepsStore.forM {f : α → Mutation (Vault σ) PUnit} (hf : ∀ a, KeepsStore P (f a))
    (xs : List α) : KeepsStore P (xs.forM f) := by
  induction xs with
  | nil => exact keepsStore_pure _
  | cons x xs ih => exact (hf x).bind fun _ => ih

/-! ### Vaults -/

theorem keepsStore_inStore {f : Mutation σ α}
    (hf : ∀ s, P s → f.Meets s False fun _ s' => P s') : KeepsStore P (inStore f) :=
  fun v h => Mutation.meets_within.2 (hf v.store h)

theorem keepsStore_account (came went : Option Entry) :
    KeepsStore P (account came went : Mutation (Vault σ) Unit) :=
  fun v h => Mutation.meets_within.2 ((Mutation.meets_any _ v.ledger).imp fun _ _ _ => h)

theorem keepsStore_mark (e : Entry) (a : Action) :
    KeepsStore P (modify (·.mark e a) : Mutation (Vault σ) PUnit) := fun _ h => h

theorem keepsStore_touch (e : Entry) (now : Nat) :
    KeepsStore P (modify (·.touch e now) : Mutation (Vault σ) PUnit) := fun _ h => h

theorem keepsStore_count (x : Happening) :
    KeepsStore P (modify (·.count x) : Mutation (Vault σ) PUnit) := fun _ h => h

theorem keepsStore_newEntry (m : Moment) (owner : Owner) (p : Position) (payload : Payload)
    (cost : Option Binary64) :
    KeepsStore P (newEntry m owner p payload cost : Mutation (Vault σ) Entry) := fun _ h => h

theorem keepsStore_dismiss (es : List Entry) :
    KeepsStore P (dismiss es : Mutation (Vault σ) (List Notice)) := by
  intro v h
  refine (dismiss_meets es v).imp ?_
  rintro _ v' ⟨-, hs, -⟩
  exact hs ▸ h

end TileStore.Vault
