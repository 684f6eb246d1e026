import TileStore.Proofs.Linked.Timing

/-!
# What is noted of entries

The register has a status for each entry that was ever made: when it was last used, and what last
happened to it. Marks leave the time as it is. Only two things change it, making an entry and finding
one, and both set it to the time of the request. So between two states the times can be told from the
entries that were used: `Register.Dates`.
-/

namespace TileStore

variable {m : Moment}

/-! ### Registers -/

namespace Register

variable {r r' r'' : Register} {now n n' : Nat} {seqs seqs' : List Nat}

/-- From one register to the other `n` entries were entered, and those with the given numbers were used
at a time. -/
structure Dates (now n : Nat) (seqs : List Nat) (r r' : Register) : Prop where
  size : r'.size = r.size + n
  lastAccess : ∀ i, (r'.status i).lastAccess =
    if i ∈ seqs then max (r.status i).lastAccess now else (r.status i).lastAccess

theorem Dates.refl (now : Nat) (r : Register) : Dates now 0 [] r r := ⟨rfl, fun _ => rfl⟩

theorem Dates.trans (h : Dates now n seqs r r') (h' : Dates now n' seqs' r' r'') :
    Dates now (n + n') (seqs ++ seqs') r r'' where
  size := by rw [h'.size, h.size, Nat.add_assoc]
  lastAccess i := by
    rw [h'.lastAccess, h.lastAccess]
    by_cases hi : i ∈ seqs <;> by_cases hi' : i ∈ seqs' <;> simp [hi, hi']

theorem dates_mark (now : Nat) (r : Register) (seq : Nat) (a : Action) :
    Dates now 0 [] r (r.mark seq a) := ⟨r.size_mark seq a, fun i => r.lastAccess_mark seq i a⟩

theorem dates_of_markAll (now : Nat) {a : Action} {es : List Entry} (h : r' = r.markAll a es) :
    Dates now 0 [] r r' := h ▸ ⟨r.size_markAll a es, fun i => r.lastAccess_markAll a es i⟩

theorem lastAccess_of_size_le {i : Nat} (h : r.size ≤ i) : (r.status i).lastAccess = 0 := by
  rw [status, Array.getElem?_eq_none h]
  rfl

theorem dates_enter (now : Nat) (r : Register) : Dates now 1 [r.size] r (r.enter now) where
  size := r.size_enter now
  lastAccess i := by
    rw [status_enter]
    by_cases hi : i = r.size
    · subst hi
      simp [lastAccess_of_size_le]
    · simp [hi]

theorem dates_touch {seq : Nat} (now : Nat) (h : seq < r.size) :
    Dates now 0 [seq] r (r.touch seq now) where
  size := r.size_touch seq now
  lastAccess i := by
    rw [status_touch _ _ _ _ h]
    by_cases hi : i = seq <;> simp [hi, Status.touch]

end Register

/-! ### Making entries -/

namespace Vault

variable {σ : Type} {v : Vault σ} {safe : Prop}

theorem register_inStore {α : Type} (f : Mutation σ α) (v : Vault σ) :
    (inStore f).Meets v False fun _ v' => v'.register = v.register :=
  Mutation.meets_within.2 ((Mutation.meets_any f v.store).imp fun _ _ _ => rfl)

theorem register_account (came went : Option Entry) (v : Vault σ) :
    (account came went).Meets v False fun _ v' => v'.register = v.register :=
  Mutation.meets_within.2 ((Mutation.meets_any _ v.ledger).imp fun _ _ _ => rfl)

theorem newEntry_dates (owner : Owner) (p : Position) (payload : Payload)
    (cost : Option Binary64) (v : Vault σ) :
    (newEntry m owner p payload cost).Meets v safe fun _ v' =>
      Register.Dates m.now 1 [v.register.size] v.register v'.register :=
  Register.dates_enter m.now v.register

theorem newEntries_dates (owner : Owner) (tiles : List (Position × Payload × Option Binary64))
    (v : Vault σ) :
    (tiles.mapM fun (p, payload, cost) => newEntry m owner p payload cost).Meets v safe fun _ v' =>
      Register.Dates m.now tiles.length (List.range' v.register.size tiles.length) v.register
        v'.register := by
  induction tiles generalizing v with
  | nil => exact .refl _ _
  | cons t tiles ih =>
    obtain ⟨p, payload, cost⟩ := t
    rw [List.mapM_cons, Mutation.meets_bind]
    refine (newEntry_dates owner p payload cost v).imp fun e v₁ he => ?_
    rw [Mutation.meets_bind]
    refine (ih v₁).imp fun es v' hes => ?_
    rw [he.size] at hes
    rw [List.length_cons, List.range'_succ, Nat.add_comm]
    exact he.trans hes

/-! ### Looking up -/

/-- The numbers of what is found under keys, if they are to be noted. -/
def seqsFound (on : Bool) (g : Tiles) (ks : List TileKey) : List Nat :=
  if on then (ks.filterMap g).map (·.seq) else []

theorem seqsFound_cons (on : Bool) (g : Tiles) (k : TileKey) (ks : List TileKey) :
    seqsFound on g (k :: ks) = seqsFound on g [k] ++ seqsFound on g ks := by
  cases on
  · rfl
  · cases hk : g k <;> simp [seqsFound, hk]

/-- Look-ups one after the other use what they find, if each one does. Whether that is noted stands in
the ledger. -/
theorem lookUps_dates [Shelved σ] {f : TileKey → Mutation (Vault σ) (Option Entry)} {now : Nat}
    (on : Ledger → Bool) (hon : ∀ l counters, on { l with counters := counters } = on l)
    (hf : ∀ k w, w.Sound → (f k).Meets w False fun found w' => found = w.tiles k ∧ w.Keeps w')
    (hdates : ∀ k w, w.Sound → (∀ {e}, w.tiles k = some e → e.seq < w.register.size) →
      (f k).Meets w False fun _ w' =>
        Register.Dates now 0 (seqsFound (on w.ledger) w.tiles [k]) w.register w'.register)
    (ks : List TileKey) (h : v.Sound)
    (hlt : ∀ {k e}, v.tiles k = some e → e.seq < v.register.size) :
    (ks.mapM f).Meets v False fun _ v' =>
      Register.Dates now 0 (seqsFound (on v.ledger) v.tiles ks) v.register v'.register := by
  induction ks generalizing v with
  | nil =>
    rw [seqsFound, List.filterMap_nil, List.map_nil, ite_self]
    exact .refl _ _
  | cons k ks ih =>
    rw [List.mapM_cons, Mutation.meets_bind]
    refine ((hdates k v h hlt).and (hf k v h)).imp ?_
    rintro _ v₁ ⟨hk, rfl, hkeeps⟩
    rw [Mutation.meets_bind]
    refine (ih hkeeps.sound fun he => ?_).imp fun _ v' hks => ?_
    · rw [hk.size]
      exact hlt (hkeeps.tiles ▸ he)
    · have hsame : on v₁.ledger = on v.ledger := by rw [hkeeps.ledger, hon]
      rw [hsame, hkeeps.tiles] at hks
      rw [seqsFound_cons]
      exact hk.trans hks

end Vault

end TileStore
