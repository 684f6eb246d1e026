import TileStore.Mutation

/-!
# What mutations end in

`Meets` states in one sentence what a mutation does and when it cannot fail: run from a state it ends
in a result as described, or in a fault, which cannot be if it is safe. Taken with a condition that is
false it says what holds whenever there was no fault; taken with one that holds it says that there is
none. The rules follow the way mutations are put together.
-/

namespace TileStore.Mutation

variable {σ τ α β : Type} {m : Mutation σ α} {s t : σ} {safe : Prop} {Q : α → σ → Prop}

/-- Run from `s` the mutation ends in a result and a state as `Q` says, or in a fault, which it
cannot if it is `safe`. -/
def Meets (m : Mutation σ α) (s : σ) (safe : Prop) (Q : α → σ → Prop) : Prop :=
  match m.result s with
  | (.ok a, t) => Q a t
  | (.error _, _) => ¬safe

theorem meets_of_result {a : α} (h : m.result s = (.ok a, t)) (hq : Q a t) :
    m.Meets s safe Q := by
  unfold Meets
  rw [h]
  exact hq

theorem Meets.of_ok {a : α} (h : m.Meets s safe Q) (hr : m.result s = (.ok a, t)) : Q a t := by
  unfold Meets at h
  rwa [hr] at h

/-- What is safe ends in a result. -/
theorem Meets.exists_ok (h : m.Meets s safe Q) (hs : safe) :
    ∃ a t, m.result s = (.ok a, t) ∧ Q a t := by
  unfold Meets at h
  rcases hr : m.result s with ⟨_ | a, t⟩
  · rw [hr] at h
    exact absurd hs h
  · rw [hr] at h
    exact ⟨a, t, rfl, h⟩

theorem Meets.mono {safe' : Prop} {R : α → σ → Prop} (h : m.Meets s safe Q)
    (hs : safe' → safe) (hq : ∀ a t, Q a t → R a t) : m.Meets s safe' R := by
  unfold Meets at *
  rcases hr : m.result s with ⟨_ | a, t⟩
  · rw [hr] at h
    exact fun h' => h (hs h')
  · rw [hr] at h
    exact hq a t h

theorem Meets.imp {R : α → σ → Prop} (h : m.Meets s safe Q) (hq : ∀ a t, Q a t → R a t) :
    m.Meets s safe R := h.mono id hq

/-- What holds of a result for one reason and for another. -/
theorem Meets.and {safe' : Prop} {R : α → σ → Prop} (h : m.Meets s safe Q)
    (h' : m.Meets s safe' R) : m.Meets s safe fun a t => Q a t ∧ R a t := by
  unfold Meets at *
  rcases hr : m.result s with ⟨_ | a, t⟩
  · rwa [hr] at h
  · rw [hr] at h h'
    exact ⟨h, h'⟩

theorem Meets.and_result (h : m.Meets s safe Q) :
    m.Meets s safe fun a t => Q a t ∧ m.result s = (.ok a, t) := by
  unfold Meets at *
  rcases hr : m.result s with ⟨_ | a, t⟩
  · rwa [hr] at h
  · rw [hr] at h
    exact ⟨h, rfl⟩

/-- If there is a result, it is as described. -/
theorem meets_of_forall (h : ∀ a t, m.result s = (.ok a, t) → Q a t) : m.Meets s False Q := by
  unfold Meets
  rcases hr : m.result s with ⟨_ | a, t⟩
  · exact id
  · exact h a t hr

/-- A mutation ends in some result or in a fault. -/
theorem meets_any (m : Mutation σ α) (s : σ) : m.Meets s False fun _ _ => True :=
  meets_of_forall fun _ _ _ => trivial

@[simp] theorem meets_pure {a : α} : (pure a : Mutation σ α).Meets s safe Q ↔ Q a s := Iff.rfl

@[simp] theorem meets_throw {f : Fault} : (throw f : Mutation σ α).Meets s safe Q ↔ ¬safe := Iff.rfl

@[simp] theorem meets_get {Q : σ → σ → Prop} : (get : Mutation σ σ).Meets s safe Q ↔ Q s s := Iff.rfl

@[simp] theorem meets_set {Q : PUnit → σ → Prop} :
    (set t : Mutation σ PUnit).Meets s safe Q ↔ Q ⟨⟩ t := Iff.rfl

@[simp] theorem meets_modify {f : σ → σ} {Q : PUnit → σ → Prop} :
    (modify f : Mutation σ PUnit).Meets s safe Q ↔ Q ⟨⟩ (f s) := Iff.rfl

@[simp] theorem meets_bind {f : α → Mutation σ β} {Q : β → σ → Prop} :
    (m >>= f).Meets s safe Q ↔ m.Meets s safe fun a t => (f a).Meets t safe Q := by
  unfold Meets
  rw [result_bind]
  rcases m.result s with ⟨_ | a, t⟩ <;> rfl

@[simp] theorem meets_map {g : α → β} {Q : β → σ → Prop} :
    (g <$> m).Meets s safe Q ↔ m.Meets s safe fun a t => Q (g a) t := by
  unfold Meets
  rw [result_map]
  rcases m.result s with ⟨_ | a, t⟩ <;> rfl

@[simp] theorem meets_within {part : σ → τ} {put : τ → σ → σ} {m : Mutation τ α} :
    (m.within part put).Meets s safe Q ↔ m.Meets (part s) safe fun a t => Q a (put t s) := by
  unfold Meets
  rw [result_within]
  rcases m.result (part s) with ⟨_ | a, t⟩ <;> rfl

/-- A change that is made or not. -/
theorem meets_modify_if {c : Prop} [Decidable c] {f : σ → σ}
    (h : ∀ t, t = f s ∨ t = s → m.Meets t safe Q) :
    (if c then modify f >>= fun _ => m else m).Meets s safe Q := by
  split
  · exact meets_bind.2 (h (f s) (.inl rfl))
  · exact h s (.inr rfl)

/-- One after the other, each element of a list leads to a result and on to the next state. -/
inductive Series (R : α → σ → β → σ → Prop) : List α → σ → List β → σ → Prop where
  | nil (s : σ) : Series R [] s [] s
  | cons {x : α} {xs : List α} {y : β} {ys : List β} {s t u : σ} :
    R x s y t → Series R xs t ys u → Series R (x :: xs) s (y :: ys) u

theorem Series.eq_map {g : α → β} {xs : List α} {ys : List β}
    (h : Series (fun x _ y _ => y = g x) xs s ys t) : ys = xs.map g := by
  induction h with
  | nil => rfl
  | cons hy _ ih => rw [hy, ih, List.map_cons]

/-- When each element of a list is computed, the state is as `P` says. -/
def Along (P : α → σ → Prop) (f : α → Mutation σ β) : List α → σ → Prop
  | [], _ => True
  | x :: xs, s => P x s ∧ ∀ y t, (f x).result s = (.ok y, t) → Along P f xs t

/-- What is said of a result is decided by computing it. -/
instance decidableOfResult (m : Mutation σ α) (s : σ) (p : α → σ → Prop)
    [∀ a t, Decidable (p a t)] : Decidable (∀ a t, m.result s = (.ok a, t) → p a t) :=
  match hm : m.result s with
  | (.ok a, t) => decidable_of_iff (p a t) (by
      constructor
      · intro hp _ _ h
        cases h
        exact hp
      · exact fun h => h a t rfl)
  | (.error _, _) => isTrue nofun

instance decidableAlong (P : α → σ → Prop) (f : α → Mutation σ β) [∀ x s, Decidable (P x s)] :
    (xs : List α) → (s : σ) → Decidable (Along P f xs s)
  | [], _ => isTrue trivial
  | x :: xs, s =>
    have _ := decidableAlong P f xs
    inferInstanceAs (Decidable (P x s ∧ ∀ y t, (f x).result s = (.ok y, t) → Along P f xs t))

/-- One computation for each element of a list. `I` is what holds of the state before the elements
that are left. -/
theorem meets_mapM {f : α → Mutation σ β} {R : α → σ → β → σ → Prop} (I : List α → σ → Prop)
    (step : ∀ x xs s, I (x :: xs) s → (f x).Meets s safe fun y t => R x s y t ∧ I xs t)
    (xs : List α) (s : σ) (h : I xs s) :
    (xs.mapM f).Meets s safe fun ys t => Series R xs s ys t ∧ I [] t := by
  induction xs generalizing s with
  | nil => exact ⟨.nil s, h⟩
  | cons x xs ih =>
    rw [List.mapM_cons, meets_bind]
    refine (step x xs s h).imp fun y t ⟨hy, ht⟩ => ?_
    rw [meets_bind]
    exact (ih t ht).imp fun ys u ⟨hys, hu⟩ => ⟨.cons hy hys, hu⟩

/-- Each of the results was computed when those before it had been. -/
theorem mapM_splits (f : α → Mutation σ β) (xs : List α) (s : σ) :
    (xs.mapM f).Meets s False fun ys _ => ∀ y ∈ ys, ∃ before x after zs t u,
      xs = before ++ x :: after ∧ (before.mapM f).result s = (.ok zs, t) ∧
        (f x).result t = (.ok y, u) := by
  induction xs generalizing s with
  | nil => exact nofun
  | cons x xs ih =>
    rw [List.mapM_cons, meets_bind]
    refine meets_of_forall fun y t hy => ?_
    rw [meets_bind]
    refine (ih t).imp fun ys u hys z hz => ?_
    rcases List.mem_cons.1 hz with rfl | hz
    · exact ⟨[], x, xs, [], s, t, rfl, rfl, hy⟩
    · obtain ⟨before, x', after, zs, t₁, t₂, rfl, hbefore, hx'⟩ := hys z hz
      refine ⟨x :: before, x', after, y :: zs, t₁, t₂, rfl, ?_, hx'⟩
      rw [List.mapM_cons, result_bind, hy]
      simp only [result_bind, hbefore, result_pure]

theorem meets_forM_cons {f : β → Mutation σ PUnit} {x : β} {xs : List β} {Q : PUnit → σ → Prop} :
    ((x :: xs).forM f).Meets s safe Q ↔ (f x).Meets s safe fun _ t => (xs.forM f).Meets t safe Q :=
  meets_bind

theorem result_forM_modify (f : β → σ → σ) (xs : List β) (s : σ) :
    (xs.forM fun x => (modify (f x) : Mutation σ PUnit)).result s =
      (.ok ⟨⟩, xs.foldl (fun s x => f x s) s) := by
  induction xs generalizing s with
  | nil => rfl
  | cons x xs ih =>
    change ((modify (f x) : Mutation σ PUnit) >>= fun _ => xs.forM fun x => modify (f x)).result s = _
    rw [result_bind]
    exact ih (f x s)

end TileStore.Mutation
