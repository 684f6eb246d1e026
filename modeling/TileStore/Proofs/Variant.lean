import TileStore.Proofs.Mutation

/-!
# A state and its variant

A variant of a state differs from it in a part that a mutation has no use for. `Ignores` says that the
mutation does not notice: run from the variant it comes to the same, and leaves the variant of what it
leaves. `Overlooks` is weaker, for mutations that change that part but do not go by it: of a family of
variants they leave some other one. The rules follow the way mutations are put together; `Shadows` is for
the places where two computations differ by the state that was read.
-/

namespace TileStore.Mutation

variable {σ τ υ α β : Type} {t : σ → σ} {f g : Mutation σ α} {s : σ}

/-- Run from the variant of `s`, `g` comes to what `f` comes to from `s`, and leaves the variant of what
`f` leaves. -/
def Shadows (t : σ → σ) (f g : Mutation σ α) (s : σ) : Prop :=
  g.result (t s) = ((f.result s).1, t (f.result s).2)

/-- Whether it is run from a state or from its variant makes no difference. -/
def Ignores (t : σ → σ) (f : Mutation σ α) : Prop := ∀ s, Shadows t f f s

theorem shadows_bind {k l : α → Mutation σ β} (h : Shadows t f g s)
    (hk : ∀ a s', Shadows t (k a) (l a) s') : Shadows t (f >>= k) (g >>= l) s := by
  unfold Shadows at *
  rw [result_bind, result_bind, h]
  rcases f.result s with ⟨_ | a, s'⟩
  · rfl
  · exact hk a s'

theorem shadows_get {k l : σ → Mutation σ α} (h : Shadows t (k s) (l (t s)) s) :
    Shadows t (get >>= k) (get >>= l) s := by
  unfold Shadows at *
  rw [result_bind, result_bind, result_get, result_get]
  exact h

theorem shadows_set {k l : PUnit → Mutation σ α} {u : σ} (h : Shadows t (k ⟨⟩) (l ⟨⟩) u) :
    Shadows t (set u >>= k) (set (t u) >>= l) s := by
  unfold Shadows at *
  rw [result_bind, result_bind, result_set, result_set]
  exact h

theorem shadows_ite {c : Prop} [Decidable c] {f' g' : Mutation σ α} (h : Shadows t f g s)
    (h' : Shadows t f' g' s) : Shadows t (if c then f else f') (if c then g else g') s := by
  split
  · exact h
  · exact h'

/-! ### Mutations that ignore the variant -/

theorem ignores_pure (a : α) : Ignores t (pure a : Mutation σ α) := fun _ => rfl

theorem ignores_throw (e : Fault) : Ignores t (throw e : Mutation σ α) := fun _ => rfl

theorem ignores_get {k : σ → Mutation σ α} (h : ∀ s, Shadows t (k s) (k (t s)) s) :
    Ignores t (get >>= k) := fun s => shadows_get (h s)

theorem ignores_modify {u : σ → σ} (h : ∀ s, u (t s) = t (u s)) :
    Ignores t (modify u : Mutation σ PUnit) := fun s => congrArg (Except.ok PUnit.unit, ·) (h s)

namespace Ignores

theorem bind {k : α → Mutation σ β} (h : Ignores t f) (hk : ∀ a, Ignores t (k a)) :
    Ignores t (f >>= k) := fun s => shadows_bind (h s) hk

theorem map (h : Ignores t f) (k : α → β) : Ignores t (k <$> f) := by
  rw [← bind_pure_comp]
  exact h.bind fun a => ignores_pure (k a)

/-- A step that is taken or not. -/
theorem bind_if {c : Prop} [Decidable c] {u : Mutation σ PUnit} (hu : Ignores t u)
    (h : Ignores t f) : Ignores t (if c then u >>= fun _ => f else f) := by
  split
  · exact hu.bind fun _ => h
  · exact h

/-- The part that a mutation runs on has a variant of its own. -/
theorem within {v : υ → υ} {f : Mutation υ α} {part : σ → υ} {put : υ → σ → σ} (h : Ignores v f)
    (hpart : ∀ s, part (t s) = v (part s)) (hput : ∀ u s, put (v u) (t s) = t (put u s)) :
    Ignores t (f.within part put) := by
  intro s
  unfold Shadows
  rw [result_within, result_within, hpart, h (part s), hput]

/-- What is ignored is left alone: a state that is its own variant leads to another such. -/
theorem leaves (h : Ignores t f) (hs : t s = s) : f.Meets s False fun _ s' => t s' = s' := by
  have hself := h s
  unfold Shadows at hself
  rw [hs] at hself
  unfold Meets
  rcases hr : f.result s with ⟨_ | a, s'⟩
  · exact id
  · rw [hr] at hself
    exact (congrArg Prod.snd hself).symm

end Ignores

theorem ignores_mapM {f : α → Mutation σ β} (h : ∀ x, Ignores t (f x)) (xs : List α) :
    Ignores t (xs.mapM f) := by
  induction xs with
  | nil => exact ignores_pure _
  | cons x xs ih =>
    rw [List.mapM_cons]
    exact (h x).bind fun y => ih.bind fun ys => ignores_pure (y :: ys)

theorem ignores_forM {f : α → Mutation σ PUnit} (h : ∀ x, Ignores t (f x)) (xs : List α) :
    Ignores t (xs.forM f) := by
  induction xs with
  | nil => exact ignores_pure _
  | cons x xs ih => exact (h x).bind fun _ => ih

/-! ### Mutations that overlook it -/

variable {ι : Type} {t : ι → σ → σ} {f : Mutation σ α}

/-- Run from a variant of a state it comes to the same as from the state, and leaves a variant of what
it leaves. -/
def Overlooks (t : ι → σ → σ) (f : Mutation σ α) : Prop :=
  ∀ i s, ∃ j, f.result (t i s) = ((f.result s).1, t j (f.result s).2)

theorem overlooks_of_ignores (h : ∀ i, Ignores (t i) f) : Overlooks t f := fun i s => ⟨i, h i s⟩

theorem overlooks_pure (a : α) : Overlooks t (pure a : Mutation σ α) :=
  overlooks_of_ignores fun _ => ignores_pure a

theorem overlooks_modify {u : σ → σ} (h : ∀ i s, ∃ j, u (t i s) = t j (u s)) :
    Overlooks t (modify u : Mutation σ PUnit) := by
  intro i s
  obtain ⟨j, hj⟩ := h i s
  exact ⟨j, congrArg (Except.ok PUnit.unit, ·) hj⟩

/-- What is read of the state is the same in all variants. -/
theorem overlooks_get {k : σ → Mutation σ α} (h : ∀ i s, k (t i s) = k s)
    (hk : ∀ s, Overlooks t (k s)) : Overlooks t (get >>= k) := by
  intro i s
  rw [result_bind, result_bind, result_get, result_get]
  dsimp only
  rw [h]
  exact hk s i s

namespace Overlooks

theorem bind {k : α → Mutation σ β} (h : Overlooks t f) (hk : ∀ a, Overlooks t (k a)) :
    Overlooks t (f >>= k) := by
  intro i s
  obtain ⟨j, hj⟩ := h i s
  rw [result_bind, result_bind, hj]
  rcases f.result s with ⟨e | a, s'⟩
  · exact ⟨j, rfl⟩
  · exact hk a j s'

theorem within {v : ι → υ → υ} {f : Mutation υ α} {part : σ → υ} {put : υ → σ → σ}
    (h : Overlooks v f) (hpart : ∀ i s, part (t i s) = v i (part s))
    (hput : ∀ i j u s, put (v j u) (t i s) = t j (put u s)) : Overlooks t (f.within part put) := by
  intro i s
  obtain ⟨j, hj⟩ := h i (part s)
  refine ⟨j, ?_⟩
  rw [result_within, result_within, hpart, hj, hput]

end Overlooks

theorem overlooks_mapM {f : α → Mutation σ β} (h : ∀ x, Overlooks t (f x)) (xs : List α) :
    Overlooks t (xs.mapM f) := by
  induction xs with
  | nil => exact overlooks_pure _
  | cons x xs ih =>
    rw [List.mapM_cons]
    exact (h x).bind fun y => ih.bind fun ys => overlooks_pure (y :: ys)

theorem overlooks_forM {f : α → Mutation σ PUnit} (h : ∀ x, Overlooks t (f x)) (xs : List α) :
    Overlooks t (xs.forM f) := by
  induction xs with
  | nil => exact overlooks_pure _
  | cons x xs ih => exact (h x).bind fun _ => ih

end TileStore.Mutation
