import TileStore.Proofs.Mutation

/-!
# Two mutations side by side

`Alike` compares two mutations, each on a state of its own: both end in a fault, or both in results
that are related. Steps that both take are compared with each other, by `alike_bind`. A step that
only one of them takes must not fail, and then it is passed over: the rules whose names end in
`left` and `right`. What is known of one of them alone is brought in by `Alike.and_meets`.

Where every step of the one is a step of the other and the results of the one are a function of the
results of the other, `Tracks` says so from all related states at once, and is put together as the
mutations are.
-/

namespace TileStore.Mutation

variable {σ τ υ α β γ δ : Type} {f : Mutation σ α} {g : Mutation τ β} {s s' : σ} {t t' : τ}
  {R : α → σ → β → τ → Prop}

/-- Run from `s` and from `t` both mutations end in a fault, or both in results and states as `R`
says. -/
def Alike (f : Mutation σ α) (g : Mutation τ β) (s : σ) (t : τ) (R : α → σ → β → τ → Prop) : Prop :=
  match f.result s, g.result t with
  | (.ok a, s'), (.ok b, t') => R a s' b t'
  | (.error _, _), (.error _, _) => True
  | _, _ => False

theorem Alike.imp {R' : α → σ → β → τ → Prop} (h : f.Alike g s t R)
    (hr : ∀ a s' b t', R a s' b t' → R' a s' b t') : f.Alike g s t R' := by
  unfold Alike at *
  generalize f.result s = x at h ⊢
  generalize g.result t = y at h ⊢
  rcases x with ⟨_ | a, s'⟩ <;> rcases y with ⟨_ | b, t'⟩
  · exact h
  · exact h
  · exact h
  · exact hr a s' b t' h

/-- A mutation comes to the same as itself. -/
theorem alike_self (f : Mutation σ α) (s : σ) : f.Alike f s s fun a s' b t' => b = a ∧ t' = s' := by
  unfold Alike
  rcases f.result s with ⟨_ | a, s'⟩
  · trivial
  · exact ⟨rfl, rfl⟩

theorem Alike.symm (h : f.Alike g s t R) : g.Alike f t s fun b t' a s' => R a s' b t' := by
  unfold Alike at *
  generalize f.result s = x at h ⊢
  generalize g.result t = y at h ⊢
  rcases x with ⟨_ | a, s'⟩ <;> rcases y with ⟨_ | b, t'⟩ <;> exact h

theorem Alike.trans {h : Mutation υ γ} {u : υ} {R' : β → τ → γ → υ → Prop} (hfg : f.Alike g s t R)
    (hgh : g.Alike h t u R') :
    f.Alike h s u fun a s' c u' => ∃ b t', R a s' b t' ∧ R' b t' c u' := by
  unfold Alike at *
  generalize f.result s = x at hfg ⊢
  generalize g.result t = y at hfg hgh
  generalize h.result u = z at hgh ⊢
  rcases x with ⟨_ | a, s'⟩ <;> rcases y with ⟨_ | b, t'⟩ <;> rcases z with ⟨_ | c, u'⟩ <;>
    first | trivial | exact hfg.elim | exact hgh.elim | exact ⟨b, t', hfg, hgh⟩

/-- What each of the two ends in is known as well. -/
theorem Alike.and_meets {safe safe' : Prop} {P : α → σ → Prop} {Q : β → τ → Prop}
    (h : f.Alike g s t R) (hf : f.Meets s safe P) (hg : g.Meets t safe' Q) :
    f.Alike g s t fun a s' b t' => R a s' b t' ∧ P a s' ∧ Q b t' := by
  unfold Alike Meets at *
  generalize f.result s = x at h hf ⊢
  generalize g.result t = y at h hg ⊢
  rcases x with ⟨_ | a, s'⟩ <;> rcases y with ⟨_ | b, t'⟩
  · exact h
  · exact h
  · exact h
  · exact ⟨h, hf, hg⟩

theorem Alike.and_result (h : f.Alike g s t R) :
    f.Alike g s t fun a s' b t' =>
      R a s' b t' ∧ f.result s = (.ok a, s') ∧ g.result t = (.ok b, t') := by
  unfold Alike at *
  generalize f.result s = x at h ⊢
  generalize g.result t = y at h ⊢
  rcases x with ⟨_ | a, s'⟩ <;> rcases y with ⟨_ | b, t'⟩
  · exact h
  · exact h
  · exact h
  · exact ⟨h, rfl, rfl⟩

/-- Run from another state, the first of the two comes to the same and leaves another state of the same
kind. -/
theorem Alike.change_left {u : σ → σ} (h : f.Alike g s t R)
    (hf : f.result (u s) = ((f.result s).1, u (f.result s).2)) :
    f.Alike g (u s) t fun a s' b t' => ∃ s₁, s' = u s₁ ∧ R a s₁ b t' := by
  unfold Alike at *
  rw [hf]
  generalize f.result s = x at h ⊢
  generalize g.result t = y at h ⊢
  rcases x with ⟨_ | a, s'⟩ <;> rcases y with ⟨_ | b, t'⟩
  · exact h
  · exact h
  · exact h
  · exact ⟨s', rfl, h⟩

/-- If one of the two does not fail, neither does the other. -/
theorem Alike.exists_ok {safe : Prop} {P : α → σ → Prop} (h : f.Alike g s t R)
    (hf : f.Meets s safe P) (hs : safe) :
    ∃ a s' b t', f.result s = (.ok a, s') ∧ g.result t = (.ok b, t') ∧ R a s' b t' := by
  obtain ⟨a, s', hr, -⟩ := hf.exists_ok hs
  unfold Alike at h
  rw [hr] at h
  rcases hg : g.result t with ⟨_ | b, t'⟩
  · rw [hg] at h
    exact h.elim
  · rw [hg] at h
    exact ⟨a, s', b, t', hr, rfl, h⟩

/-- Two mutations fail alike if each fails exactly if some condition is not met, and it is the same
for both. -/
theorem alike_of_meets {safe safe' : Prop} {P : α → σ → Prop} {Q : β → τ → Prop}
    (hf : f.Meets s safe fun a s' => safe ∧ P a s')
    (hg : g.Meets t safe' fun b t' => safe' ∧ Q b t') (hsafe : safe' ↔ safe) :
    f.Alike g s t fun a s' b t' => P a s' ∧ Q b t' := by
  unfold Alike Meets at *
  generalize f.result s = x at hf ⊢
  generalize g.result t = y at hg ⊢
  rcases x with ⟨_ | a, s'⟩ <;> rcases y with ⟨_ | b, t'⟩
  · trivial
  · exact hf (hsafe.1 hg.1)
  · exact hg (hsafe.2 hf.1)
  · exact ⟨hf.2, hg.2⟩

/-! ### Steps of both -/

@[simp] theorem alike_pure {a : α} {b : β} :
    (pure a : Mutation σ α).Alike (pure b : Mutation τ β) s t R ↔ R a s b t := Iff.rfl

@[simp] theorem alike_pure_modify {a : α} {v : τ → τ} {R : α → σ → PUnit → τ → Prop} :
    (pure a : Mutation σ α).Alike (modify v : Mutation τ PUnit) s t R ↔ R a s ⟨⟩ (v t) := Iff.rfl

theorem alike_bind {k : α → Mutation σ γ} {l : β → Mutation τ δ} {R' : γ → σ → δ → τ → Prop}
    (h : f.Alike g s t fun a s' b t' => (k a).Alike (l b) s' t' R') :
    (f >>= k).Alike (g >>= l) s t R' := by
  unfold Alike at *
  rw [result_bind, result_bind]
  generalize f.result s = x at h ⊢
  generalize g.result t = y at h ⊢
  rcases x with ⟨_ | a, s'⟩ <;> rcases y with ⟨_ | b, t'⟩
  · trivial
  · exact h.elim
  · exact h.elim
  · exact h

theorem alike_map {k : α → γ} {l : β → δ} {R' : γ → σ → δ → τ → Prop}
    (h : f.Alike g s t fun a s' b t' => R' (k a) s' (l b) t') :
    (k <$> f).Alike (l <$> g) s t R' := by
  rw [← bind_pure_comp, ← bind_pure_comp]
  exact alike_bind h

/-! ### Steps of one -/

theorem alike_bind_left {k : α → Mutation σ γ} {R' : γ → σ → β → τ → Prop}
    (h : f.Alike g s t fun a s' b t' => (k a).Alike (pure b) s' t' R') :
    (f >>= k).Alike g s t R' := by
  rw [← bind_pure g]
  exact alike_bind h

theorem alike_bind_right {l : β → Mutation τ δ} {R' : α → σ → δ → τ → Prop}
    (h : f.Alike g s t fun a s' b t' => (pure a : Mutation σ α).Alike (l b) s' t' R') :
    f.Alike (g >>= l) s t R' := by
  rw [← bind_pure f]
  exact alike_bind h

theorem alike_map_left {k : α → γ} {R' : γ → σ → β → τ → Prop}
    (h : f.Alike g s t fun a s' b t' => R' (k a) s' b t') : (k <$> f).Alike g s t R' := by
  rw [← id_map g]
  exact alike_map h

theorem alike_map_right {l : β → δ} {R' : α → σ → δ → τ → Prop}
    (h : f.Alike g s t fun a s' b t' => R' a s' (l b) t') : f.Alike (l <$> g) s t R' := by
  rw [← id_map f]
  exact alike_map h

theorem alike_left {safe : Prop} {P : α → σ → Prop} {k : α → Mutation σ γ}
    {R' : γ → σ → β → τ → Prop} (hf : f.Meets s safe P) (hsafe : safe)
    (h : ∀ a s', P a s' → (k a).Alike g s' t R') : (f >>= k).Alike g s t R' := by
  obtain ⟨a, s', hr, hp⟩ := hf.exists_ok hsafe
  unfold Alike at *
  rw [result_bind, hr]
  exact h a s' hp

theorem alike_right {safe : Prop} {Q : β → τ → Prop} {l : β → Mutation τ δ}
    {R' : α → σ → δ → τ → Prop} (hg : g.Meets t safe Q) (hsafe : safe)
    (h : ∀ b t', Q b t' → f.Alike (l b) s t' R') : f.Alike (g >>= l) s t R' := by
  obtain ⟨b, t', hr, hq⟩ := hg.exists_ok hsafe
  unfold Alike at *
  rw [result_bind, hr]
  exact h b t' hq

theorem alike_within_left {safe : Prop} {part : σ → υ} {put : υ → σ → σ} {m : Mutation υ α}
    {P : α → υ → Prop} {k : α → Mutation σ γ} {R' : γ → σ → β → τ → Prop}
    (hm : m.Meets (part s) safe P) (hsafe : safe)
    (h : ∀ a u, P a u → (k a).Alike g (put u s) t R') :
    (m.within part put >>= k).Alike g s t R' := by
  have hwithin : (m.within part put).Meets s safe fun a s' => ∃ u, P a u ∧ s' = put u s :=
    meets_within.2 (hm.imp fun _ u hp => ⟨u, hp, rfl⟩)
  refine alike_left hwithin hsafe ?_
  rintro a _ ⟨u, hp, rfl⟩
  exact h a u hp

theorem alike_within_right {safe : Prop} {part : τ → υ} {put : υ → τ → τ} {m : Mutation υ β}
    {Q : β → υ → Prop} {l : β → Mutation τ δ} {R' : α → σ → δ → τ → Prop}
    (hm : m.Meets (part t) safe Q) (hsafe : safe)
    (h : ∀ b u, Q b u → f.Alike (l b) s (put u t) R') :
    f.Alike (m.within part put >>= l) s t R' := by
  have hwithin : (m.within part put).Meets t safe fun b t' => ∃ u, Q b u ∧ t' = put u t :=
    meets_within.2 (hm.imp fun _ u hq => ⟨u, hq, rfl⟩)
  refine alike_right hwithin hsafe ?_
  rintro b _ ⟨u, hq, rfl⟩
  exact h b u hq

@[simp] theorem alike_get_left {k : σ → Mutation σ α} :
    ((get : Mutation σ σ) >>= k).Alike g s t R ↔ (k s).Alike g s t R := by
  unfold Alike
  rw [result_bind, result_get]

@[simp] theorem alike_get_right {l : τ → Mutation τ β} :
    f.Alike ((get : Mutation τ τ) >>= l) s t R ↔ f.Alike (l t) s t R := by
  unfold Alike
  rw [result_bind, result_get]

@[simp] theorem alike_set_left {k : PUnit → Mutation σ α} :
    ((set s' : Mutation σ PUnit) >>= k).Alike g s t R ↔ (k ⟨⟩).Alike g s' t R := by
  unfold Alike
  rw [result_bind, result_set]

@[simp] theorem alike_set_right {l : PUnit → Mutation τ β} :
    f.Alike ((set t' : Mutation τ PUnit) >>= l) s t R ↔ f.Alike (l ⟨⟩) s t' R := by
  unfold Alike
  rw [result_bind, result_set]

@[simp] theorem alike_modify_left {u : σ → σ} {k : PUnit → Mutation σ α} :
    ((modify u : Mutation σ PUnit) >>= k).Alike g s t R ↔ (k ⟨⟩).Alike g (u s) t R := by
  unfold Alike
  rw [result_bind, result_modify]

@[simp] theorem alike_modify_right {v : τ → τ} {l : PUnit → Mutation τ β} :
    f.Alike ((modify v : Mutation τ PUnit) >>= l) s t R ↔ f.Alike (l ⟨⟩) s (v t) R := by
  unfold Alike
  rw [result_bind, result_modify]

/-! ### One after the other -/

/-- From related states, `g` comes to what `φ` makes of what `f` comes to, and leaves related states. -/
def Tracks (R : σ → τ → Prop) (φ : α → β) (f : Mutation σ α) (g : Mutation τ β) : Prop :=
  ∀ s t, R s t → f.Alike g s t fun a s' b t' => b = φ a ∧ R s' t'

section Tracks

variable {R : σ → τ → Prop} {φ : α → β} {ψ : γ → δ}

theorem tracks_pure {a : α} {b : β} (h : b = φ a) : Tracks R φ (pure a) (pure b) :=
  fun _ _ hst => ⟨h, hst⟩

theorem tracks_throw (e e' : Fault) : Tracks R φ (throw e) (throw e') := fun _ _ _ => trivial

theorem Tracks.bind {k : α → Mutation σ γ} {l : β → Mutation τ δ} (h : Tracks R φ f g)
    (hk : ∀ a, Tracks R ψ (k a) (l (φ a))) : Tracks R ψ (f >>= k) (g >>= l) := by
  intro s t hst
  refine alike_bind ((h s t hst).imp ?_)
  rintro a s' _ t' ⟨rfl, hst'⟩
  exact hk a s' t' hst'

theorem tracks_get {k : σ → Mutation σ α} {l : τ → Mutation τ β}
    (h : ∀ s t, R s t → (k s).Alike (l t) s t fun a s' b t' => b = φ a ∧ R s' t') :
    Tracks R φ (get >>= k) (get >>= l) := by
  intro s t hst
  rw [alike_get_left, alike_get_right]
  exact h s t hst

theorem tracks_modify {u : σ → σ} {v : τ → τ} (h : ∀ s t, R s t → R (u s) (v t)) :
    Tracks R id (modify u) (modify v) := fun s t hst => ⟨rfl, h s t hst⟩

theorem tracks_mapM {f : α → Mutation σ γ} {g : α → Mutation τ δ} (h : ∀ a, Tracks R ψ (f a) (g a))
    (as : List α) : Tracks R (List.map ψ) (as.mapM f) (as.mapM g) := by
  induction as with
  | nil => exact tracks_pure rfl
  | cons a as ih =>
    rw [List.mapM_cons, List.mapM_cons]
    exact (h a).bind fun b => ih.bind fun bs => tracks_pure rfl

theorem tracks_forM {χ : α → β} {f : α → Mutation σ PUnit} {g : β → Mutation τ PUnit}
    (h : ∀ a, Tracks R id (f a) (g (χ a))) (as : List α) :
    Tracks R id (as.forM f) ((as.map χ).forM g) := by
  induction as with
  | nil => exact tracks_pure rfl
  | cons a as ih => exact (h a).bind fun _ => ih

/-- What is run on parts that are related, and put back. -/
theorem Tracks.within {ρ π : Type} {R' : ρ → π → Prop} {f : Mutation ρ α} {g : Mutation π β}
    {part : σ → ρ} {put : ρ → σ → σ} {part' : τ → π} {put' : π → τ → τ} (h : Tracks R' φ f g)
    (hpart : ∀ s t, R s t → R' (part s) (part' t))
    (hput : ∀ s t x y, R s t → R' x y → R (put x s) (put' y t)) :
    Tracks R φ (f.within part put) (g.within part' put') := by
  intro s t hst
  have hparts := h (part s) (part' t) (hpart s t hst)
  unfold Alike at *
  rw [result_within, result_within]
  generalize f.result (part s) = x at hparts ⊢
  generalize g.result (part' t) = y at hparts ⊢
  rcases x with ⟨_ | a, x⟩ <;> rcases y with ⟨_ | b, y⟩
  · trivial
  · exact hparts
  · exact hparts
  · exact ⟨hparts.1, hput s t x y hst hparts.2⟩

end Tracks

end TileStore.Mutation
