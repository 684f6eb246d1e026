import TileStore.Proofs.Agreement
import TileStore.Proofs.Dates
import TileStore.Proofs.Linked.Clock
import TileStore.Proofs.Watched

/-!
# Look-ups in lists

To look up several tiles is to look them up one after the other: `Request.getAll_unfolds`. A linked cache
counts the look-ups of a list when all are done, but none of them goes by the counters. And the answer to a
list shows every entry as it is in the end; as all uses are at the same time, that is how the entry was when
it was found.
-/

namespace TileStore

open Mutation

variable {m : Moment}

/-! ### Counting later -/

theorem Mutation.mapM_map {σ α β γ : Type} (k : β → γ) (f : α → Mutation σ β) (xs : List α) :
    (xs.mapM fun x => k <$> f x) = List.map k <$> xs.mapM f := by
  induction xs with
  | nil => rfl
  | cons x xs ih =>
    rw [List.mapM_cons, List.mapM_cons, ih]
    simp only [map_eq_pure_bind, bind_assoc, pure_bind, List.map_cons]

/-- What the mutations ignore may be done when all of them are through. -/
theorem Mutation.alike_deferred {σ α β : Type} {f : α → Mutation σ β} {u : β → σ → σ}
    (h : ∀ b x, Ignores (u b) (f x)) (xs : List α) (s : σ) :
    (do let bs ← xs.mapM f
        bs.forM fun b => modify (u b)
        return bs).Alike (xs.mapM fun x => do
          let b ← f x
          modify (u b)
          return b) s s fun bs s' bs' t' => bs' = bs ∧ t' = s' := by
  induction xs generalizing s with
  | nil => exact ⟨rfl, rfl⟩
  | cons x xs ih =>
    let later : Mutation σ (List β) := do
      let bs ← xs.mapM f
      bs.forM fun b => modify (u b)
      return bs
    rw [List.mapM_cons, List.mapM_cons]
    simp only [bind_assoc, pure_bind]
    refine alike_bind ((alike_self (f x) s).imp ?_)
    rintro _ _ b s₁ ⟨rfl, rfl⟩
    rw [alike_modify_right]
    -- what is due for the first one may be done before the others are seen to
    have hfirst : (do
          let bs ← xs.mapM f
          (b :: bs).forM fun b => modify (u b)
          return b :: bs).Alike ((b :: ·) <$> later) s₁ (u b s₁)
        fun bs s' bs' t' => bs' = bs ∧ t' = s' := by
      simp only [later, map_eq_pure_bind, bind_assoc, pure_bind]
      refine alike_bind ((((alike_self _ s₁).change_left (ignores_mapM (h b) xs s₁)).symm).imp ?_)
      rintro bs _ _ s₂ ⟨_, rfl, rfl, rfl⟩
      have hcons : ((b :: bs).forM fun b => modify (u b) : Mutation σ PUnit) =
          modify (u b) >>= fun _ => bs.forM fun b => modify (u b) := rfl
      rw [hcons, bind_assoc, alike_modify_left]
      exact alike_self _ _
    have hothers : ((b :: ·) <$> later).Alike ((b :: ·) <$> xs.mapM fun x => do
          let b ← f x
          modify (u b)
          return b) (u b s₁) (u b s₁) fun bs s' bs' t' => bs' = bs ∧ t' = s' :=
      alike_map ((ih _).imp fun bs _ bs' _ h => ⟨congrArg (b :: ·) h.1, h.2⟩)
    rw [← map_eq_pure_bind]
    refine (hfirst.trans hothers).imp ?_
    rintro _ _ _ _ ⟨_, _, ⟨rfl, rfl⟩, rfl, rfl⟩
    exact ⟨rfl, rfl⟩

/-- A linked cache may count each look-up of a list at once. -/
theorem Linked.getAll_unfolds (m : Moment) (ks : List TileKey) (v : Linked) :
    (getAll m ks).Alike (ks.mapM (get? m)) v v fun found v' found' w' =>
      found' = found ∧ w' = v' :=
  alike_deferred (f := find m) (u := fun found v => v.count (.lookup found.isSome))
    (fun found k => ignores_find (g := (·.count (.lookup found.isSome))) m k) ks v

/-! ### Times -/

namespace Register

variable {r : Register} {i j now : Nat}

/-- It does not matter which of two uses at the same time is noted first. -/
theorem touch_comm (r : Register) (i j now : Nat) :
    (r.touch i now).touch j now = (r.touch j now).touch i now := by
  refine congrArg Register.mk (Array.ext_getElem? fun k => ?_)
  unfold touch
  simp only [Array.getElem?_modify]
  split <;> split <;> rfl

/-- Nor does it matter how often a use is noted. -/
theorem touch_touch (r : Register) (i now : Nat) :
    (r.touch i now).touch i now = r.touch i now := by
  refine congrArg Register.mk (Array.ext_getElem? fun k => ?_)
  unfold touch
  simp only [Array.getElem?_modify]
  split
  · cases r.statuses[k]? <;> simp [Status.touch]
  · rfl

/-- Where a use has been noted already, noting another one does not show. -/
theorem status_touch_of_touched (h : r.touch i now = r) (j : Nat) :
    (r.touch j now).status i = r.status i := by
  by_cases hij : j = i
  · rw [hij, h]
  · unfold status touch
    rw [Array.getElem?_modify, if_neg hij]

end Register

theorem Linked.get?_register (m : Moment) (k : TileKey) (v : Linked) :
    (get? m k).Meets v False fun found v' =>
      v'.register = found.elim v.register fun e => v.register.touch e.seq m.now := by
  unfold get? find
  simp only [bind_assoc, meets_bind]
  refine (Vault.register_inStore _ v).imp fun found v₁ h₁ => ?_
  cases found with
  | none => exact h₁
  | some e => exact congrArg (Register.touch · e.seq m.now) h₁

theorem Sharded.get?_register (m : Moment) (k : TileKey) (v : Sharded) :
    (get? m k).Meets v False fun found v' => v'.ledger.trackRecency = v.ledger.trackRecency ∧
      v'.register = if v.ledger.trackRecency then
        found.elim v.register fun e => v.register.touch e.seq m.now else v.register := by
  unfold get?
  rw [meets_bind, meets_get]
  cases v.store.get? k with
  | none => exact ⟨rfl, (ite_self _).symm⟩
  | some e =>
    refine meets_bind.2 (meets_set.2 (meets_pure.2 ?_))
    by_cases htrack : v.ledger.trackRecency = true
    · rw [if_pos htrack, if_pos htrack]
      exact ⟨rfl, rfl⟩
    · rw [if_neg htrack, if_neg htrack]
      exact ⟨rfl, rfl⟩

/-! ### One after the other -/

namespace Cache

variable {c : Cache} {e : Entry}

theorem result_linked {α : Type} (f : Mutation Linked α) (g : Mutation Sharded α) (v : Linked) :
    (byLayout f g).result (linked v) = ((f.result v).1, linked (f.result v).2) := rfl

theorem result_sharded {α : Type} (f : Mutation Linked α) (g : Mutation Sharded α) (v : Sharded) :
    (byLayout f g).result (sharded v) = ((g.result v).1, sharded (g.result v).2) := rfl

theorem byLayout_pure {α : Type} (a : α) : byLayout (pure a) (pure a) = pure a := by
  funext c
  cases c <;> rfl

theorem byLayout_bind {α β : Type} (f : Mutation Linked α) (g : Mutation Sharded α)
    (f' : α → Mutation Linked β) (g' : α → Mutation Sharded β) :
    (byLayout f g >>= fun a => byLayout (f' a) (g' a)) = byLayout (f >>= f') (g >>= g') := by
  have hresult : ∀ c, (byLayout f g >>= fun a => byLayout (f' a) (g' a)).result c =
      (byLayout (f >>= f') (g >>= g')).result c := by
    intro c
    cases c with
    | linked v =>
      simp only [result_linked, Mutation.result_bind]
      rcases f.result v with ⟨_ | a, v'⟩ <;> rfl
    | sharded v =>
      simp only [result_sharded, Mutation.result_bind]
      rcases g.result v with ⟨_ | a, v'⟩ <;> rfl
  exact funext hresult

/-- One computation after the other is done in the layout at hand. -/
theorem mapM_byLayout {α β : Type} (f : α → Mutation Linked β) (g : α → Mutation Sharded β)
    (xs : List α) :
    (xs.mapM fun x => byLayout (f x) (g x)) = byLayout (xs.mapM f) (xs.mapM g) := by
  induction xs with
  | nil => exact (byLayout_pure []).symm
  | cons x xs ih =>
    rw [List.mapM_cons, List.mapM_cons, List.mapM_cons, ih]
    simp only [← byLayout_pure, byLayout_bind]

/-- What is looked up together is looked up one after the other. -/
theorem lookupAll_unfolds (m : Moment) (image : Identity) (points : List Position) (c : Cache) :
    (lookupAll m image points).Alike (points.mapM (lookup m image)) c c fun found c' found' d' =>
      found' = found ∧ d' = c' := by
  have hlookups : points.mapM (lookup m image) =
      byLayout ((points.map (TileKey.of image)).mapM (Linked.get? m))
        ((points.map (TileKey.of image)).mapM (Sharded.get? m)) := by
    rw [List.mapM_map, List.mapM_map]
    exact mapM_byLayout _ _ points
  rw [hlookups]
  cases c with
  | linked v =>
    refine alike_linked.2 ((Linked.getAll_unfolds m _ v).imp ?_)
    rintro _ _ _ _ ⟨rfl, rfl⟩
    exact ⟨rfl, rfl⟩
  | sharded v =>
    refine alike_sharded.2 ((alike_self _ v).imp ?_)
    rintro _ _ _ _ ⟨rfl, rfl⟩
    exact ⟨rfl, rfl⟩

/-! ### What answers show -/

/-- To note that the entry is used now makes no difference. -/
def Steady (m : Moment) (c : Cache) (e : Entry) : Prop :=
  c.notesLookups = true → c.register.touch e.seq m.now = c.register

theorem status_eq (c : Cache) (e : Entry) : c.status e = c.register.status e.seq := by
  cases c <;> rfl

/-- A look-up notes of what it finds that it is used now, if that is of use. -/
theorem lookup_register (m : Moment) (image : Identity) (p : Position) (c : Cache) :
    (lookup m image p).Meets c False fun found c' => c'.notesLookups = c.notesLookups ∧
      c'.register = if c.notesLookups then
        found.elim c.register fun e => c.register.touch e.seq m.now else c.register := by
  cases c with
  | linked v =>
    exact meets_byLayout_linked.2 ((Linked.get?_register m _ v).imp fun _ _ h => ⟨rfl, h⟩)
  | sharded v => exact meets_byLayout_sharded.2 (Sharded.get?_register m _ v)

/-- A look-up leaves what it finds steady, and what was steady before. -/
theorem lookup_steady (m : Moment) (image : Identity) (p : Position) (c : Cache) :
    (lookup m image p).Meets c False fun found c' => (∀ e ∈ found, c'.Steady m e) ∧
      ∀ e, c.Steady m e → c'.Steady m e ∧ c'.status e = c.status e := by
  refine (lookup_register m image p c).imp fun found c' ⟨hnotes, hregister⟩ => ?_
  unfold Steady
  simp only [hnotes, status_eq]
  rw [hregister]
  cases hon : c.notesLookups with
  | false =>
    simp
  | true =>
    simp only [if_true, forall_const]
    cases found with
    | none => simp
    | some f =>
      simp only [Option.elim_some, Option.mem_def, Option.some.injEq, forall_eq']
      refine ⟨Register.touch_touch .., fun e he => ⟨?_, Register.status_touch_of_touched he _⟩⟩
      rw [Register.touch_comm, he]

/-- It makes no difference whether what was found is shown at once or in the end. -/
theorem sights_unfold (m : Moment) (image : Identity) (points : List Position) (c : Cache) :
    (points.mapM (lookup m image)).Alike (points.mapM fun p => do
        let found ← lookup m image p
        let c ← get
        return found.map (c.sight m)) c c fun found c' seen d' =>
      (seen = found.map (·.map (c'.sight m)) ∧ d' = c') ∧
        ∀ e, c.Steady m e → c'.status e = c.status e := by
  induction points generalizing c with
  | nil => exact ⟨⟨rfl, rfl⟩, fun _ _ => rfl⟩
  | cons p points ih =>
    rw [List.mapM_cons, List.mapM_cons]
    simp only [bind_assoc, pure_bind]
    refine alike_bind (((alike_self _ c).and_meets (lookup_steady m image p c)
      (meets_any _ c)).imp ?_)
    rintro _ _ found c₁ ⟨⟨rfl, rfl⟩, ⟨hfound, hsteady⟩, -⟩
    rw [alike_get_right]
    refine alike_bind ((ih c₁).imp ?_)
    rintro founds _ _ c' ⟨⟨rfl, rfl⟩, hstatus⟩
    have hseen : found.map (c₁.sight m) = found.map (c'.sight m) :=
      Option.map_congr fun e he => congrArg (Sighting.mk e · _) (hstatus e (hfound e he)).symm
    refine alike_pure.2 ⟨⟨congrArg (· :: _) hseen, rfl⟩, fun e he => ?_⟩
    obtain ⟨he₁, hsame⟩ := hsteady e he
    exact (hstatus e he₁).trans hsame

end Cache

/-! ### Requests -/

namespace Request

/-- What nothing needs to be done after is settled when it is answered. -/
theorem settle_of_silent {q : Request Owner Identity} {f : Mutation Cache Reply}
    (h : q.perform m = (·, []) <$> f) :
    q.settle m = (fun reply => { reply := reply, victims := [], events := [] }) <$> f := by
  unfold settle
  rw [h]
  simp only [map_eq_pure_bind, bind_assoc, pure_bind]
  refine bind_congr fun reply => ?_
  have hnothing : (modify (·.countAll (Notice.counted [])) : Mutation Cache PUnit) = pure ⟨⟩ := rfl
  rw [hnothing, pure_bind]
  funext c
  refine congrArg (fun events => (Except.ok ({ reply, victims := [], events } : Upshot), c)) ?_
  exact ite_self _

/-- To look up a list of tiles is to look them up one after the other. -/
theorem getAll_unfolds (m : Moment) (image : Identity) (points : List Position) (c : Cache) :
    ((getAll image points).settle m).Alike (points.mapM fun p => (get image p).settle m) c c
      fun x c' ys d' => d' = c' ∧ ∃ seen, x = ⟨.entries seen, [], []⟩ ∧
        ys = seen.map fun s => ⟨.entry s, [], []⟩ := by
  have hall : (getAll image points).perform m = (·, []) <$> (do
      let found ← Cache.lookupAll m image points
      let c ← MonadState.get
      return .entries (found.map (·.map (c.sight m)))) := by
    simp only [perform, map_eq_pure_bind, bind_assoc, pure_bind]
  have hget : ∀ p, (get image p).perform m = (·, []) <$> (Reply.entry <$> (do
      let found ← Cache.lookup m image p
      let c ← MonadState.get
      return found.map (c.sight m))) := by
    intro p
    simp only [perform, map_eq_pure_bind, bind_assoc, pure_bind]
  simp only [settle_of_silent hall, settle_of_silent (hget _), mapM_map]
  refine alike_map_left (alike_map_right (alike_map_right (alike_bind_left
    (((Cache.lookupAll_unfolds m image points c).trans
      (Cache.sights_unfold m image points c)).imp ?_))))
  rintro _ _ seen c' ⟨found, _, ⟨rfl, rfl⟩, ⟨rfl, rfl⟩, -⟩
  rw [alike_get_left]
  refine ⟨rfl, _, rfl, ?_⟩
  rw [List.map_map]
  rfl

end Request

end TileStore
