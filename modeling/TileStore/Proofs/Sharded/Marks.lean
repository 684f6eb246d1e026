import TileStore.Proofs.Register

/-!
# What a sharded cache notes of its entries

A write marks the entry if it replaced another, and a pass marks its victims. Removals mark what they
remove. A look-up notes when it was, of what it finds, if the cache keeps track of recency.
-/

namespace TileStore

open Vault

namespace Sharded

variable {v : Sharded}

/-! ### Marks -/

theorem evictEntry_marks (e : Entry) (v : Sharded) :
    (evictEntry e).Meets v False fun _ v' => v'.register = v.register.mark e.seq .evicted := by
  unfold evictEntry
  rw [Mutation.meets_bind]
  refine (register_inStore _ v).imp fun _ v₁ h₁ => ?_
  rw [Mutation.meets_bind]
  refine (register_inStore _ v₁).imp fun _ v₂ h₂ => ?_
  rw [Mutation.meets_bind]
  refine (register_account none (some e) v₂).imp fun _ v₃ h₃ => ?_
  exact congrArg (Register.mark · e.seq .evicted) (h₃.trans (h₂.trans h₁))

theorem evictSampled_marks (m : Moment) (target : UInt64) (protect : Option TileKey) (fuel : Nat)
    (v : Sharded) : (evictSampled m target protect fuel).Meets v False fun es v' =>
      v'.register = v.register.markAll .evicted es := by
  induction fuel generalizing v with
  | zero => exact rfl
  | succ fuel ih =>
    rw [evictSampled, Mutation.meets_bind, Mutation.meets_get]
    split
    · exact rfl
    · rw [Mutation.meets_bind, Mutation.meets_set]
      cases v.store.pick? (v.rank m) protect with
      | none => exact rfl
      | some e =>
        dsimp only
        rw [Mutation.meets_bind]
        refine (evictEntry_marks e _).imp fun _ v₁ he => ?_
        rw [Mutation.meets_bind]
        exact (ih v₁).imp fun es v' hes => hes.trans (congrArg (Register.markAll · .evicted es) he)

/-- A pass marks its victims. -/
theorem evict_marks (m : Moment) (protect : Option TileKey) (v : Sharded) :
    (evict m protect).Meets v False fun pass v' =>
      v'.register = v.register.markAll .evicted pass.victims := by
  unfold evict
  rw [Mutation.meets_bind, Mutation.meets_get]
  dsimp only
  split
  · exact rfl
  · exact Mutation.meets_bind.2 (evictSampled_marks m _ protect _ v)

theorem restoreBound_marks (m : Moment) (e : Entry) (v : Sharded) :
    (restoreBound m e).Meets v False fun pass v' =>
      v'.register = v.register.markAll .evicted pass.victims := by
  unfold restoreBound
  rw [Mutation.meets_bind, Mutation.meets_get]
  split
  · exact Mutation.meets_bind.2 (evict_marks m _ v)
  · exact rfl

/-- An entry that replaces another is marked. -/
theorem write_marks (e : Entry) (v : Sharded) :
    (write e).Meets v False fun replaced v' =>
      v'.register = if replaced then v.register.mark e.seq .updated else v.register := by
  unfold write
  rw [Mutation.meets_bind]
  refine (register_inStore _ v).imp fun replaced v₁ h₁ => ?_
  cases replaced with
  | none =>
    refine Mutation.meets_bind.2 ((register_account _ _ v₁).imp fun _ v' h => ?_)
    exact h.trans h₁
  | some old =>
    refine Mutation.meets_bind.2 (Mutation.meets_modify.2 (Mutation.meets_bind.2 ?_))
    refine (register_account _ _ _).imp fun _ v' h => ?_
    exact h.trans (congrArg (Register.mark · e.seq .updated) h₁)

theorem removeKeys_register (ks : List TileKey) (v : Sharded) :
    (removeKeys ks).Meets v False fun _ v' => v'.register = v.register := by
  unfold removeKeys
  refine (Mutation.meets_mapM (R := fun _ _ _ _ => True) (fun _ w => w.register = v.register) ?_ ks v
    rfl).imp fun _ _ h => h.2
  intro k ks w hw
  rw [Mutation.meets_bind]
  refine (register_inStore _ w).imp fun found w₁ h₁ => ?_
  cases found with
  | none => exact id
  | some e =>
    refine Mutation.meets_bind.2 ((register_account none (some e) w₁).imp fun _ w₂ h₂ => ?_)
    exact ⟨trivial, h₂.trans (h₁.trans hw)⟩

/-- A removed entry is marked. -/
theorem remove_marks (k : TileKey) (image : ImageKey) (v : Sharded) :
    (remove k image).Meets v False fun x v' => x.2 = x.1.elim [] (Notice.removed [·]) ∧
      v'.register = v.register.markAll .removed x.1.toList := by
  unfold remove
  rw [Mutation.meets_bind]
  refine (register_inStore _ v).imp fun found v₁ h₁ => ?_
  cases found with
  | none => exact ⟨rfl, h₁⟩
  | some e =>
    simp only [Mutation.meets_bind]
    refine (register_inStore _ v₁).imp fun _ v₂ h₂ => ?_
    refine (register_account none (some e) v₂).imp fun _ v₃ h₃ => ?_
    refine (dismiss_marks [e] v₃).imp ?_
    rintro _ _ ⟨rfl, rfl⟩
    exact ⟨rfl, congrArg (Register.markAll · .removed [e]) (h₃.trans (h₂.trans h₁))⟩

theorem removeImage_marks (image : Identity) (v : Sharded) :
    (removeImage image).Meets v False fun x v' => ∃ es : List Entry,
      x.2 = Notice.removed es ++ [.log (.imageRemoved image es.length)] ∧
        v'.register = v.register.markAll .removed es := by
  unfold removeImage
  simp only [Mutation.meets_bind, Mutation.meets_get, Mutation.meets_set]
  refine (removeKeys_register _ _).imp fun es v₁ h₁ => ?_
  refine (dismiss_marks es v₁).imp ?_
  rintro _ _ ⟨rfl, rfl⟩
  exact ⟨es, rfl, congrArg (Register.markAll · .removed es) h₁⟩

/-- All that is removed is marked in the end, whatever partition it was in. -/
theorem flush_marks (v : Sharded) :
    flush.Meets v False fun notices v' => ∃ es : List Entry,
      notices = Notice.removed es ++ [.log (.flushed es.length)] ∧
        v'.register = v.register.markAll .removed es := by
  unfold flush
  rw [Mutation.meets_bind, Mutation.meets_get, Mutation.meets_bind]
  refine (Mutation.meets_mapM (R := fun _ _ _ _ => True) (fun _ w => w.register = v.register) ?_ _ v
    rfl).imp ?_
  · intro i is w hw
    simp only [Mutation.meets_bind, Mutation.meets_get, Mutation.meets_set]
    exact (removeKeys_register _ _).imp fun _ _ h => ⟨trivial, h.trans hw⟩
  · rintro parts v₁ ⟨-, h₁⟩
    rw [Mutation.meets_bind]
    refine (dismiss_marks _ v₁).imp ?_
    rintro _ _ ⟨rfl, rfl⟩
    exact ⟨parts.flatten, rfl, congrArg (Register.markAll · .removed _) h₁⟩

/-! ### Dates -/

theorem write_dates (now : Nat) (e : Entry) (v : Sharded) :
    (write e).Meets v False fun _ v' => Register.Dates now 0 [] v.register v'.register := by
  refine (write_marks e v).imp fun replaced v' hmarks => ?_
  rw [hmarks]
  split
  · exact v.register.dates_mark now e.seq .updated
  · exact .refl _ _

theorem writes_dates (now : Nat) (es : List Entry) (v : Sharded) :
    (es.mapM fun e => return (e, ← write e)).Meets v False fun _ v' =>
      Register.Dates now 0 [] v.register v'.register := by
  refine (Mutation.meets_mapM (R := fun _ _ _ _ => True)
    (fun _ w => Register.Dates now 0 [] v.register w.register) ?_ es v (.refl _ _)).imp
    fun _ _ h => h.2
  intro e es w hw
  rw [Mutation.meets_bind]
  exact (write_dates now e w).imp fun _ _ h => ⟨trivial, hw.trans h⟩

theorem restoreBound_dates (m : Moment) (e : Entry) (v : Sharded) :
    (restoreBound m e).Meets v False fun _ v' =>
      Register.Dates m.now 0 [] v.register v'.register :=
  (restoreBound_marks m e v).imp fun _ _ h => Register.dates_of_markAll m.now h

theorem add_dates (m : Moment) (owner : Owner) (p : Position) (payload : Payload)
    (cost : Option Binary64) (v : Sharded) :
    (add m owner p payload cost).Meets v False fun _ v' =>
      Register.Dates m.now 1 [v.register.size] v.register v'.register := by
  unfold add
  rw [Mutation.meets_bind]
  refine (newEntry_dates owner p payload cost v).imp fun e v₁ he => ?_
  rw [Mutation.meets_bind]
  refine (write_dates m.now e v₁).imp fun _ v₂ hw => ?_
  rw [Mutation.meets_bind]
  exact (restoreBound_dates m e v₂).imp fun _ _ hpass => (he.trans hw).trans hpass

theorem addBatch_dates (m : Moment) (owner : Owner)
    (tiles : List (Position × Payload × Option Binary64)) (v : Sharded) :
    (addBatch m owner tiles).Meets v False fun _ v' =>
      Register.Dates m.now tiles.length (List.range' v.register.size tiles.length) v.register
        v'.register := by
  unfold addBatch
  rw [Mutation.meets_bind]
  refine (newEntries_dates owner tiles v).imp fun es v₁ hes => ?_
  cases es.getLast? with
  | none => exact hes
  | some last =>
    rw [Mutation.meets_bind]
    refine (writes_dates m.now es v₁).imp fun _ v₂ hws => ?_
    rw [Mutation.meets_bind]
    refine (restoreBound_dates m last v₂).imp fun _ v' hpass => ?_
    have hall := (hes.trans hws).trans hpass
    rwa [List.append_nil, List.append_nil] at hall

/-- What is found is used if recency is kept track of. -/
theorem get?_dates (m : Moment) (k : TileKey) (v : Sharded)
    (hlt : ∀ {e}, v.tiles k = some e → e.seq < v.register.size) :
    (get? m k).Meets v False fun _ v' =>
      Register.Dates m.now 0 (seqsFound v.ledger.trackRecency v.tiles [k]) v.register
        v'.register := by
  have htiles : v.tiles k = v.store.get? k := rfl
  unfold get? seqsFound
  rw [Mutation.meets_bind, Mutation.meets_get, List.filterMap_cons, List.filterMap_nil, htiles]
  rw [htiles] at hlt
  cases hfound : v.store.get? k with
  | none =>
    rw [List.map_nil, ite_self]
    exact .refl _ _
  | some e =>
    refine Mutation.meets_bind.2 (Mutation.meets_set.2 ?_)
    cases v.ledger.trackRecency with
    | true => exact Register.dates_touch m.now (hlt hfound)
    | false => exact .refl _ _

theorem getAll_dates (m : Moment) (ks : List TileKey) (h : v.Sound)
    (hlt : ∀ {k e}, v.tiles k = some e → e.seq < v.register.size) :
    (getAll m ks).Meets v False fun _ v' =>
      Register.Dates m.now 0 (seqsFound v.ledger.trackRecency v.tiles ks) v.register v'.register :=
  lookUps_dates (·.trackRecency) (fun _ _ => rfl) (fun k _ => get?_meets m k)
    (fun k w _ => get?_dates m k w) ks h hlt

theorem remove_dates (now : Nat) (k : TileKey) (image : ImageKey) (v : Sharded) :
    (remove k image).Meets v False fun _ v' =>
      Register.Dates now 0 [] v.register v'.register :=
  (remove_marks k image v).imp fun _ _ h => Register.dates_of_markAll now h.2

theorem removeImage_dates (now : Nat) (image : Identity) (v : Sharded) :
    (removeImage image).Meets v False fun _ v' =>
      Register.Dates now 0 [] v.register v'.register :=
  (removeImage_marks image v).imp fun _ _ ⟨_, _, h⟩ => Register.dates_of_markAll now h

theorem flush_dates (now : Nat) (v : Sharded) :
    flush.Meets v False fun _ v' => Register.Dates now 0 [] v.register v'.register :=
  (flush_marks v).imp fun _ _ ⟨_, _, h⟩ => Register.dates_of_markAll now h

end Sharded

end TileStore
