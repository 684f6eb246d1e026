import TileStore.Proofs.Register

/-!
# What a linked cache notes of its entries

A write marks the entries that it evicts, and the entry itself if it replaced another: `write_marks`.
Removals mark what they remove. A look-up notes when it was, of what it finds.
-/

namespace TileStore

open Vault

namespace Linked

variable {v w : Linked} {k : TileKey} {used : List Entry}

/-! ### Marks -/

theorem evictSlot_marks (slot : Nat) (v : Linked) :
    (evictSlot slot).Meets v False fun e v' => v'.register = v.register.mark e.seq .evicted := by
  unfold evictSlot
  rw [Mutation.meets_bind]
  refine (register_inStore _ v).imp fun e v₁ h₁ => ?_
  rw [Mutation.meets_bind]
  refine (register_account none (some e) v₁).imp fun _ v₂ h₂ => ?_
  exact congrArg (Register.mark · e.seq .evicted) (h₂.trans h₁)

theorem evictListed_marks (target : UInt64) (slots : List Nat) (v : Linked) :
    (evictListed target slots).Meets v False fun es v' =>
      v'.register = v.register.markAll .evicted es := by
  induction slots generalizing v with
  | nil => exact rfl
  | cons slot slots ih =>
    rw [evictListed, Mutation.meets_bind, Mutation.meets_get]
    split
    · exact rfl
    · rw [Mutation.meets_bind]
      refine (evictSlot_marks slot v).imp fun e v₁ he => ?_
      rw [Mutation.meets_bind]
      exact (ih v₁).imp fun es v' hes => hes.trans (congrArg (Register.markAll · .evicted es) he)

theorem evictScheduled_marks (target : UInt64) (protect : Option TileKey) (fuel : Nat) (v : Linked) :
    (evictScheduled target protect fuel).Meets v False fun es v' =>
      v'.register = v.register.markAll .evicted es := by
  induction fuel generalizing v with
  | zero => exact rfl
  | succ fuel ih =>
    rw [evictScheduled, Mutation.meets_bind, Mutation.meets_get]
    split
    · exact rfl
    · cases v.store.cheapest? protect with
      | none => exact rfl
      | some slot =>
        dsimp only
        rw [Mutation.meets_bind]
        refine (evictSlot_marks slot v).imp fun e v₁ he => ?_
        rw [Mutation.meets_bind]
        exact (ih v₁).imp fun es v' hes => hes.trans (congrArg (Register.markAll · .evicted es) he)

/-- A pass marks its victims. -/
theorem evict_marks (m : Moment) (protect : Option TileKey) (v : Linked) :
    (evict m protect).Meets v False fun pass v' =>
      v'.register = v.register.markAll .evicted pass.victims := by
  unfold evict
  rw [Mutation.meets_bind, Mutation.meets_get]
  dsimp only
  split
  · exact rfl
  · simp only [Mutation.meets_bind, Mutation.meets_set, Mutation.meets_get]
    refine (evictListed_marks _ _ _).imp fun swept v₁ hswept => ?_
    refine (evictScheduled_marks _ _ _ v₁).imp fun scheduled v' hscheduled => ?_
    rw [Mutation.meets_pure, passRecord, Register.markAll, List.foldl_append]
    exact hscheduled.trans (congrArg (Register.markAll · .evicted scheduled) hswept)

/-- An entry that replaces another is marked. -/
theorem put_marks (e : Entry) (v : Linked) :
    (put e).Meets v False fun replaced v' =>
      v'.register = if replaced then v.register.mark e.seq .updated else v.register := by
  unfold put
  rw [Mutation.meets_bind]
  refine (register_inStore _ v).imp fun replaced v₁ h₁ => ?_
  cases replaced with
  | none =>
    refine Mutation.meets_bind.2 ((register_account _ _ v₁).imp fun _ v' h => ?_)
    exact h.trans h₁
  | some old =>
    refine Mutation.meets_bind.2 (Mutation.meets_modify.2 (Mutation.meets_bind.2 ?_))
    refine (register_account _ _ _).imp fun _ v' h => ?_
    exact h.trans (congrArg (Register.mark · e.seq .updated) h₁)

theorem restoreBound_marks (m : Moment) (e : Entry) (v : Linked) :
    (restoreBound m e).Meets v False fun pass v' =>
      v'.register = v.register.markAll .evicted pass.victims := by
  unfold restoreBound
  rw [Mutation.meets_bind, Mutation.meets_get]
  split
  · exact Mutation.meets_bind.2 (evict_marks m _ v)
  · exact rfl

/-- What a write notes. -/
def Written.marks (w : Written) (r : Register) : Register :=
  (if w.replaced then r.mark w.entry.seq .updated else r).markAll .evicted w.pass.victims

theorem write_marks (m : Moment) (e : Entry) (v : Linked) :
    (write m e).Meets v False fun w v' => w.entry = e ∧ v'.register = w.marks v.register := by
  rw [write_eq, Mutation.meets_bind]
  refine (put_marks e v).imp fun replaced v₁ h₁ => ?_
  rw [Mutation.meets_bind]
  refine (restoreBound_marks m e v₁).imp fun pass v' h => ⟨rfl, ?_⟩
  rw [Written.marks, ← h₁]
  exact h

/-- A removed entry is marked. -/
theorem remove_marks (k : TileKey) (v : Linked) :
    (remove k).Meets v False fun x v' => x.2 = x.1.elim [] (Notice.removed [·]) ∧
      v'.register = v.register.markAll .removed x.1.toList := by
  unfold remove
  rw [Mutation.meets_bind]
  refine (register_inStore _ v).imp fun found v₁ h₁ => ?_
  cases found with
  | none => exact ⟨rfl, h₁⟩
  | some e =>
    unfold discharge
    simp only [Mutation.meets_bind]
    refine (register_account none (some e) v₁).imp fun _ v₂ h₂ => ?_
    refine Mutation.meets_pure.2 ((dismiss_marks [e] v₂).imp ?_)
    rintro _ _ ⟨rfl, rfl⟩
    exact ⟨rfl, congrArg (Register.markAll · .removed [e]) (h₂.trans h₁)⟩

theorem removeImage_marks (image : Identity) (h : v.Sound) :
    (removeImage image).Meets v False fun x v' => ∃ es : List Entry,
      x.2 = Notice.removed es ++ [.log (.imageRemoved image es.length)] ∧
        v'.register = v.register.markAll .removed es := by
  refine (removeImage_covers image h).mono False.elim ?_
  rintro _ v' ⟨-, rfl, hmarks⟩
  exact ⟨_, rfl, hmarks⟩

theorem flush_marks (v : Linked) :
    flush.Meets v False fun notices v' => ∃ es : List Entry,
      notices = Notice.removed es ++ [.log (.flushed es.length)] ∧
        v'.register = v.register.markAll .removed es := by
  refine (flush_covers v).mono False.elim ?_
  rintro _ v' ⟨-, rfl, hmarks⟩
  exact ⟨_, rfl, hmarks⟩

/-! ### Dates -/

theorem Written.dates (now : Nat) (w : Written) (r : Register) :
    Register.Dates now 0 [] r (w.marks r) := by
  have hreplaced : Register.Dates now 0 []
      r (if w.replaced then r.mark w.entry.seq .updated else r) := by
    split
    · exact r.dates_mark now w.entry.seq .updated
    · exact .refl now r
  exact hreplaced.trans (Register.dates_of_markAll now rfl)

theorem put_dates (now : Nat) (e : Entry) (v : Linked) :
    (put e).Meets v False fun _ v' => Register.Dates now 0 [] v.register v'.register := by
  refine (put_marks e v).imp fun replaced v' hmarks => ?_
  rw [hmarks]
  split
  · exact v.register.dates_mark now e.seq .updated
  · exact .refl _ _

theorem write_dates (m : Moment) (e : Entry) (v : Linked) :
    (write m e).Meets v False fun _ v' => Register.Dates m.now 0 [] v.register v'.register :=
  (write_marks m e v).imp fun w _ h => h.2 ▸ w.dates m.now v.register

theorem writes_dates (m : Moment) (es : List Entry) (v : Linked) :
    (es.mapM (write m)).Meets v False fun _ v' => Register.Dates m.now 0 [] v.register v'.register := by
  refine (Mutation.meets_mapM (R := fun _ _ _ _ => True)
    (fun _ w => Register.Dates m.now 0 [] v.register w.register) ?_ es v (.refl _ _)).imp
    fun _ _ h => h.2
  intro e es w hw
  exact (write_dates m e w).imp fun _ _ h => ⟨trivial, hw.trans h⟩

theorem add_dates (m : Moment) (owner : Owner) (p : Position) (payload : Payload)
    (cost : Option Binary64) (v : Linked) :
    (add m owner p payload cost).Meets v False fun _ v' =>
      Register.Dates m.now 1 [v.register.size] v.register v'.register := by
  unfold add
  rw [Mutation.meets_bind]
  refine (newEntry_dates owner p payload cost v).imp fun e v₁ he => ?_
  rw [Mutation.meets_bind]
  exact (write_dates m e v₁).imp fun _ _ hw => he.trans hw

theorem addBatch_dates (m : Moment) (owner : Owner)
    (tiles : List (Position × Payload × Option Binary64)) (v : Linked) :
    (addBatch m owner tiles).Meets v False fun _ v' =>
      Register.Dates m.now tiles.length (List.range' v.register.size tiles.length) v.register
        v'.register := by
  unfold addBatch
  rw [Mutation.meets_bind]
  refine (newEntries_dates owner tiles v).imp fun es v₁ hes => ?_
  rw [Mutation.meets_bind]
  refine (writes_dates m es v₁).imp fun _ v' hws => ?_
  have hboth := hes.trans hws
  rwa [List.append_nil] at hboth

theorem register_foldl_count (found : List (Option Entry)) (v : Linked) :
    (found.foldl (fun v f => v.count (.lookup f.isSome)) v).register = v.register := by
  induction found generalizing v with
  | nil => rfl
  | cons f found ih => exact ih (v.count _)

/-- What is found is used. -/
theorem find_dates (m : Moment) (k : TileKey) (h : v.Sound)
    (hlt : ∀ {e}, v.tiles k = some e → e.seq < v.register.size) :
    (find m k).Meets v False fun _ v' =>
      Register.Dates m.now 0 (seqsFound true v.tiles [k]) v.register v'.register := by
  unfold find seqsFound
  rw [if_pos rfl, List.filterMap_cons, List.filterMap_nil]
  simp only [Mutation.meets_bind, inStore, Mutation.meets_within]
  refine (LinkedStore.use_meets h.valid k).mono (fun h => h.elim) ?_
  rintro found s' ⟨-, hfound, -⟩
  change found = v.tiles k at hfound
  rw [← hfound]
  cases found with
  | none => exact .refl _ _
  | some e =>
    refine Mutation.meets_bind.2 (Mutation.meets_modify.2 ?_)
    exact Register.dates_touch m.now (hlt hfound.symm)

theorem get?_dates (m : Moment) (k : TileKey) (h : v.Sound)
    (hlt : ∀ {e}, v.tiles k = some e → e.seq < v.register.size) :
    (get? m k).Meets v False fun _ v' =>
      Register.Dates m.now 0 (seqsFound true v.tiles [k]) v.register v'.register := by
  unfold get?
  rw [Mutation.meets_bind]
  exact find_dates m k h hlt

theorem getAll_dates (m : Moment) (ks : List TileKey) (h : v.Sound)
    (hlt : ∀ {k e}, v.tiles k = some e → e.seq < v.register.size) :
    (getAll m ks).Meets v False fun _ v' =>
      Register.Dates m.now 0 (seqsFound true v.tiles ks) v.register v'.register := by
  have hfinds := lookUps_dates (fun _ => true) (fun _ _ => rfl)
    (fun k w hw => (find_meets m k hw).imp fun _ _ hfound => ⟨hfound.1, hfound.2.1⟩)
    (fun k w => find_dates m k) ks h hlt
  unfold getAll
  rw [Mutation.meets_bind]
  refine hfinds.imp fun found w hw => ?_
  rw [Mutation.meets_bind]
  refine Mutation.meets_of_result (Mutation.result_forM_modify _ found w) ?_
  rw [Mutation.meets_pure, register_foldl_count]
  exact hw

theorem remove_dates (now : Nat) (k : TileKey) (v : Linked) :
    (remove k).Meets v False fun _ v' => Register.Dates now 0 [] v.register v'.register :=
  (remove_marks k v).imp fun _ _ h => Register.dates_of_markAll now h.2

theorem removeImage_dates (now : Nat) (image : Identity) (h : v.Sound) :
    (removeImage image).Meets v False fun _ v' => Register.Dates now 0 [] v.register v'.register :=
  (removeImage_marks image h).imp fun _ _ ⟨_, _, h⟩ => Register.dates_of_markAll now h

theorem flush_dates (now : Nat) (v : Linked) :
    flush.Meets v False fun _ v' => Register.Dates now 0 [] v.register v'.register :=
  (flush_marks v).imp fun _ _ ⟨_, _, h⟩ => Register.dates_of_markAll now h

end Linked

end TileStore
