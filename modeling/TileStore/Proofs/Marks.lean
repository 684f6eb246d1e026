import TileStore.Proofs.Dates
import TileStore.Proofs.Events

/-!
# What requests mark

Every entry is made as one that was added. It is marked when it is written in place of another, and
whatever goes is marked when it goes: by a pass at once, by a removal when all is taken out. The
events of a request say the same, in the same order, and this is so even of a batch, whose tiles may
replace and evict one another. So what a request marks can be told from its events:
`Request.perform_marked`. It has all been done before the first of them is announced.
-/

namespace TileStore

open Vault
open Mutation (meets_bind meets_get meets_set meets_pure meets_map meets_mapM)

variable {m : Moment} {a : Action} {e : Entry} {xs ys : List Event} {n k : Nat}

/-- What an entry is marked with after an event. One that was added is marked so from the start. -/
def Action.noted (seq : Nat) (a : Action) (x : Event) : Action :=
  if x.1.seq = seq ∧ x.2 ≠ .added then x.2 else a

/-- Events of other entries are of no account. -/
theorem Action.foldl_noted_of_ne {seq : Nat} (h : ∀ x ∈ xs, x.1.seq ≠ seq) (a : Action) :
    xs.foldl (noted seq) a = a := by
  induction xs with
  | nil => rfl
  | cons x xs ih =>
    rw [List.foldl_cons, noted, if_neg fun hx => h x List.mem_cons_self hx.1]
    exact ih fun y hy => h y (List.mem_cons_of_mem x hy)

/-! ### Registers -/

namespace Register

variable {r r' r'' : Register}

/-- From one register to the other `n` entries were entered, and entries were marked as events have
it. -/
structure Marked (n : Nat) (xs : List Event) (r r' : Register) : Prop where
  size : r'.size = r.size + n
  action : ∀ i < r'.size, (r'.status i).action = xs.foldl (Action.noted i) (r.status i).action

theorem Marked.refl (r : Register) : Marked 0 [] r r := ⟨rfl, fun _ _ => rfl⟩

theorem Marked.trans (h : Marked n xs r r') (h' : Marked 0 ys r' r'') :
    Marked n (xs ++ ys) r r'' where
  size := h'.size.trans h.size
  action i hi := by
    rw [h'.action i hi, h.action i (by rwa [h'.size] at hi), List.foldl_append]

theorem action_of_size_le {i : Nat} (h : r.size ≤ i) : (r.status i).action = .added := by
  rw [status, Array.getElem?_eq_none h]
  rfl

/-- What has been entered only has not been marked. -/
theorem Marked.entered (h : Marked n [] r r') (h' : Marked k xs r' r'') :
    Marked (n + k) xs r r'' where
  size := by rw [h'.size, h.size, Nat.add_assoc]
  action i hi := by
    rw [h'.action i hi]
    congr 1
    by_cases hlt : i < r'.size
    · exact h.action i hlt
    · have hsize := h.size
      rw [action_of_size_le (r := r') (by omega), action_of_size_le (r := r) (by omega)]

theorem marked_enter (r : Register) (now : Nat) : Marked 1 [] r (r.enter now) where
  size := r.size_enter now
  action i _ := by
    rw [status_enter]
    split
    · next hi => rw [List.foldl_nil, action_of_size_le hi.ge]
    · rfl

theorem marked_touch (r : Register) (seq now : Nat) : Marked 0 [] r (r.touch seq now) where
  size := r.size_touch seq now
  action i _ := by
    unfold status touch
    rw [Array.getElem?_modify]
    split
    · cases r.statuses[i]? <;> rfl
    · rfl

theorem marked_mark (r : Register) (e : Entry) (ha : a ≠ .added) :
    Marked 0 [(e, a)] r (r.mark e.seq a) where
  size := r.size_mark e.seq a
  action i hi := by
    rw [size_mark] at hi
    rw [List.foldl_cons, List.foldl_nil, Action.noted]
    by_cases he : e.seq = i
    · rw [if_pos ⟨he, ha⟩, status_mark _ _ _ _ (he ▸ hi), if_pos he.symm]
      rfl
    · rw [if_neg fun h => he h.1]
      unfold status mark
      rw [Array.getElem?_modify, if_neg he]

theorem marked_of_markAll {es : List Entry} (ha : a ≠ .added) (h : r' = r.markAll a es) :
    Marked 0 (es.map (·, a)) r r' := by
  subst h
  induction es generalizing r with
  | nil => exact .refl r
  | cons e es ih => exact (r.marked_mark e ha).trans ih

/-- An entry is written and marked if it replaces another. -/
theorem marked_written (r : Register) (e : Entry) (replaced : Bool) :
    Marked 0 [(e, .ofWrite replaced)] r (if replaced then r.mark e.seq .updated else r) := by
  cases replaced with
  | true => exact r.marked_mark e (by decide)
  | false => exact ⟨rfl, fun i _ => by simp [Action.noted, Action.ofWrite]⟩

end Register

open Register (Marked)

/-! ### Making entries -/

namespace Vault

variable {σ : Type} {v : Vault σ}

theorem newEntry_marked (owner : Owner) (p : Position) (payload : Payload)
    (cost : Option Binary64) (v : Vault σ) :
    (newEntry m owner p payload cost).Meets v False fun _ v' =>
      Marked 1 [] v.register v'.register := v.register.marked_enter m.now

theorem newEntries_marked (owner : Owner) (tiles : List (Position × Payload × Option Binary64))
    (v : Vault σ) :
    (tiles.mapM fun (p, payload, cost) => newEntry m owner p payload cost).Meets v False fun _ v' =>
      Marked tiles.length [] v.register v'.register := by
  induction tiles generalizing v with
  | nil => exact .refl _
  | cons t tiles ih =>
    obtain ⟨p, payload, cost⟩ := t
    rw [List.mapM_cons, meets_bind]
    refine (newEntry_marked owner p payload cost v).imp fun e v₁ he => ?_
    rw [meets_bind]
    refine (ih v₁).imp fun es v' hes => ?_
    rw [List.length_cons, Nat.add_comm]
    exact he.entered hes

/-- Look-ups mark nothing. -/
theorem lookUps_marked {f : TileKey → Mutation (Vault σ) (Option Entry)}
    (hf : ∀ k w, (f k).Meets w False fun _ w' => Marked 0 [] w.register w'.register)
    (ks : List TileKey) (v : Vault σ) :
    (ks.mapM f).Meets v False fun _ v' => Marked 0 [] v.register v'.register := by
  refine (meets_mapM (R := fun _ _ _ _ => True) (fun _ w => Marked 0 [] v.register w.register) ?_
    ks v (.refl _)).imp fun _ _ h => h.2
  exact fun k ks w hw => (hf k w).imp fun _ _ h => ⟨trivial, hw.trans h⟩

end Vault

/-! ### Linked caches -/

namespace Linked

theorem Written.marked (w : Written) (r : Register) :
    Marked 0 (Notice.told w.notices) r (w.marks r) := by
  have htold : Notice.told w.notices =
      [(w.entry, .ofWrite w.replaced)] ++ w.pass.victims.map (·, .evicted) := by
    simp [Written.notices]
  rw [htold]
  exact (r.marked_written w.entry w.replaced).trans (Register.marked_of_markAll (by decide) rfl)

theorem writes_marked (m : Moment) (es : List Entry) (v : Linked) :
    (es.mapM (write m)).Meets v False fun ws v' =>
      Marked 0 (Notice.told (ws.flatMap Written.notices)) v.register v'.register := by
  induction es generalizing v with
  | nil => exact .refl _
  | cons e es ih =>
    rw [List.mapM_cons, meets_bind]
    refine (write_marks m e v).imp fun w v₁ hw => ?_
    rw [meets_bind]
    refine (ih v₁).imp fun ws v' hws => ?_
    rw [meets_pure, List.flatMap_cons, Notice.told_append]
    exact (hw.2 ▸ w.marked v.register).trans hws

theorem add_marked (m : Moment) (owner : Owner) (p : Position) (payload : Payload)
    (cost : Option Binary64) (v : Linked) :
    (add m owner p payload cost).Meets v False fun notices v' =>
      Marked 1 (Notice.told notices) v.register v'.register := by
  unfold add
  rw [meets_bind]
  refine (newEntry_marked owner p payload cost v).imp fun e v₁ he => ?_
  rw [meets_bind]
  refine (write_marks m e v₁).imp fun w v' hw => ?_
  rw [meets_pure, Notice.told_append, Notice.told_log]
  exact he.entered (hw.2 ▸ w.marked v₁.register)

theorem addBatch_marked (m : Moment) (owner : Owner)
    (tiles : List (Position × Payload × Option Binary64)) (v : Linked) :
    (addBatch m owner tiles).Meets v False fun notices v' =>
      Marked tiles.length (Notice.told notices) v.register v'.register := by
  unfold addBatch
  rw [meets_bind]
  refine (newEntries_marked owner tiles v).imp fun es v₁ hes => ?_
  rw [meets_bind]
  refine (writes_marked m es v₁).imp fun ws v' hws => ?_
  rw [meets_pure, Notice.told_append, Notice.told_log]
  exact hes.entered hws

theorem find_marked (m : Moment) (k : TileKey) (v : Linked) :
    (find m k).Meets v False fun _ v' => Marked 0 [] v.register v'.register := by
  unfold find
  rw [meets_bind]
  refine (register_inStore _ v).imp fun found v₁ h₁ => ?_
  rw [← h₁]
  cases found with
  | none => exact .refl _
  | some e => exact v₁.register.marked_touch e.seq m.now

theorem get?_marked (m : Moment) (k : TileKey) (v : Linked) :
    (get? m k).Meets v False fun _ v' => Marked 0 [] v.register v'.register :=
  meets_bind.2 (find_marked m k v)

theorem getAll_marked (m : Moment) (ks : List TileKey) (v : Linked) :
    (getAll m ks).Meets v False fun _ v' => Marked 0 [] v.register v'.register := by
  unfold getAll
  rw [meets_bind]
  refine (lookUps_marked (find_marked m) ks v).imp fun found w hw => ?_
  rw [meets_bind]
  refine Mutation.meets_of_result (Mutation.result_forM_modify _ found w) ?_
  rw [meets_pure, register_foldl_count]
  exact hw

end Linked

/-! ### Sharded caches -/

namespace Sharded

theorem writes_marked (es : List Entry) (v : Sharded) :
    (es.mapM fun e => return (e, ← write e)).Meets v False fun ws v' =>
      Marked 0 (Notice.told (ws.flatMap fun (e, replaced) => Notice.written e replaced))
        v.register v'.register := by
  induction es generalizing v with
  | nil => exact .refl _
  | cons e es ih =>
    rw [List.mapM_cons, meets_bind, meets_bind]
    refine (write_marks e v).imp fun replaced v₁ hw => ?_
    rw [meets_pure, meets_bind]
    refine (ih v₁).imp fun ws v' hws => ?_
    rw [meets_pure, List.flatMap_cons, Notice.told_append]
    exact (hw ▸ v.register.marked_written e replaced).trans hws

theorem restoreBound_marked (m : Moment) (e : Entry) (v : Sharded) :
    (restoreBound m e).Meets v False fun pass v' =>
      Marked 0 (Notice.told (Notice.evicted pass.victims)) v.register v'.register := by
  refine (restoreBound_marks m e v).imp fun pass v' h => ?_
  rw [Notice.told_evicted]
  exact Register.marked_of_markAll (by decide) h

theorem add_marked (m : Moment) (owner : Owner) (p : Position) (payload : Payload)
    (cost : Option Binary64) (v : Sharded) :
    (add m owner p payload cost).Meets v False fun notices v' =>
      Marked 1 (Notice.told notices) v.register v'.register := by
  unfold add
  rw [meets_bind]
  refine (newEntry_marked owner p payload cost v).imp fun e v₁ he => ?_
  rw [meets_bind]
  refine (write_marks e v₁).imp fun replaced v₂ hw => ?_
  rw [meets_bind]
  refine (restoreBound_marked m e v₂).imp fun pass v' hpass => ?_
  rw [meets_pure, Notice.told_append, Notice.told_log, Notice.told_append]
  exact he.entered ((hw ▸ v₁.register.marked_written e replaced).trans hpass)

theorem addBatch_marked (m : Moment) (owner : Owner)
    (tiles : List (Position × Payload × Option Binary64)) (v : Sharded) :
    (addBatch m owner tiles).Meets v False fun notices v' =>
      Marked tiles.length (Notice.told notices) v.register v'.register := by
  unfold addBatch
  rw [meets_bind]
  refine (newEntries_marked owner tiles v).imp fun es v₁ hes => ?_
  cases es.getLast? with
  | none => exact hes
  | some last =>
    rw [meets_bind]
    refine (writes_marked es v₁).imp fun ws v₂ hws => ?_
    rw [meets_bind]
    refine (restoreBound_marked m last v₂).imp fun pass v' hpass => ?_
    rw [meets_pure, Notice.told_append, Notice.told_log, Notice.told_append]
    exact hes.entered (hws.trans hpass)

theorem get?_marked (m : Moment) (k : TileKey) (v : Sharded) :
    (get? m k).Meets v False fun _ v' => Marked 0 [] v.register v'.register := by
  unfold get?
  rw [meets_bind, meets_get]
  cases v.store.get? k with
  | none => exact .refl _
  | some e =>
    refine meets_bind.2 (meets_set.2 ?_)
    cases v.ledger.trackRecency with
    | true => exact v.register.marked_touch e.seq m.now
    | false => exact .refl _

end Sharded

/-! ### Requests -/

namespace Register

variable {r r' : Register} {notices : List Notice}

/-- All that was removed is marked. -/
theorem marked_removed
    (h : ∃ es line, notices = Notice.removed es ++ [.log line] ∧ r' = r.markAll .removed es) :
    Marked 0 (Notice.told notices) r r' := by
  obtain ⟨es, line, rfl, hmarks⟩ := h
  rw [Notice.told_append, Notice.told_removed, Notice.told_cons_log, Notice.told_nil,
    List.append_nil]
  exact marked_of_markAll (by decide) hmarks

/-- What was removed is marked, if anything was. -/
theorem marked_removed_found {x : Option Entry × List Notice}
    (h : x.2 = x.1.elim [] (Notice.removed [·]) ∧ r' = r.markAll .removed x.1.toList) :
    Marked 0 (Notice.told x.2) r r' := by
  obtain ⟨found, notices⟩ := x
  obtain ⟨hnotices, hmarks⟩ := h
  dsimp only at hnotices hmarks ⊢
  subst hnotices
  cases found with
  | none => exact hmarks ▸ .refl r
  | some e => exact marked_of_markAll (by decide) hmarks

/-- The victims of a pass are marked. -/
theorem marked_pass {pass : Pass} (h : r' = r.markAll .evicted pass.victims) :
    Marked 0 (Notice.told pass.notices) r r' := by
  rw [Pass.notices, Notice.told_append, Notice.told_log, Notice.told_evicted]
  exact marked_of_markAll (by decide) h

end Register

namespace Cache

variable {c : Cache}

theorem relieve_marked (m : Moment) (c : Cache) :
    (relieve m).Meets c False fun notices c' =>
      Marked 0 (Notice.told notices) c.register c'.register := by
  cases c with
  | linked v =>
    exact meets_byLayout_linked.2 (meets_bind.2
      ((Linked.evict_marks m none v).imp fun _ _ h => Register.marked_pass h))
  | sharded v =>
    exact meets_byLayout_sharded.2 (meets_bind.2
      ((Sharded.evict_marks m none v).imp fun _ _ h => Register.marked_pass h))

theorem setCapacity_marked (m : Moment) (bytes : UInt64) (c : Cache) :
    (setCapacity m bytes).Meets c False fun x c' =>
      Marked 0 (Notice.told (Request.answer x).2) c.register c'.register := by
  unfold setCapacity
  rw [meets_bind, meets_get]
  cases c.ledger.setCapacity bytes with
  | error r => exact .refl _
  | ok l =>
    have hregister : (c.editLedger fun _ => l).register = c.register := register_editLedger c _
    rw [meets_bind, meets_set]
    dsimp only
    split
    · exact meets_bind.2 (hregister ▸ relieve_marked m _)
    · exact meets_pure.2 (hregister ▸ .refl _)

theorem setThreshold_marked (t : Binary64) (c : Cache) :
    (setThreshold t).Meets c False fun x c' =>
      Marked 0 (Notice.told (Request.answer x).2) c.register c'.register := by
  unfold setThreshold
  rw [meets_bind, meets_get]
  cases c.ledger.setThreshold t with
  | error r => exact .refl _
  | ok l =>
    have hregister : (c.editLedger fun _ => l).register = c.register := register_editLedger c _
    exact meets_bind.2 (meets_set.2 (meets_pure.2 (hregister ▸ .refl _)))

end Cache

/-- A request marks entries as its events have it, and enters what it makes. -/
theorem Request.perform_marked {c : Cache} (m : Moment) (q : Request Owner Identity) (h : c.Sound) :
    (q.perform m).Meets c False fun x c' =>
      Marked (q.made c.ledger).length (Notice.told x.2) c.register c'.register := by
  cases q with
  | add owner p payload cost =>
    refine meets_bind.2 ?_
    cases c with
    | linked v => exact Cache.meets_byLayout_linked.2 (Linked.add_marked m owner p payload cost v)
    | sharded v =>
      exact Cache.meets_byLayout_sharded.2 (Sharded.add_marked m owner p payload cost v)
  | addBatch owner points payloads costs =>
    refine meets_map.2 ?_
    obtain ⟨e, hrefused, hbatch⟩ | ⟨tiles, htiles, hbatch⟩ :=
      Cache.addBatch_eq m owner points payloads costs
    · rw [hbatch, hrefused.made_eq_nil]
      exact .refl _
    · rw [hbatch, made_of_aligned htiles, length_madeFrom]
      refine meets_map.2 ?_
      cases c with
      | linked v => exact Cache.meets_byLayout_linked.2 (Linked.addBatch_marked m owner tiles v)
      | sharded v => exact Cache.meets_byLayout_sharded.2 (Sharded.addBatch_marked m owner tiles v)
  | get image p =>
    refine meets_bind.2 ?_
    cases c with
    | linked v => exact Cache.meets_byLayout_linked.2 (Linked.get?_marked m _ v)
    | sharded v => exact Cache.meets_byLayout_sharded.2 (Sharded.get?_marked m _ v)
  | getAll image points =>
    refine meets_bind.2 ?_
    cases c with
    | linked v => exact Cache.meets_byLayout_linked.2 (Linked.getAll_marked m _ v)
    | sharded v =>
      exact Cache.meets_byLayout_sharded.2 (lookUps_marked (Sharded.get?_marked m) _ v)
  | remove image p =>
    refine meets_bind.2 ?_
    cases c with
    | linked v =>
      exact Cache.meets_byLayout_linked.2
        ((Linked.remove_marks _ v).imp fun _ _ h => Register.marked_removed_found h)
    | sharded v =>
      exact Cache.meets_byLayout_sharded.2
        ((Sharded.remove_marks _ _ v).imp fun _ _ h => Register.marked_removed_found h)
  | removeImage image =>
    refine meets_bind.2 ?_
    cases c with
    | linked v =>
      exact Cache.meets_byLayout_linked.2
        ((Linked.removeImage_marks image h).imp fun _ _ h =>
          Register.marked_removed (h.imp fun _ h => ⟨_, h⟩))
    | sharded v =>
      exact Cache.meets_byLayout_sharded.2
        ((Sharded.removeImage_marks image v).imp fun _ _ h =>
          Register.marked_removed (h.imp fun _ h => ⟨_, h⟩))
  | flush =>
    refine meets_bind.2 ?_
    cases c with
    | linked v =>
      exact Cache.meets_byLayout_linked.2
        ((Linked.flush_marks v).imp fun _ _ h =>
          Register.marked_removed (h.imp fun _ h => ⟨_, h⟩))
    | sharded v =>
      exact Cache.meets_byLayout_sharded.2
        ((Sharded.flush_marks v).imp fun _ _ h =>
          Register.marked_removed (h.imp fun _ h => ⟨_, h⟩))
  | relieve => exact meets_bind.2 (Cache.relieve_marked m c)
  | setCapacity bytes => exact meets_map.2 (Cache.setCapacity_marked m bytes c)
  | setThreshold t => exact meets_map.2 (Cache.setThreshold_marked t c)
  | enable | disable | reset => exact Cache.register_editLedger c _ ▸ .refl _
  | tilesOf | contains | report | list => exact .refl _

end TileStore
