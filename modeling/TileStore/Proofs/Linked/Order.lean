import TileStore.Proofs.Events
import TileStore.Proofs.Numbering
import Mathlib.Data.List.Dedup

/-!
# A linked cache lists its entries in the order of their use

An entry is used when it is written and when a look-up finds it: `Cache.uses` are the entries a
request uses, in order. A use moves its entry to the end of the list and nothing else moves, so what a
request leaves is a part of what its uses alone would make of the list: `uses_meets`. After any number
of uses the list is in the order of the last use of each entry: `usedLast_sublist_dedup`.
-/

namespace TileStore

variable {es fs us ws : List Entry} {e : Entry}

/-! ### Lists -/

theorem usedLast_sublist (h : es.Sublist fs) (e : Entry) :
    (usedLast es e).Sublist (usedLast fs e) := (h.filter _).append (.refl _)

theorem foldl_usedLast_sublist (h : es.Sublist fs) (us : List Entry) :
    (us.foldl usedLast es).Sublist (us.foldl usedLast fs) := by
  induction us generalizing es fs with
  | nil => exact h
  | cons u us ih => exact ih (usedLast_sublist h u)

/-- The last of some elements comes last among them, and only there. -/
theorem dedup_concat (us : List Entry) (e : Entry) :
    (us ++ [e]).dedup = us.dedup.filter (· ≠ e) ++ [e] := by
  induction us with
  | nil => rfl
  | cons u us ih =>
    rw [List.cons_append]
    by_cases hu : u ∈ us
    · rw [List.dedup_cons_of_mem (List.mem_append_left _ hu), List.dedup_cons_of_mem hu, ih]
    · by_cases he : u = e
      · subst he
        rw [List.dedup_cons_of_mem (by simp), List.dedup_cons_of_notMem hu, ih]
        simp
      · rw [List.dedup_cons_of_notMem (by simp [hu, he]), List.dedup_cons_of_notMem hu, ih]
        simp [he]

/-- A use keeps entries in the order of their last use. -/
theorem usedLast_sublist_dedup (h : es.Sublist us.dedup) (e : Entry) :
    (usedLast es e).Sublist (us ++ [e]).dedup := by
  rw [dedup_concat, usedLast, without]
  refine .append ?_ (.refl _)
  have hkeys : es.filter (·.key ≠ e.key) = (es.filter (· ≠ e)).filter (·.key ≠ e.key) := by
    rw [List.filter_filter]
    refine List.filter_congr fun f _ => ?_
    by_cases hf : f = e <;> simp [hf]
  rw [hkeys]
  exact List.filter_sublist.trans (h.filter _)

theorem foldl_usedLast_sublist_dedup (h : es.Sublist us.dedup) (ws : List Entry) :
    (ws.foldl usedLast es).Sublist (us ++ ws).dedup := by
  induction ws generalizing es us with
  | nil => simpa using h
  | cons w ws ih =>
    rw [List.append_cons]
    exact ih (usedLast_sublist_dedup h w)

/-! ### Requests -/

/-- The entries that a request uses, in order: those that it writes, and those that it looks up and
finds. -/
def Cache.uses (c : Cache) : Request Owner Identity → List Entry
  | .get image p => (c.get? (.of image p)).toList
  | .getAll image points => points.filterMap fun p => c.get? (.of image p)
  | r => r.made c.ledger

namespace Linked

variable {v v' : Linked} {m : Moment} {safe : Prop}

/-- A batch uses its entries one after the other. -/
theorem order_writes {ws : List Written} (h : Mutation.Series (WritesAs safe) es v ws v') :
    v'.entries.Sublist (es.foldl usedLast v.entries) := by
  induction h with
  | nil => exact .refl _
  | cons hw _ ih => exact ih.trans (foldl_usedLast_sublist hw.order _)

theorem entries_foldl_count (found : List (Option Entry)) (v : Linked) :
    (found.foldl (fun v f => v.count (.lookup f.isSome)) v).entries = v.entries := by
  induction found generalizing v with
  | nil => rfl
  | cons f found ih => exact ih (v.count _)

/-- Look-ups use what they find one after the other. -/
theorem order_getAll (ks : List TileKey) (h : v.Sound) :
    (getAll m ks).Meets v safe fun _ v' =>
      v'.entries = (ks.filterMap v.tiles).foldl usedLast v.entries := by
  have hfinds : (ks.mapM (find m)).Meets v safe fun _ w =>
      w.entries = (ks.filterMap v.tiles).foldl usedLast v.entries := by
    refine (Mutation.meets_mapM (R := fun _ _ _ _ => True)
      (fun left w => w.Sound ∧ w.tiles = v.tiles ∧ (left.filterMap v.tiles).foldl usedLast w.entries =
        (ks.filterMap v.tiles).foldl usedLast v.entries) ?_ ks v ⟨h, rfl, rfl⟩).imp ?_
    case refine_2 => exact fun _ w ⟨_, _, _, hw⟩ => hw
    rintro k left w ⟨hw, htiles, hleft⟩
    refine (find_meets m k hw).imp ?_
    rintro found w' ⟨hfound, hkeeps, hentries⟩
    refine ⟨trivial, hkeeps.sound, hkeeps.tiles.trans htiles, ?_⟩
    rw [← hleft, hentries]
    rw [htiles] at hfound
    rcases found with _ | e
    · rw [List.filterMap_cons_none hfound.symm]
      rfl
    · rw [List.filterMap_cons_some hfound.symm]
      rfl
  unfold getAll
  rw [Mutation.meets_bind]
  refine hfinds.imp fun found w hw => ?_
  rw [Mutation.meets_bind]
  refine Mutation.meets_of_result (Mutation.result_forM_modify _ found w) ?_
  rw [Mutation.meets_pure, entries_foldl_count]
  exact hw

end Linked

namespace Cache

variable {m : Moment} {v : Linked}

theorem order_relieve (h : v.Sound) :
    (relieve m).Meets (linked v) False fun _ c' => c'.entries.Sublist v.entries :=
  meets_byLayout_linked.2
    ((Linked.relieve_meets m h).mono False.elim fun _ _ ⟨_, _, _, hleft⟩ => hleft)

theorem order_setCapacity (bytes : UInt64) (h : v.Sound) :
    (setCapacity m bytes).Meets (linked v) False fun _ c' => c'.entries.Sublist v.entries := by
  unfold setCapacity
  rw [Mutation.meets_bind, Mutation.meets_get]
  rcases hl : (linked v).ledger.setCapacity bytes with r | l
  · exact List.Sublist.refl _
  · rw [Mutation.meets_bind, Mutation.meets_set]
    have hsound := Sound.editLedger (c := linked v) (f := fun _ => l) h
      (Ledger.retuned_of_setCapacity hl)
    dsimp only
    split
    · exact Mutation.meets_bind.2 (order_relieve (v := { v with ledger := l }) hsound)
    · exact List.Sublist.refl _

theorem order_setThreshold (t : Binary64) :
    (setThreshold t).Meets (linked v) False fun _ c' => c'.entries.Sublist v.entries := by
  unfold setThreshold
  rw [Mutation.meets_bind, Mutation.meets_get]
  rcases (linked v).ledger.setThreshold t with r | l <;> exact List.Sublist.refl _

/-- What a request leaves of a linked cache is in the order of the uses. -/
theorem uses_meets (r : Request Owner Identity) (h : v.Sound) :
    (r.perform m).Meets (linked v) False fun _ c' =>
      c'.entries.Sublist (((linked v).uses r).foldl usedLast v.entries) := by
  have hsame : ∀ {c' : Cache}, c'.entries = v.entries → c'.entries.Sublist v.entries :=
    fun he => he ▸ .refl _
  cases r with
  | add owner p payload cost =>
    refine Mutation.meets_bind.2 (meets_byLayout_linked.2
      ((Linked.add_meets m owner p payload cost h).mono False.elim ?_))
    rintro _ v' ⟨v₁, w, hn, he, -, -, -, horder⟩
    rw [he, hn.entries_eq] at horder
    exact horder
  | addBatch owner points payloads costs =>
    refine Mutation.meets_map.2 ?_
    unfold uses
    dsimp only
    obtain ⟨e, hrefused, hbatch⟩ | ⟨tiles, htiles, hbatch⟩ :=
      addBatch_eq m owner points payloads costs
    · rw [hbatch, hrefused.made_eq_nil]
      exact List.Sublist.refl _
    · rw [hbatch, Request.made_of_aligned htiles]
      refine Mutation.meets_map.2 (meets_byLayout_linked.2
        ((Linked.addBatch_meets m owner tiles h).mono False.elim ?_))
      rintro _ v' ⟨v₁, ws, hn, -, hseries, -, -⟩
      have horder := Linked.order_writes hseries
      rw [hn.entries_eq] at horder
      exact horder
  | get image p =>
    refine Mutation.meets_bind.2 (meets_byLayout_linked.2 ((Linked.get?_meets m _ h).imp ?_))
    rintro found v' ⟨hfound, -, hentries⟩
    have huses : (linked v).uses (.get image p) = found.toList := by rw [hfound]; rfl
    rw [huses]
    rcases found with _ | e
    · exact hsame hentries
    · have horder : v'.entries.Sublist (usedLast v.entries e) := by rw [hentries]; exact .refl _
      exact horder
  | getAll image points =>
    refine Mutation.meets_bind.2 (meets_byLayout_linked.2
      ((Linked.order_getAll (points.map (TileKey.of image)) h).imp ?_))
    intro _ v' hentries
    rw [List.filterMap_map] at hentries
    exact hentries ▸ List.Sublist.refl _
  | remove image p =>
    refine Mutation.meets_bind.2 (meets_byLayout_linked.2
      ((Linked.remove_meets _ h).mono False.elim ?_))
    rintro _ v' ⟨-, -, hentries⟩
    have horder : v'.entries.Sublist v.entries := by rw [hentries]; exact List.filter_sublist
    exact horder
  | removeImage image =>
    refine Mutation.meets_bind.2 (meets_byLayout_linked.2
      ((Linked.removeImage_meets image h).mono False.elim ?_))
    rintro _ v' ⟨_, -, -, hleft⟩
    exact hleft
  | flush =>
    refine Mutation.meets_bind.2 (meets_byLayout_linked.2
      ((Linked.flush_meets h).mono False.elim ?_))
    rintro _ v' ⟨es, -, -, hb⟩
    have horder : v'.entries.Sublist v.entries := by
      rw [hb.entries_eq_nil]
      exact List.nil_sublist _
    exact horder
  | relieve => exact Mutation.meets_bind.2 (order_relieve h)
  | setCapacity bytes => exact Mutation.meets_map.2 (order_setCapacity bytes h)
  | setThreshold t => exact Mutation.meets_map.2 (order_setThreshold t)
  | enable | disable | reset => exact List.Sublist.refl _
  | tilesOf | contains | report | list => exact List.Sublist.refl _

end Cache

end TileStore
