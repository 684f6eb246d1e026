import TileStore.Proofs.Eviction
import TileStore.Proofs.Linked.Clock
import TileStore.Proofs.Queue
import TileStore.Proofs.Starts

/-!
# The victims of a linked cache

A pass sweeps the next sixty-four slots for stale entries, and then follows the schedule. The sweep
takes what it finds in the order of the slots: `evictListed_takes`. The schedule is in the order of
turns, and evictions change no turn, so what goes by it are the entries with the least turns of those
that the sweep did not find: `evictScheduled_takes`. One after the other, both take from one queue:
`evict_takes`.

A turn has a cost and a tick. Ticks are given out anew with every use, so they are in the order of the
last uses of the entries, whatever happened in between: `Valid.inTurn`. In `linked_victims`, the main
result, the order of the queue is one of costs and uses, and nothing is said of ticks. Nor do times
matter, those of the register or those of the moments: the pass, and any number of requests, take the
same victims when they are different.
-/

namespace TileStore

open Vault

variable {key : Entry → Turn} {protect : Option TileKey} {target : UInt64} {queue : List Entry}

namespace LinkedStore

variable {s s' : LinkedStore} {m : Moment}

/-! ### Queues -/

/-- What the next sweep finds without an owner, the protected entry aside, in the order of the sweep. -/
def sweptStale (s : LinkedStore) (m : Moment) (protect : Option TileKey) : List Entry :=
  exposed protect <| List.filter (·.isStale m) <|
    (List.range (min 64 s.recency.slots)).filterMap fun i =>
      s.entryAt? ((s.sweep + i) % s.recency.slots)

theorem filterMap_staleSlots (s : LinkedStore) (m : Moment) (protect : Option TileKey) :
    (s.staleSlots m Linked.sweepBudget protect).filterMap s.entryAt? = s.sweptStale m protect := by
  have hslots : ∀ slots : List Nat,
      (slots.filter fun i => s.unprotected protect i && (s.entryAt? i).any (·.isStale m)).filterMap
        s.entryAt? = exposed protect ((slots.filterMap s.entryAt?).filter (·.isStale m)) := by
    intro slots
    induction slots with
    | nil => rfl
    | cons i slots ih =>
      rw [List.filter_cons, unprotected]
      rcases he : s.entryAt? i with _ | e
      · rw [List.filterMap_cons_none he]
        exact ih
      · rw [List.filterMap_cons_some he, exposed, List.filter_filter, List.filter_cons]
        rw [exposed, List.filter_filter] at ih
        dsimp only [Option.any_some]
        split
        · rw [List.filterMap_cons_some he, ih]
        · exact ih
  rw [staleSlots, sweepWindow, hslots, List.filterMap_map]
  rfl

theorem isStale_of_mem_sweptStale {e : Entry} (h : e ∈ s.sweptStale m protect) : e.isStale m :=
  (List.mem_filter.1 (mem_exposed.1 h).1).2

/-- A sweep of all slots finds everything without an owner. -/
theorem Valid.mem_sweptStale (h : s.Valid) (hslots : s.recency.slots ≤ 64) {e : Entry}
    (he : e ∈ s.entries) (hstale : e.isStale m) (hp : some e.key ≠ protect) :
    e ∈ s.sweptStale m protect := by
  obtain ⟨i, r, hi, rfl⟩ := h.mem_entries.1 he
  have hlt : i < s.recency.slots := by
    obtain ⟨n, hn, -⟩ := Option.bind_eq_some_iff.1 hi
    exact (Array.getElem?_eq_some_iff.1 hn).1
  obtain ⟨j, hj, hji⟩ := exists_add_mod_eq s.sweep hlt
  refine mem_exposed.2 ⟨List.mem_filter.2 ⟨List.mem_filterMap.2 ⟨j, ?_, ?_⟩, hstale⟩, hp⟩
  · exact List.mem_range.2 (Nat.lt_min.2 ⟨hj.trans_le hslots, hj⟩)
  · rw [hji, entryAt?, hi, Option.map_some]

/-- The key puts the residents in the order of their turns. -/
def InTurn (key : Entry → Turn) (s : LinkedStore) : Prop :=
  ∀ {i j r r'}, s.recency.get? i = some r → s.recency.get? j = some r' →
    compare (key r.entry) (key r'.entry) = compare r.turn r'.turn

theorem InTurn.left (h : s.InTurn key)
    (hleft : ∀ {i r}, s'.recency.get? i = some r → s.recency.get? i = some r) : s'.InTurn key :=
  fun hi hj => h (hleft hi) (hleft hj)

/-- Entries can be put in line by their turns. -/
theorem InTurn.exists_inLine (h : s.InTurn key) (hv : s.Valid) {es : List Entry}
    (hes : es.Sublist s.entries) : ∃ queue, InLine key es queue := by
  refine TileStore.exists_inLine (hv.shelf.nodup.sublist hes) fun e he f hf heq => ?_
  obtain ⟨i, r, hi, rfl⟩ := hv.mem_entries.1 (hes.mem he)
  obtain ⟨j, r', hj, rfl⟩ := hv.mem_entries.1 (hes.mem hf)
  rw [h hi hj] at heq
  obtain rfl := hv.schedule.inj hi hj (Std.LawfulEqOrd.eq_of_compare heq)
  rw [Option.some.inj (hi.symm.trans hj)]

end LinkedStore

namespace Linked

variable {v v' : Linked} {m : Moment}

/-! ### Passes -/

/-- The entries in listed slots go in turn. -/
theorem evictListed_takes (slots : List Nat) (h : v.Sound) (hd : slots.Nodup)
    (hslots : ∀ i ∈ slots, ∃ r, v.store.recency.get? i = some r ∧ some r.entry.key ≠ protect) :
    (evictListed target slots).Meets v False fun es v' =>
      Shortest target v.ledger.memoryUsed (slots.filterMap v.store.entryAt?) es ∧
        ∀ {j r}, v'.store.recency.get? j = some r → v.store.recency.get? j = some r := by
  induction slots generalizing v with
  | nil => exact ⟨.nil, id⟩
  | cons i slots ih =>
    rw [evictListed, Mutation.meets_bind, Mutation.meets_get]
    split
    · next htarget => exact ⟨.none_of_le htarget, id⟩
    · next htarget =>
      obtain ⟨hnotin, hd⟩ := List.nodup_cons.1 hd
      obtain ⟨r, hi, hp⟩ := hslots i List.mem_cons_self
      have hget := h.valid.get?_key hi
      rw [Mutation.meets_bind]
      refine ((evictSlot_meets h hi).mono False.elim fun _ _ h => h).imp ?_
      rintro _ v₁ ⟨rfl, hb, hleft, -⟩
      have hother : ∀ j ∈ slots, v₁.store.recency.get? j = v.store.recency.get? j := by
        intro j hj
        rw [hleft, if_neg fun hji : j = i => hnotin (hji ▸ hj)]
      have hslots₁ : ∀ j ∈ slots,
          ∃ r, v₁.store.recency.get? j = some r ∧ some r.entry.key ≠ protect := by
        intro j hj
        rw [hother j hj]
        exact hslots j (List.mem_cons_of_mem i hj)
      rw [Mutation.meets_bind]
      refine (ih hb.sound hd hslots₁).imp ?_
      rintro es v' ⟨hes, hkept⟩
      have hqueue : slots.filterMap v₁.store.entryAt? = slots.filterMap v.store.entryAt? := by
        refine List.filterMap_congr fun j hj => ?_
        rw [LinkedStore.entryAt?, hother j hj, LinkedStore.entryAt?]
      have hentry : v.store.entryAt? i = some r.entry := by
        rw [LinkedStore.entryAt?, hi, Option.map_some]
      rw [hqueue, hb.memoryUsed_drop h hget] at hes
      rw [List.filterMap_cons_some hentry]
      exact ⟨hes.cons (UInt64.not_le.1 htarget), fun hj => resident_of_emptied hleft (hkept hj)⟩

/-- By the schedule go those that are first in line. -/
theorem evictScheduled_takes (fuel : Nat) (h : v.Sound) (hkey : v.store.InTurn key)
    (hqueue : InLine key (exposed protect v.entries) queue)
    (hfuel : v.store.schedule.size ≤ fuel) :
    (evictScheduled target protect fuel).Meets v False fun es _ =>
      Shortest target v.ledger.memoryUsed queue es := by
  induction fuel generalizing v queue with
  | zero =>
    have hnone : v.entries = [] := entries_eq_nil_of_schedule h (by omega)
    rw [hqueue.eq_nil (by rw [hnone]; nofun)]
    exact .nil
  | succ fuel ih =>
    rw [evictScheduled, Mutation.meets_bind, Mutation.meets_get]
    split
    · next htarget => exact .none_of_le htarget
    · next htarget =>
      split
      · next hnone =>
        rw [hqueue.eq_nil (h.valid.eq_protect_of_cheapest? hnone)]
        exact .nil
      · next i hcheapest =>
        obtain ⟨r, hi, hp, hleast⟩ := h.valid.cheapest?_least hcheapest
        rw [Mutation.meets_bind]
        refine ((evictSlot_meets h hi).mono False.elim fun _ _ h => h).imp ?_
        rintro _ v₁ ⟨rfl, hb, hleft, hsize, -⟩
        have hkept : ∀ {j r'}, v₁.store.recency.get? j = some r' →
            v.store.recency.get? j = some r' := resident_of_emptied hleft
        obtain ⟨rest, hrest, hfront⟩ := hb.take_front h (UInt64.not_le.1 htarget)
          (h.valid.get?_key hi) hp hqueue fun f hf hpf => by
            obtain ⟨j, r', hj, rfl⟩ := h.valid.mem_entries.1 hf
            rw [hkey hi hj]
            exact hleast j r' hj hpf
        rw [Mutation.meets_bind]
        exact (ih hb.sound (hkey.left hkept) hrest (by omega)).imp fun _ _ hes => hfront hes

/-- A pass takes what the sweep found, in turn, and then those of the rest that are first in line. -/
theorem evict_takes {rest : List Entry} (h : v.Sound) (hkey : v.store.InTurn key)
    (hrest : InLine key ((exposed protect v.entries).filter (· ∉ v.store.sweptStale m protect))
      rest) :
    (evict m protect).Meets v False fun pass _ =>
      Shortest v.ledger.target v.ledger.memoryUsed (v.store.sweptStale m protect ++ rest)
        pass.victims := by
  unfold evict
  rw [Mutation.meets_bind, Mutation.meets_get]
  dsimp only
  split
  · next htarget => exact .none_of_le htarget
  · simp only [Mutation.meets_bind, Mutation.meets_set, Mutation.meets_get]
    let v₀ : Linked := { v with store := v.store.advanceSweep sweepBudget }
    have hb : v.Becomes v.tiles v₀ := becomes_advanceSweep h sweepBudget
    have hrecency : v₀.store.recency = v.store.recency := LinkedStore.recency_advanceSweep _ _
    have hslots : ∀ i ∈ v.store.staleSlots m sweepBudget protect,
        ∃ r, v₀.store.recency.get? i = some r ∧ some r.entry.key ≠ protect := by
      rw [hrecency]
      exact fun i => LinkedStore.exists_of_mem_staleSlots
    have hd := v.store.nodup_staleSlots m sweepBudget protect
    refine ((evictListed_takes _ hb.sound hd hslots).and
      (evictListed_meets _ hb.sound hd hslots)).imp ?_
    rintro swept v₁ ⟨⟨hswept, hkept⟩, hevicts, -⟩
    have hqueue : (v.store.staleSlots m sweepBudget protect).filterMap v₀.store.entryAt? =
        v.store.sweptStale m protect := by
      rw [← LinkedStore.filterMap_staleSlots]
      refine List.filterMap_congr fun i _ => ?_
      rw [LinkedStore.entryAt?, hrecency, LinkedStore.entryAt?]
    rw [hqueue] at hswept
    have hevicts := hevicts.of_becomes h hb
    have hsound := hevicts.becomes.sound
    have hused : v₁.ledger.memoryUsed = usedWithout v.ledger.memoryUsed swept :=
      h.balanced.usedWithout hsound.balanced (hevicts.perm h)
    have hkey₁ : v₁.store.InTurn key := hkey.left fun hi => hrecency ▸ hkept hi
    rcases hswept.met with hmet | rfl
    · -- the sweep was enough, and nothing goes by the schedule
      obtain ⟨queue, hline⟩ := hkey₁.exists_inLine hsound.valid (List.filter_sublist)
      refine (evictScheduled_takes _ hsound hkey₁ hline le_rfl).imp ?_
      intro scheduled v' hscheduled
      have hnone := hscheduled.eq_nil_of_le (hused ▸ hmet)
      exact hnone ▸ hswept.append (.none_of_le hmet)
    · have hleft := exposed_left protect h.shelf.nodup (hevicts.perm h)
      refine (evictScheduled_takes _ hsound hkey₁ (hrest.of_perm hleft) le_rfl).imp ?_
      intro scheduled v' hscheduled
      exact hswept.append (hused ▸ hscheduled)

end Linked

/-! ### Turns and uses -/

/-- Places that grow in the same order of a list compare alike. -/
theorem compare_of_increasing {α : Type} {f g : α → Nat} {l : List α} {a b : α}
    (h : l.Pairwise fun a b => f a < f b ∧ g a < g b) (ha : a ∈ l) (hb : b ∈ l) :
    compare (f a) (f b) = compare (g a) (g b) := by
  let earlier (a b : α) : Prop := f a < f b ∧ g a < g b
  have hsymm : Std.Symm fun a b => earlier a b ∨ earlier b a := ⟨fun _ _ => Or.symm⟩
  have hpairs : l.Pairwise fun a b => earlier a b ∨ earlier b a := h.imp Or.inl
  by_cases hab : a = b
  · rw [hab, compare_eq_iff_eq.2 rfl, compare_eq_iff_eq.2 rfl]
  · rcases hpairs.forall ha hb hab with ⟨hf, hg⟩ | ⟨hf, hg⟩
    · rw [Std.compare_eq_lt.2 hf, Std.compare_eq_lt.2 hg]
    · rw [Std.compare_eq_gt.2 hf, Std.compare_eq_gt.2 hg]

/-- The turn of an entry after some uses: by its cost, and then by its last use. -/
def turnAfter (us : List Entry) (e : Entry) : Turn := .of e (lastUse us e)

theorem Turn.compare_eq_lt_iff {t u : Turn} :
    compare t u = .lt ↔ t.cost < u.cost ∨ t.cost = u.cost ∧ t.tick < u.tick := by
  change (compare t.cost u.cost).then (compare t.tick u.tick) = .lt ↔ _
  rw [Ordering.then_eq_lt, Std.compare_eq_lt, Std.compare_eq_lt, Std.compare_eq_iff_eq]

theorem worth_of_turnAfter_lt {us : List Entry} {e f : Entry} (he : e.Made) (hf : f.Made)
    (h : compare (turnAfter us e) (turnAfter us f) = .lt) :
    e.worth ≤ f.worth ∧ (e.worth = f.worth → lastUse us e < lastUse us f) := by
  have hle := he.worth_le_iff hf
  have hge := hf.worth_le_iff he
  rcases Turn.compare_eq_lt_iff.1 h with hcost | ⟨hcost, htick⟩
  · refine ⟨hle.2 (UInt64.le_of_lt hcost), fun heq => ?_⟩
    exact absurd (hge.1 heq.ge) (UInt64.not_le.2 hcost)
  · exact ⟨hle.2 (UInt64.le_of_eq hcost), fun _ => htick⟩

/-- Turns are in the order of costs and last uses. -/
theorem LinkedStore.Valid.inTurn {s : LinkedStore} {us : List Entry} (h : s.Valid)
    (hus : s.entries.Sublist us.dedup) : s.InTurn (turnAfter us) := by
  have huses := List.pairwise_map.1 ((pairwise_lastUse_dedup us).sublist hus)
  have hboth := (List.pairwise_map.1 h.ordered).and huses
  intro i j r r' hi hj
  have htick := compare_of_increasing hboth (h.linked.mem_toList.2 hi) (h.linked.mem_toList.2 hj)
  rw [(h.turn i r hi).1, (h.turn j r' hj).1]
  change (compare _ _).then (compare _ _) = (compare _ _).then (compare _ _)
  exact congrArg _ htick.symm

/-! ### What a pass takes -/

/-- The victims of a pass, of what the sweep found and the rest in line, when these entries have been
used. -/
structure Linked.Takes (us : List Entry) (m : Moment) (protect : Option TileKey) (v : Linked)
    (stale rest victims : List Entry) (v' : Linked) : Prop where
  /-- Stale entries go in the order of the sweep. The others go by their turns, when no more are
  left. -/
  phases : ∃ swept scheduled, victims = swept ++ scheduled ∧ swept <+: stale ∧ scheduled <+: rest ∧
    (scheduled ≠ [] → swept = stale)
  shortest : Shortest v.ledger.target v.ledger.memoryUsed (stale ++ rest) victims
  left : v.entries.Perm (victims ++ v'.entries)
  memoryUsed : v'.ledger.memoryUsed = usedWithout v.ledger.memoryUsed victims
  /-- A sweep that comes to every slot leaves no stale entry if a live one goes. -/
  stale_first : v.store.recency.slots ≤ 64 → ∀ e ∈ victims, m.alive e.owner →
    ∀ f ∈ v'.entries, some f.key ≠ protect → m.alive f.owner
  /-- No live entry goes before one that costs less, or as much and was used less recently. -/
  cheap_first : ∀ e ∈ victims, m.alive e.owner →
    ∀ f ∈ v'.entries, some f.key ≠ protect → m.alive f.owner →
      e.worth ≤ f.worth ∧ (e.worth = f.worth → lastUse us e < lastUse us f)

theorem Linked.takes_of_shortest {us rest victims : List Entry} {v v' : Linked} {m : Moment}
    (hv : v.Sound) (hmade : ∀ {e}, e ∈ v.entries → e.Made)
    (hrest : InLine (turnAfter us)
      ((exposed protect v.entries).filter (· ∉ v.store.sweptStale m protect)) rest)
    (hs : Shortest v.ledger.target v.ledger.memoryUsed (v.store.sweptStale m protect ++ rest) victims)
    (hr : Relieves protect v victims v') :
    Takes us m protect v (v.store.sweptStale m protect) rest victims v' := by
  have hleft := hr.evicts.perm hv
  obtain ⟨swept, scheduled, rfl, hswept, hscheduled, hall⟩ := hs.exists_append
  have hdead : ∀ {e}, e ∈ v.store.sweptStale m protect → ¬m.alive e.owner := by
    intro e he halive
    have hstale := LinkedStore.isStale_of_mem_sweptStale he
    rw [Entry.isStale, halive] at hstale
    cases hstale
  -- what is alive goes by the schedule, and nothing is left that went
  have hlive : ∀ {e}, e ∈ swept ++ scheduled → m.alive e.owner → e ∈ scheduled := fun he halive =>
    (List.mem_append.1 he).resolve_left fun he => hdead (hswept.mem he) halive
  have hgone : ∀ {f}, f ∈ v'.entries → f ∉ swept ++ scheduled := fun hf he =>
    (List.nodup_append.1 (hleft.nodup_iff.1 hv.shelf.nodup)).2.2 _ he _ hf rfl
  have hmem : ∀ {f}, f ∈ v'.entries → f ∈ v.entries := fun hf =>
    hleft.mem_iff.2 (List.mem_append_right _ hf)
  refine ⟨⟨swept, scheduled, rfl, hswept, hscheduled, hall⟩, hs, hleft,
    hv.balanced.usedWithout hr.evicts.becomes.sound.balanced hleft, ?_, ?_⟩
  · intro hslots e he halive f hf hp
    have hswept : swept = v.store.sweptStale m protect :=
      hall (List.ne_nil_of_mem (hlive he halive))
    by_contra hstale
    have hfound := hv.valid.mem_sweptStale hslots (hmem hf)
      (by simpa [Entry.isStale] using hstale) hp
    exact hgone hf (List.mem_append_left _ (hswept ▸ hfound))
  · intro e he halive f hf hp halive'
    have hin : f ∈ (exposed protect v.entries).filter (· ∉ v.store.sweptStale m protect) :=
      List.mem_filter.2 ⟨mem_exposed.2 ⟨hmem hf, hp⟩, by simpa using fun h => hdead h halive'⟩
    refine worth_of_turnAfter_lt (hmade (hleft.mem_iff.2 (List.mem_append_left _ he)))
      (hmade (hmem hf)) (hrest.before hscheduled (hlive he halive) hin ?_)
    exact fun h => hgone hf (List.mem_append_right _ h)

/-- The victims of any pass of a linked cache, in order. Whatever was asked of the cache before, however
far the request is that starts the pass and whichever key is protected: first go the stale entries that
are found in the next sixty-four slots, in the order of the sweep, then the rest in the order of their
costs and, where these are equal, of their last uses, until no more is in use than the target allows or
nothing is left that may go. While there was always room the pass does not fail. It does not go by the
clock: neither a pass alone nor any number of requests evict anything else if the times in the register
and those of the moments are different. -/
theorem linked_victims {ok : Moment → Cache → Request Owner Identity → Prop}
    {us used : List Entry} {v w : Linked} {m : Moment} {q : Request Owner Identity}
    (hv : Cache.ReachesUsing ok us (.linked v)) (hw : Linked.Starts m v q used w)
    (protect : Option TileKey) :
    (∃ rest, InLine (turnAfter (us ++ used))
        ((exposed protect w.entries).filter (· ∉ w.store.sweptStale m protect)) rest ∧
      ∀ pass w', (Linked.evict m protect).result w = (.ok pass, w') →
        w.Takes (us ++ used) m protect (w.store.sweptStale m protect) rest pass.victims w') ∧
    (Cache.Reaches Cache.HasRoom (.linked v) → Cache.HasRoom m (.linked v) q →
      ∃ pass w', (Linked.evict m protect).result w = (.ok pass, w')) ∧
    (∀ m' w₂, m'.alive = m.alive → w.Untimed w₂ →
      (Linked.evict m protect).Alike (Linked.evict m' protect) w w₂ fun pass w' pass' w₂' =>
        pass' = pass ∧ w'.Untimed w₂') ∧
    ∀ c hs hs', (Cache.linked v).Untimed c → Cache.Reclocked hs hs' →
      (Cache.victimsOf hs).Alike (Cache.victimsOf hs') (.linked v) c fun victims _ victims' _ =>
        victims' = victims := by
  have hreach := hv.reaches
  have hb := hw.begins hreach.sound
  have hsound : w.Sound := hb.sound
  have hpass : (Linked.evict m protect).Meets w (Fits w.entries 0) fun pass w' =>
      Relieves protect w pass.victims w' :=
    (Linked.evict_meets m protect hsound).imp fun _ _ h => h.1
  refine ⟨?_, fun hroom hr => ?_, ?_, ?_⟩
  · have horder : w.entries.Sublist (us ++ used).dedup :=
      (hw.order hreach.sound).trans (foldl_usedLast_sublist_dedup (hv.order rfl) used)
    have hkey : w.store.InTurn (turnAfter (us ++ used)) := hsound.valid.inTurn horder
    obtain ⟨rest, hrest⟩ := hkey.exists_inLine hsound.valid
      (List.filter_sublist.trans List.filter_sublist)
    refine ⟨rest, hrest, fun pass w' hresult => ?_⟩
    refine Linked.takes_of_shortest hsound (fun he => ?_) hrest
      ((Linked.evict_takes hsound hkey hrest).of_ok hresult) (hpass.of_ok hresult)
    exact hb.all_made hreach.made ((hsound.shelf.mem _).1 he)
  · obtain ⟨pass, w', hresult, -⟩ := hpass.exists_ok (hb.fits ⟨hroom.exact, hr⟩)
    exact ⟨pass, w', hresult⟩
  · exact fun m' w₂ halive hw₂ => Linked.unclocked_evict halive protect w w₂ hw₂
  · exact fun c hs hs' hc hhs => (hc.victimsOf hhs).imp fun _ _ _ _ h => h.1

/-- Four tiles, of which the first is costly, the second was looked up in the end, and the last belongs
to an owner that has gone since. A pass for which there is room for one tile only takes the last one,
then the third and then the second. -/
theorem linked_victims_stale_then_cheap :
    let m : Moment := ⟨5, fun n => n ≠ 1⟩
    let add (owner : Nat) (x : Int32) (cost : Option Binary64) : Request Owner Identity :=
      .add ⟨owner, .hashed 1⟩ ⟨x, 0⟩ ⟨⟨8, 100, 1⟩, 0⟩ cost
    let next (c : Cache) (q : Request Owner Identity) := ((q.perform m).result c).2
    let s : Settings := { layout := .linked, capacity := 1800, threshold := ⟨0x3fd0000000000000⟩ }
    let c := [add 0 0 (some .one), add 0 1 none, add 0 2 none, add 1 3 none,
      .get (.hashed 1) ⟨1, 0⟩].foldl next (Cache.new s 0)
    ∃ us v pass v' rest, c = .linked v ∧ (Linked.evict m none).result v = (.ok pass, v') ∧
      pass.victims.map (·.seq) = [3, 2, 1] ∧
      v.Takes us m none (v.store.sweptStale m none) rest pass.victims v' := by
  intro m add next s c
  have hnew : Cache.ReachesUsing Cache.HasRoom [] (Cache.new s 0) := .built (s := s) rfl
  obtain ⟨us, hus⟩ : ∃ us, Cache.ReachesUsing Cache.HasRoom us c := by
    refine ⟨_, .next (.next (.next (.next (.next hnew ?_) ?_) ?_) ?_) ?_⟩ <;> decide +kernel
  have hlayout : c.layout = .linked := by decide +kernel
  have hvictims : ((Cache.evict m none).result c).1.toOption.map (·.victims.map (·.seq)) =
      some [3, 2, 1] := by decide +kernel
  clear_value c
  cases c with
  | sharded v => cases hlayout
  | linked v =>
    obtain ⟨⟨rest, -, htakes⟩, hanswers, -⟩ := linked_victims hus (.relieve (m := m)) none
    obtain ⟨pass, v', hresult⟩ := hanswers hus.reaches trivial
    have hpass : ((Cache.evict m none).result (.linked v)).1 = .ok pass := congrArg Prod.fst hresult
    rw [hpass] at hvictims
    rw [List.append_nil] at htakes
    exact ⟨us, v, pass, v', rest, rfl, hresult, Option.some.inj hvictims, htakes pass v' hresult⟩

end TileStore
