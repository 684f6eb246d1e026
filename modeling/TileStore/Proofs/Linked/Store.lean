import TileStore.Linked.Store
import TileStore.Proofs.Circuit
import TileStore.Proofs.Mutation
import TileStore.Proofs.Recency
import TileStore.Proofs.Vault

/-!
# The four views of a linked store agree

A linked store shows its entries in four ways: by key, by recency, by turn and by image. `Valid` says
that all four show the same, `Leads` what it is for a table to do so. Each operation keeps a store
valid, finds what its tables promise, and so never ends in a fault: `insert_meets`, `use_meets`,
`removeSlot_meets`.
-/

namespace TileStore

open Std (LawfulEqOrd TransOrd TreeMap)

/-! ### Tables -/

section Leads

variable {β : Type} [Ord β] {m : TreeMap β Nat} {residents : Nat → Option Resident}
  {part : Resident → β} {i j : Nat} {r r' : Resident}

/-- A table leads from a part of each resident to its slot. -/
def Leads (m : TreeMap β Nat) (residents : Nat → Option Resident) (part : Resident → β) : Prop :=
  ∀ x i, m[x]? = some i ↔ ∃ r, residents i = some r ∧ part r = x

theorem Leads.getElem? (h : Leads m residents part) (hi : residents i = some r) :
    m[part r]? = some i := (h _ i).2 ⟨r, hi, rfl⟩

theorem Leads.inj (h : Leads m residents part) (hi : residents i = some r)
    (hj : residents j = some r') (he : part r = part r') : i = j := by
  have hm := h.getElem? hi
  rw [he, h.getElem? hj] at hm
  exact (Option.some.inj hm).symm

/-- Who is resident after a slot was emptied was so before. -/
theorem resident_of_emptied {left : Nat → Option Resident}
    (hleft : ∀ j, left j = if j = i then none else residents j) (hj : left j = some r) :
    residents j = some r := by
  rw [hleft] at hj
  split at hj
  · cases hj
  · exact hj

/-- A resident takes the slot of another with the same part. -/
theorem Leads.replace (h : Leads m residents part) (hi : residents i = some r)
    (hp : part r' = part r) :
    Leads m (fun j => if j = i then some r' else residents j) part := by
  intro x j
  rw [h x j]
  by_cases hj : j = i
  · subst hj
    simp [hi, hp]
  · simp [hj]

variable [TransOrd β]

theorem leads_empty (part : Resident → β) : Leads {} (fun _ => none) part := fun x i => by simp

variable [LawfulEqOrd β] [DecidableEq β]

/-- A resident comes into an empty slot. -/
theorem Leads.insert (h : Leads m residents part) (hi : residents i = none)
    (hfresh : ∀ j r', residents j = some r' → part r' ≠ part r) :
    Leads (m.insert (part r) i) (fun j => if j = i then some r else residents j) part := by
  intro x j
  simp only [TreeMap.getElem?_insert, Std.compare_eq_iff_eq]
  by_cases hx : part r = x
  · subst hx
    rw [if_pos rfl, Option.some.injEq]
    constructor
    · rintro rfl
      exact ⟨r, if_pos rfl, rfl⟩
    · rintro ⟨r', hr', hp⟩
      by_contra hne
      rw [if_neg (Ne.symm hne)] at hr'
      exact hfresh j r' hr' hp
  · rw [if_neg hx, h x j]
    constructor
    · rintro ⟨r', hr', hp⟩
      have hne : j ≠ i := by
        rintro rfl
        rw [hi] at hr'
        cases hr'
      exact ⟨r', by rwa [if_neg hne], hp⟩
    · rintro ⟨r', hr', hp⟩
      split at hr'
      · cases hr'
        exact absurd hp hx
      · exact ⟨r', hr', hp⟩

/-- A resident leaves its slot. -/
theorem Leads.erase (h : Leads m residents part) (hi : residents i = some r) :
    Leads (m.erase (part r)) (fun j => if j = i then none else residents j) part := by
  intro x j
  simp only [TreeMap.getElem?_erase, Std.compare_eq_iff_eq]
  by_cases hx : part r = x
  · subst hx
    rw [if_pos rfl]
    constructor
    · nofun
    · rintro ⟨r', hr', hp⟩
      split at hr'
      · cases hr'
      · next hne => exact absurd (h.inj hr' hi hp) hne
  · rw [if_neg hx, h x j]
    constructor
    · rintro ⟨r', hr', hp⟩
      have hne : j ≠ i := by
        rintro rfl
        rw [hi] at hr'
        cases hr'
        exact hx hp
      exact ⟨r', by rwa [if_neg hne], hp⟩
    · rintro ⟨r', hr', hp⟩
      split at hr'
      · cases hr'
      · exact ⟨r', hr', hp⟩

end Leads

namespace LinkedStore

variable {s s' : LinkedStore} {i : Nat} {r old : Resident} {e : Entry} {k : TileKey}
  {l : Recency Resident}

/-! ### Validity -/

/-- All views show the same entries, the turns are as the entries and their uses say, and the
recency list is in the order of the uses. -/
structure Valid (s : LinkedStore) : Prop where
  linked : s.recency.WellLinked
  slots : Leads s.slots s.recency.get? (·.entry.key)
  schedule : Leads s.schedule s.recency.get? (·.turn)
  turn : ∀ i r, s.recency.get? i = some r → r.turn = .of r.entry r.turn.tick ∧ r.turn.tick ≤ s.tick
  ordered : (s.recency.toList.map (·.2.turn.tick)).Pairwise (· < ·)
  indexed : s.catalogue.Indexes (Tiles.Has s.get?)
  proper : ∀ i r, s.recency.get? i = some r → r.entry.Proper

theorem get?_eq_some_iff (h : Leads s.slots s.recency.get? (·.entry.key)) :
    s.get? k = some e ↔ ∃ i r, s.recency.get? i = some r ∧ r.entry = e ∧ e.key = k := by
  simp only [get?, Option.bind_eq_some_iff, entryAt?, Option.map_eq_some_iff]
  constructor
  · rintro ⟨i, hk, r, hr, rfl⟩
    obtain ⟨r', hr', rfl⟩ := (h k i).1 hk
    cases hr.symm.trans hr'
    exact ⟨i, r, hr, rfl, rfl⟩
  · rintro ⟨i, r, hr, rfl, rfl⟩
    exact ⟨i, h.getElem? hr, r, hr, rfl⟩

/-- What is found after a resident took a slot in which there was nothing or one with its key. -/
theorem get?_put (h : Leads s.slots s.recency.get? (·.entry.key))
    (h' : Leads s'.slots s'.recency.get? (·.entry.key))
    (hget : ∀ j, s'.recency.get? j = if j = i then some r else s.recency.get? j)
    (hold : ∀ old, s.recency.get? i = some old → old.entry.key = r.entry.key) :
    s'.get? = Tiles.put s.get? r.entry := by
  funext k
  ext e
  rw [get?_eq_some_iff h', Tiles.put]
  by_cases hk : k = r.entry.key
  · rw [if_pos hk, Option.some.injEq]
    constructor
    · rintro ⟨j, r', hr', rfl, hj⟩
      have hi : s'.recency.get? i = some r := by rw [hget, if_pos rfl]
      obtain rfl := h'.inj hr' hi (hj.trans hk)
      cases hr'.symm.trans hi
      rfl
    · rintro rfl
      exact ⟨i, r, by rw [hget, if_pos rfl], rfl, hk.symm⟩
  · rw [if_neg hk, get?_eq_some_iff h]
    refine exists_congr fun j => exists_congr fun r' => ?_
    by_cases hj : j = i
    · subst hj
      rw [hget, if_pos rfl, Option.some.injEq]
      constructor
      · rintro ⟨rfl, rfl, rfl⟩
        exact absurd rfl hk
      · rintro ⟨hr', rfl, rfl⟩
        exact absurd (hold r' hr') hk
    · rw [hget, if_neg hj]

/-- What is found after a resident left its slot. -/
theorem get?_drop (h : Leads s.slots s.recency.get? (·.entry.key))
    (h' : Leads s'.slots s'.recency.get? (·.entry.key)) (hi : s.recency.get? i = some r)
    (hget : ∀ j, s'.recency.get? j = if j = i then none else s.recency.get? j) :
    s'.get? = Tiles.drop s.get? r.entry.key := by
  funext k
  ext e
  rw [get?_eq_some_iff h', Tiles.drop]
  by_cases hk : k = r.entry.key
  · rw [if_pos hk]
    refine iff_of_false ?_ (Option.some_ne_none e).symm
    intro hres
    obtain ⟨j, r', hr', rfl, hj⟩ := hres
    rw [hget] at hr'
    split at hr'
    · cases hr'
    · next hne => exact hne (h.inj hr' hi (hj.trans hk))
  · rw [if_neg hk, get?_eq_some_iff h]
    refine exists_congr fun j => exists_congr fun r' => ?_
    by_cases hj : j = i
    · subst hj
      rw [hget, if_pos rfl, hi]
      refine iff_of_false (fun hres => Option.some_ne_none r' hres.1.symm) ?_
      intro hres
      obtain ⟨hr', rfl, hkey⟩ := hres
      exact hk (hkey.symm.trans (congrArg (·.entry.key) (Option.some.inj hr').symm))
    · rw [hget, if_neg hj]

namespace Valid

theorem empty (tick sweep : Nat) : Valid { tick := tick, sweep := sweep } where
  linked := .empty
  slots := leads_empty _
  schedule := leads_empty _
  turn _ _ := nofun
  ordered := .nil
  indexed := Catalogue.Indexes.empty.congr fun image k => by simp [Tiles.Has, LinkedStore.get?]
  proper _ _ := nofun

/-- The sweep does not matter. -/
theorem withSweep (h : s.Valid) (sweep : Nat) : Valid { s with sweep := sweep } :=
  ⟨h.linked, h.slots, h.schedule, h.turn, h.ordered, h.indexed, h.proper⟩

theorem get?_eq_some_iff (h : s.Valid) :
    s.get? k = some e ↔ ∃ i r, s.recency.get? i = some r ∧ r.entry = e ∧ e.key = k :=
  LinkedStore.get?_eq_some_iff h.slots

theorem get?_key (h : s.Valid) (hi : s.recency.get? i = some r) :
    s.get? r.entry.key = some r.entry := h.get?_eq_some_iff.2 ⟨i, r, hi, rfl, rfl⟩

theorem mem_entries (h : s.Valid) :
    e ∈ s.entries ↔ ∃ i r, s.recency.get? i = some r ∧ r.entry = e := by
  simp only [entries, List.mem_map, Prod.exists, h.linked.mem_toList]

theorem shelf (h : s.Valid) : Shelf s.get? s.entries where
  mem e := by
    rw [h.mem_entries, h.get?_eq_some_iff]
    simp
  key {k e} hk := by
    obtain ⟨_, _, _, _, hkey⟩ := h.get?_eq_some_iff.1 hk
    exact hkey
  proper {k e} hk := by
    obtain ⟨i, r, hi, rfl, -⟩ := h.get?_eq_some_iff.1 hk
    exact h.proper i r hi
  nodup := h.linked.nodup_toList.map_on fun p hp q hq he => by
    obtain ⟨i, r⟩ := p
    obtain ⟨j, r'⟩ := q
    have hi := h.linked.mem_toList.1 hp
    have hj := h.linked.mem_toList.1 hq
    obtain rfl := h.slots.inj hi hj (congrArg Entry.key he)
    cases hi.symm.trans hj
    rfl

/-- The residents of other slots are those with other keys. -/
theorem entries_filter (h : s.Valid) (hi : s.recency.get? i = some r) :
    (s.recency.toList.filter (·.1 ≠ i)).map (·.2.entry) = without s.entries r.entry.key := by
  rw [without, entries, List.filter_map]
  refine congrArg _ (List.filter_congr ?_)
  rintro ⟨j, r'⟩ hp
  have hj := h.linked.mem_toList.1 hp
  suffices j = i ↔ r'.entry.key = r.entry.key by simp [this]
  constructor
  · rintro rfl
    rw [Option.some.inj (hj.symm.trans hi)]
  · exact fun hk => h.slots.inj hj hi hk

/-- A key that leads nowhere is the key of no entry. -/
theorem without_entries (h : s.Valid) (hk : s.slots[k]? = none) :
    without s.entries k = s.entries := by
  refine List.filter_eq_self.2 fun e he => ?_
  obtain ⟨j, r', hj, rfl⟩ := h.mem_entries.1 he
  have hne : r'.entry.key ≠ k := by
    rintro rfl
    cases hk.symm.trans (h.slots.getElem? hj)
  simpa using hne

/-- A resident used or written now comes last. -/
theorem ordered_concat (h : s.Valid) (ht : r.turn = .of r.entry (s.tick + 1))
    {p : Nat × Resident → Bool} :
    ((s.recency.toList.filter p ++ [(i, r)]).map (·.2.turn.tick)).Pairwise (· < ·) := by
  rw [List.map_append, List.pairwise_append]
  refine ⟨h.ordered.sublist (List.filter_sublist.map _), List.pairwise_singleton _ _, ?_⟩
  intro t hm u hu
  obtain ⟨⟨j, r'⟩, hj, rfl⟩ := List.mem_map.1 hm
  obtain rfl := List.mem_singleton.1 hu
  have hle := (h.turn j r' (h.linked.mem_toList.1 (List.mem_of_mem_filter hj))).2
  have htick : r.turn.tick = s.tick + 1 := by rw [ht]; rfl
  dsimp only
  omega

theorem turn_ne (h : s.Valid) {t : Turn} (ht : t.tick = s.tick + 1) {j : Nat} {r' : Resident}
    (hj : s.recency.get? j = some r') : r'.turn ≠ t := by
  rintro rfl
  have := (h.turn j r' hj).2
  omega

/-- What holds of the resident of one slot and of all residents there were. -/
theorem forall_resident {P : Resident → Prop}
    (hget : ∀ j, l.get? j = if j = i then some r else s.recency.get? j) (hr : P r)
    (hs : ∀ j r', s.recency.get? j = some r' → P r') : ∀ j r', l.get? j = some r' → P r' := by
  intro j r' hj
  rw [hget] at hj
  split at hj
  · cases hj
    exact hr
  · exact hs j r' hj

/-- The turns are as they should be when a resident has the next one. -/
theorem turn_next (h : s.Valid) (ht : r.turn = .of r.entry (s.tick + 1))
    (hget : ∀ j, l.get? j = if j = i then some r else s.recency.get? j) :
    ∀ j r', l.get? j = some r' → r'.turn = .of r'.entry r'.turn.tick ∧ r'.turn.tick ≤ s.tick + 1 := by
  have htick : r.turn.tick = s.tick + 1 := by rw [ht]; rfl
  refine forall_resident hget ⟨htick ▸ ht, htick.le⟩ fun j r' hj => ?_
  obtain ⟨hturn, hle⟩ := h.turn j r' hj
  exact ⟨hturn, Nat.le_succ_of_le hle⟩

/-- A resident gives its slot to another with its key, or to itself with a new turn. -/
theorem refresh (h : s.Valid) (hi : s.recency.get? i = some old)
    (hk : r.entry.key = old.entry.key) (hp : r.entry.Proper)
    (ht : r.turn = .of r.entry (s.tick + 1)) (hl : l.WellLinked)
    (hget : ∀ j, l.get? j = if j = i then some r else s.recency.get? j)
    (hlist : l.toList = s.recency.toList.filter (·.1 ≠ i) ++ [(i, r)])
    (hs : s' = ({ s with tick := s.tick + 1, recency := l } : LinkedStore).reschedule
      old.turn r.turn i) :
    s'.Valid ∧ s'.get? = Tiles.put s.get? r.entry ∧ s'.entries = usedLast s.entries r.entry := by
  have htick : r.turn.tick = s.tick + 1 := by rw [ht]; rfl
  have hfun : l.get? = fun j => if j = i then some r else s.recency.get? j := funext hget
  have hslots : Leads s'.slots s'.recency.get? (·.entry.key) := by
    subst hs
    exact hfun ▸ h.slots.replace hi hk
  have hget' : ∀ j, s'.recency.get? j = if j = i then some r else s.recency.get? j := by
    subst hs
    exact hget
  have hput : s'.get? = Tiles.put s.get? r.entry := by
    refine get?_put h.slots hslots hget' fun old' hold => ?_
    rw [hk, Option.some.inj (hi.symm.trans hold)]
  have hentries : s'.entries = usedLast s.entries r.entry := by
    rw [usedLast, hk, ← h.entries_filter hi, hs]
    change l.toList.map _ = _
    rw [hlist, List.map_append]
    rfl
  subst hs
  refine ⟨⟨hl, hslots, ?_, h.turn_next ht hget, ?_, ?_, forall_resident hget hp h.proper⟩, hput,
    hentries⟩
  · have hschedule := (h.schedule.erase hi).insert (r := r) (if_pos rfl) fun j r' hj => by
      split at hj
      · cases hj
      · exact h.turn_ne htick hj
    have hres : (fun j => if j = i then some r else if j = i then none else s.recency.get? j) =
        l.get? := by
      funext j
      rw [hget]
      split <;> rfl
    exact hres ▸ hschedule
  · change (l.toList.map _).Pairwise _
    rw [hlist]
    exact h.ordered_concat ht
  · rw [hput]
    exact h.indexed.congr <| Tiles.has_put_of_some (hk ▸ h.get?_key hi)
      ((h.proper i old hi).image_eq_of_key_eq hp hk.symm)

/-- A resident comes with a key that is not there. -/
theorem come (h : s.Valid) (hi : s.recency.get? i = none) (hk : s.slots[r.entry.key]? = none)
    (hp : r.entry.Proper) (ht : r.turn = .of r.entry (s.tick + 1)) (hl : l.WellLinked)
    (hget : ∀ j, l.get? j = if j = i then some r else s.recency.get? j)
    (hlist : l.toList = s.recency.toList ++ [(i, r)])
    (hs : s' = { s with
      tick := s.tick + 1
      recency := l
      catalogue := s.catalogue.insert r.entry.image r.entry.key
      schedule := s.schedule.insert r.turn i
      slots := s.slots.insert r.entry.key i }) :
    s'.Valid ∧ s'.get? = Tiles.put s.get? r.entry ∧ s'.entries = usedLast s.entries r.entry := by
  have htick : r.turn.tick = s.tick + 1 := by rw [ht]; rfl
  have hfun : l.get? = fun j => if j = i then some r else s.recency.get? j := funext hget
  have hnone : s.get? r.entry.key = none := by simp [LinkedStore.get?, hk]
  have hslots : Leads s'.slots s'.recency.get? (·.entry.key) := by
    subst hs
    refine hfun ▸ h.slots.insert hi fun j r' hj he => ?_
    rw [← he, h.slots.getElem? hj] at hk
    cases hk
  have hget' : ∀ j, s'.recency.get? j = if j = i then some r else s.recency.get? j := by
    subst hs
    exact hget
  have hput : s'.get? = Tiles.put s.get? r.entry := by
    refine get?_put h.slots hslots hget' fun old hold => ?_
    rw [hi] at hold
    cases hold
  have hentries : s'.entries = usedLast s.entries r.entry := by
    rw [usedLast, h.without_entries hk, hs]
    change l.toList.map _ = _
    rw [hlist, List.map_append]
    rfl
  subst hs
  refine ⟨⟨hl, hslots, ?_, h.turn_next ht hget, ?_, ?_, forall_resident hget hp h.proper⟩, hput,
    hentries⟩
  · exact hfun ▸ h.schedule.insert hi fun j r' hj => h.turn_ne htick hj
  · change (l.toList.map _).Pairwise _
    rw [hlist, ← List.filter_true s.recency.toList]
    exact h.ordered_concat ht
  · rw [hput]
    exact (h.indexed.insert _ _).congr (Tiles.has_put hnone)

/-- A resident goes. -/
theorem go (h : s.Valid) (hi : s.recency.get? i = some r) (hl : l.WellLinked)
    (hget : ∀ j, l.get? j = if j = i then none else s.recency.get? j)
    (hlist : l.toList = s.recency.toList.filter (·.1 ≠ i))
    (hs : s' = { s with
      recency := l
      schedule := s.schedule.erase r.turn
      slots := s.slots.erase r.entry.key
      catalogue := s.catalogue.erase r.entry.image r.entry.key }) :
    s'.Valid ∧ s'.get? = Tiles.drop s.get? r.entry.key ∧
      s'.entries = without s.entries r.entry.key := by
  have hfun : l.get? = fun j => if j = i then none else s.recency.get? j := funext hget
  have hleft : ∀ {j r'}, l.get? j = some r' → s.recency.get? j = some r' := resident_of_emptied hget
  have hslots : Leads s'.slots s'.recency.get? (·.entry.key) := by
    subst hs
    exact hfun ▸ h.slots.erase hi
  have hdrop : s'.get? = Tiles.drop s.get? r.entry.key :=
    get?_drop h.slots hslots hi (by subst hs; exact hget)
  have hentries : s'.entries = without s.entries r.entry.key := by
    rw [← h.entries_filter hi, hs]
    change l.toList.map _ = _
    rw [hlist]
  subst hs
  refine ⟨⟨hl, hslots, hfun ▸ h.schedule.erase hi, fun j r' hj => h.turn j r' (hleft hj), ?_, ?_,
    fun j r' hj => h.proper j r' (hleft hj)⟩, hdrop, hentries⟩
  · change (l.toList.map _).Pairwise _
    rw [hlist]
    exact h.ordered.sublist (List.filter_sublist.map _)
  · rw [hdrop]
    exact (h.indexed.erase _ _).congr (Tiles.has_drop (h.get?_key hi))

end Valid

/-! ### Operations -/

theorem insert_meets (h : s.Valid) (he : e.Proper) :
    (insert e).Meets s True fun old s' =>
      s'.Valid ∧ old = s.get? e.key ∧ s'.get? = Tiles.put s.get? e ∧
        s'.entries = usedLast s.entries e := by
  unfold insert
  simp only [Mutation.meets_bind, Mutation.meets_modify, Mutation.meets_get]
  split
  · next i hi =>
    obtain ⟨old, hold, hkey⟩ := (h.slots e.key i).1 hi
    obtain ⟨l, hr, hl, hget, hlist⟩ := h.linked.replace hold ⟨e, .of e (s.tick + 1)⟩
    obtain ⟨hvalid, hput, hentries⟩ := h.refresh hold hkey.symm he rfl hl hget hlist rfl
    simp only [Mutation.meets_bind, inRecency, Mutation.meets_within]
    refine Mutation.meets_of_result hr ⟨hvalid, ?_, hput, hentries⟩
    rw [← hkey, h.get?_key hold]
  · next hi =>
    obtain ⟨hl, hnone, hget, hlist⟩ := h.linked.push ⟨e, .of e (s.tick + 1)⟩
    obtain ⟨hvalid, hput, hentries⟩ := h.come hnone hi he rfl hl hget hlist rfl
    refine ⟨hvalid, ?_, hput, hentries⟩
    simp [get?, hi]

/-- A look-up that uses what it finds changes nothing that can be found. -/
theorem use_meets (h : s.Valid) (k : TileKey) :
    (use k).Meets s True fun found s' =>
      s'.Valid ∧ found = s.get? k ∧ s'.get? = s.get? ∧
        s'.entries = found.elim s.entries (usedLast s.entries) := by
  unfold use
  simp only [Mutation.meets_bind, Mutation.meets_get]
  split
  · next hk => exact ⟨h, by simp [get?, hk], rfl, rfl⟩
  · next i hk =>
    obtain ⟨r, hi, rfl⟩ := (h.slots k i).1 hk
    have hturn : (⟨r.turn.cost, s.tick + 1⟩ : Turn) = .of r.entry (s.tick + 1) := by
      rw [(h.turn i r hi).1]
      rfl
    let used : Resident := ⟨r.entry, .of r.entry (s.tick + 1)⟩
    have hkey : used.entry.key = r.entry.key := rfl
    have hfound : s.get? r.entry.key = some r.entry := h.get?_key hi
    obtain ⟨l, hr, hget, hl, hassign, hlist⟩ := h.linked.use hi used
    obtain ⟨hvalid, hput, hentries⟩ :=
      h.refresh hi hkey (h.proper i r hi) rfl hl hassign hlist rfl
    simp only [Mutation.meets_bind, inRecency, Mutation.meets_within]
    refine Mutation.meets_of_result hr ?_
    simp only [Mutation.meets_bind, Mutation.meets_modify, Mutation.meets_get, hget, hi, hturn]
    exact ⟨hvalid, hfound.symm, hput.trans (Tiles.put_eq_self hfound), hentries⟩

/-- The resident of a slot is removed, and no other. -/
theorem removeSlot_meets (h : s.Valid) (hi : s.recency.get? i = some r) :
    (removeSlot i).Meets s True fun e s' =>
      s'.Valid ∧ e = r.entry ∧ s'.get? = Tiles.drop s.get? r.entry.key ∧
        (∀ j, s'.recency.get? j = if j = i then none else s.recency.get? j) ∧
        s'.schedule.size < s.schedule.size ∧ s'.entries = without s.entries r.entry.key := by
  obtain ⟨l, hr, hl, hget, hlist⟩ := h.linked.remove hi
  obtain ⟨hvalid, hdrop, hentries⟩ := h.go hi hl hget hlist rfl
  have hscheduled : s.schedule[r.turn]? = some i := h.schedule.getElem? hi
  have hknown : s.slots[r.entry.key]? = some i := h.slots.getElem? hi
  have hlisted : s.catalogue.contains r.entry.image r.entry.key :=
    (h.indexed.contains_iff _ _).2 ⟨r.entry, h.get?_key hi, rfl⟩
  have hmem : r.turn ∈ s.schedule := TreeMap.mem_iff_isSome_getElem?.2 (by simp [hscheduled])
  have hsize : (s.schedule.erase r.turn).size < s.schedule.size := by
    have hpos : s.schedule.size ≠ 0 := fun h0 =>
      TreeMap.not_mem_of_isEmpty (TreeMap.isEmpty_eq_size_eq_zero.trans (by simpa using h0)) hmem
    rw [TreeMap.size_erase, if_pos (TreeMap.contains_iff_mem.2 hmem)]
    omega
  unfold removeSlot
  simp only [Mutation.meets_bind, inRecency, Mutation.meets_within]
  refine Mutation.meets_of_result hr ?_
  simp only [Mutation.meets_get, Mutation.meets_set, hscheduled, hknown, hlisted, ne_eq,
    not_true_eq_false, if_false, Bool.not_true, Bool.false_eq_true, Mutation.meets_pure]
  exact ⟨hvalid, trivial, hdrop, hget, hsize, hentries⟩

theorem remove_meets (h : s.Valid) (k : TileKey) :
    (remove k).Meets s True fun found s' =>
      s'.Valid ∧ found = s.get? k ∧ s'.get? = Tiles.drop s.get? k ∧
        s'.entries = without s.entries k := by
  unfold remove
  simp only [Mutation.meets_bind, Mutation.meets_get]
  split
  · next hk =>
    have hnone : s.get? k = none := by simp [get?, hk]
    exact ⟨h, hnone.symm, (Tiles.drop_eq_self hnone).symm, (h.without_entries hk).symm⟩
  · next i hk =>
    obtain ⟨r, hi, rfl⟩ := (h.slots k i).1 hk
    rw [Mutation.meets_bind]
    refine (removeSlot_meets h hi).imp fun e s' hremoved => ?_
    obtain ⟨hvalid, he, hdrop, -, -, hentries⟩ := hremoved
    exact ⟨hvalid, by rw [he, h.get?_key hi], hdrop, hentries⟩

/-! ### Victims -/

theorem unprotected_iff {protect : Option TileKey} :
    s.unprotected protect i ↔ ∃ r, s.recency.get? i = some r ∧ some r.entry.key ≠ protect := by
  unfold unprotected entryAt?
  cases s.recency.get? i <;> simp

/-- What the schedule puts forward is not protected. -/
theorem exists_of_cheapest? {protect : Option TileKey} (hi : s.cheapest? protect = some i) :
    ∃ r, s.recency.get? i = some r ∧ some r.entry.key ≠ protect := by
  rw [cheapest?, Schedule.find?_eq] at hi
  exact unprotected_iff.1 (List.find?_some hi)

/-- If the schedule puts nothing forward, everything is protected. -/
theorem Valid.eq_protect_of_cheapest? {protect : Option TileKey} (h : s.Valid)
    (hnone : s.cheapest? protect = none) : ∀ e ∈ s.entries, some e.key = protect := by
  intro e he
  obtain ⟨i, r, hi, rfl⟩ := h.mem_entries.1 he
  rw [cheapest?, Schedule.find?_eq, List.find?_eq_none] at hnone
  have hmem : (r.turn, i) ∈ s.schedule.toList :=
    TreeMap.mem_toList_iff_getElem?_eq_some.2 (h.schedule.getElem? hi)
  by_contra hne
  exact hnone i (List.mem_map.2 ⟨_, hmem, rfl⟩) (unprotected_iff.2 ⟨r, hi, hne⟩)

/-- A sweep finds each slot once, and nothing that is protected. -/
theorem nodup_staleSlots (s : LinkedStore) (m : Moment) (budget : Nat)
    (protect : Option TileKey) : (s.staleSlots m budget protect).Nodup :=
  (nodup_round s.sweep s.recency.slots budget).filter _

theorem exists_of_mem_staleSlots {m : Moment} {budget : Nat} {protect : Option TileKey}
    (hi : i ∈ s.staleSlots m budget protect) :
    ∃ r, s.recency.get? i = some r ∧ some r.entry.key ≠ protect := by
  have hp := (List.mem_filter.1 hi).2
  rw [Bool.and_eq_true] at hp
  exact unprotected_iff.1 hp.1

theorem Valid.advanceSweep (h : s.Valid) (budget : Nat) : (s.advanceSweep budget).Valid := by
  unfold LinkedStore.advanceSweep
  split
  · exact h.withSweep _
  · exact h

@[simp] theorem recency_advanceSweep (s : LinkedStore) (budget : Nat) :
    (s.advanceSweep budget).recency = s.recency := by
  unfold advanceSweep
  split <;> rfl

@[simp] theorem slots_advanceSweep (s : LinkedStore) (budget : Nat) :
    (s.advanceSweep budget).slots = s.slots := by
  unfold advanceSweep
  split <;> rfl

@[simp] theorem get?_advanceSweep (s : LinkedStore) (budget : Nat) :
    (s.advanceSweep budget).get? = s.get? := by
  have hentry : (s.advanceSweep budget).entryAt? = s.entryAt? := by
    funext i
    rw [entryAt?, recency_advanceSweep, entryAt?]
  funext k
  rw [get?, slots_advanceSweep, hentry, get?]

@[simp] theorem entries_advanceSweep (s : LinkedStore) (budget : Nat) :
    (s.advanceSweep budget).entries = s.entries := by rw [entries, recency_advanceSweep, entries]

theorem get?_clear (s : LinkedStore) : s.clear.get? = fun _ => none := by
  funext k
  simp [clear, get?]

instance : Shelved LinkedStore where
  get? := get?
  entries := entries
  keysOf s image := s.catalogue.keys image
  Valid := Valid
  shelf := Valid.shelf
  nodup_keysOf _ image := Catalogue.nodup_keys _ image
  mem_keysOf h image k := h.indexed.mem_keys image k

end LinkedStore

end TileStore
