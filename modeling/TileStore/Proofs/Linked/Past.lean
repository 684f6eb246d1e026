import TileStore.Proofs.Linked.Lockstep
import TileStore.Proofs.RecencyMap

/-!
# Linked caches with a past

Two linked caches may be the same but that one of them has a past: before the other one started, it made
some entries, counted some uses and moved its counters. Then the numbers of its entries, the ticks of its
turns and its counters are greater by so much. `Past.kinship` relates such caches, and whatever is done
keeps them so: `Past.inStep`. Numbers and ticks are compared with each other only, and counters are not
read at all, so the past does not show.
-/

namespace TileStore

open Mutation
open Std (TreeMap)

/-! ### Turns -/

/-- The turn as it would be after so many uses more. -/
def Turn.later (t : Nat) (x : Turn) : Turn := { x with tick := x.tick + t }

theorem Turn.compare_later (t : Nat) (x y : Turn) : compare (x.later t) (y.later t) = compare x y := by
  have htick : compare (x.tick + t) (y.tick + t) = compare x.tick y.tick := by
    simp [Nat.compare_eq_ite_lt]
  exact congrArg (compare x.cost y.cost).then htick

namespace Schedule

/-- The second schedule has the same slots, at turns that are so much later. -/
structure Delayed (t : Nat) (s s' : Schedule) : Prop where
  getElem? : ∀ x : Turn, s'[x.later t]? = s[x]?
  exists_turn : ∀ {y : Turn} {i : Nat}, s'[y]? = some i → ∃ x : Turn, y = x.later t

namespace Delayed

variable {t : Nat} {s s' : Schedule}

theorem empty (t : Nat) : Delayed t {} {} := ⟨fun _ => by simp, fun h => by simp at h⟩

theorem insert (h : Delayed t s s') (x : Turn) (i : Nat) :
    Delayed t (TreeMap.insert s x i) (TreeMap.insert s' (x.later t) i) where
  getElem? y := by
    rw [TreeMap.getElem?_insert, TreeMap.getElem?_insert, Turn.compare_later, h.getElem?]
  exists_turn {y j} hy := by
    rw [TreeMap.getElem?_insert] at hy
    split at hy
    · next hxy => exact ⟨x, (Std.LawfulEqOrd.eq_of_compare hxy).symm⟩
    · exact h.exists_turn hy

theorem erase (h : Delayed t s s') (x : Turn) :
    Delayed t (TreeMap.erase s x) (TreeMap.erase s' (x.later t)) where
  getElem? y := by
    rw [TreeMap.getElem?_erase, TreeMap.getElem?_erase, Turn.compare_later, h.getElem?]
  exists_turn {y j} hy := by
    rw [TreeMap.getElem?_erase] at hy
    split at hy
    · cases hy
    · exact h.exists_turn hy

/-- The slots come in the same order. -/
theorem toList (h : Delayed t s s') :
    TreeMap.toList s' = (TreeMap.toList s).map (Prod.map (Turn.later t) id) := by
  -- both lists are sorted by their turns, so it is enough that they have the same members
  let before (p q : Turn × Nat) : Prop := compare p.1 q.1 = .lt
  have hasymm : ∀ p q : Turn × Nat, before p q → before q p → p = q := fun p q hpq hqp => by
    cases (Std.OrientedCmp.gt_of_lt hpq).symm.trans hqp
  have hnodup : ∀ {ps : List (Turn × Nat)}, ps.Pairwise before → ps.Nodup := fun hps =>
    hps.imp fun hpq heq => by simp [before, heq] at hpq
  have hleft : (TreeMap.toList s').Pairwise before := TreeMap.ordered_keys_toList
  have hright : ((TreeMap.toList s).map (Prod.map (Turn.later t) id)).Pairwise before := by
    refine List.pairwise_map.2 (TreeMap.ordered_keys_toList.imp fun {p q} hpq => ?_)
    exact (Turn.compare_later t p.1 q.1).trans hpq
  refine List.Perm.eq_of_pairwise (fun p q _ _ => hasymm p q) hleft hright ?_
  refine (List.perm_ext_iff_of_nodup (hnodup hleft) (hnodup hright)).2 ?_
  rintro ⟨y, i⟩
  rw [TreeMap.mem_toList_iff_getElem?_eq_some, List.mem_map]
  constructor
  · intro hy
    obtain ⟨x, rfl⟩ := h.exists_turn hy
    rw [h.getElem?] at hy
    exact ⟨(x, i), TreeMap.mem_toList_iff_getElem?_eq_some.2 hy, rfl⟩
  · rintro ⟨⟨x, j⟩, hx, hxy⟩
    obtain ⟨rfl, rfl⟩ := Prod.mk.inj hxy
    exact (h.getElem? x).trans (TreeMap.mem_toList_iff_getElem?_eq_some.1 hx)

end Delayed

end Schedule

/-! ### Stores -/

/-- The resident as it would be if so many entries had been made and so many uses counted before. -/
def Resident.later (k t : Nat) (r : Resident) : Resident := ⟨r.entry.later k, r.turn.later t⟩

namespace LinkedStore

/-- The second store is the same but that it has a past: so many entries were made before, and so many uses
counted. -/
structure Delayed (k t : Nat) (s s' : LinkedStore) : Prop where
  slots : s'.slots = s.slots
  recency : Recency.Maps (Resident.later k t) s.recency s'.recency
  schedule : Schedule.Delayed t s.schedule s'.schedule
  catalogue : s'.catalogue = s.catalogue
  tick : s'.tick = s.tick + t
  sweep : s'.sweep = s.sweep

namespace Delayed

variable {k t : Nat} {s s' : LinkedStore}

/-- A store that was cleared. -/
theorem clear (k t : Nat) (s s' : LinkedStore) (htick : s'.tick = s.tick + t) :
    Delayed k t s.clear s'.clear :=
  ⟨rfl, Recency.Maps.empty _, .empty t, rfl, htick, rfl⟩

theorem inRecency {α β : Type} {φ : α → β} {f : Mutation (Recency Resident) α}
    {g : Mutation (Recency Resident) β} (h : Tracks (Recency.Maps (Resident.later k t)) φ f g) :
    Tracks (Delayed k t) φ (inRecency f) (inRecency g) :=
  h.within (fun _ _ hs => hs.recency) fun _ _ _ _ hs hl =>
    ⟨hs.slots, hl, hs.schedule, hs.catalogue, hs.tick, hs.sweep⟩

theorem reschedule (h : Delayed k t s s') (old new : Turn) (slot : Nat) :
    Delayed k t (s.reschedule old new slot) (s'.reschedule (old.later t) (new.later t) slot) :=
  ⟨h.slots, h.recency, (h.schedule.erase old).insert new slot, h.catalogue, h.tick, h.sweep⟩

theorem nextTick (h : Delayed k t s s') :
    Delayed k t { s with tick := s.tick + 1 } { s' with tick := s'.tick + 1 } := by
  refine ⟨h.slots, h.recency, h.schedule, h.catalogue, ?_, h.sweep⟩
  rw [h.tick, Nat.add_right_comm]

theorem assign (h : Delayed k t s s') (slot : Nat) (r : Resident) :
    Delayed k t { s with recency := s.recency.assign slot r }
      { s' with recency := s'.recency.assign slot (r.later k t) } :=
  ⟨h.slots, h.recency.assign slot r, h.schedule, h.catalogue, h.tick, h.sweep⟩

theorem insert (k t : Nat) (e : Entry) :
    Tracks (Delayed k t) (Option.map (Entry.later k)) (LinkedStore.insert e)
      (LinkedStore.insert (e.later k)) := by
  refine (tracks_modify fun s s' h => h.nextTick).bind fun _ => tracks_get fun s s' h => ?_
  have hturn : Turn.of (e.later k) s'.tick = (Turn.of e s.tick).later t := by
    rw [h.tick]
    rfl
  have hresident : Resident.later k t ⟨e, .of e s.tick⟩ = ⟨e.later k, (Turn.of e s.tick).later t⟩ := rfl
  dsimp only
  rw [hturn, ← hresident, Entry.key_later, h.slots]
  cases s.slots[e.key]? with
  | some slot =>
    refine (inRecency (Recency.tracks_replace _ slot _)).bind (fun old => ?_) s s' h
    refine (tracks_modify fun _ _ h => h.reschedule old.turn _ slot).bind fun _ => ?_
    exact tracks_pure rfl
  | none =>
    dsimp only
    rw [h.recency.push]
    refine ⟨rfl, ?_, rfl, h.schedule.insert _ _, ?_, h.tick, h.sweep⟩
    · exact congrArg (·.insert e.key _) h.slots
    · exact congrArg (·.insert e.image e.key) h.catalogue

theorem use (k t : Nat) (key : TileKey) :
    Tracks (Delayed k t) (Option.map (Entry.later k)) (LinkedStore.use key) (LinkedStore.use key) := by
  refine tracks_get fun s s' h => ?_
  rw [h.slots]
  cases s.slots[key]? with
  | none => exact ⟨rfl, h⟩
  | some slot =>
    refine (inRecency (Recency.tracks_moveToFront _ slot)).bind (fun _ => ?_) s s' h
    refine (tracks_modify fun _ _ h => h.nextTick).bind fun _ => tracks_get fun s s' h => ?_
    rw [h.recency.get?]
    cases s.recency.get? slot with
    | none => trivial
    | some r =>
      have hturn : { (r.later k t).turn with tick := s'.tick } =
          Turn.later t { r.turn with tick := s.tick } := by
        rw [h.tick]
        rfl
      dsimp only [Option.map_some]
      rw [alike_set_left, alike_set_right, hturn]
      exact ⟨rfl, (h.assign slot { r with turn := { r.turn with tick := s.tick } }).reschedule _ _ slot⟩

theorem removeSlot (k t : Nat) (slot : Nat) :
    Tracks (Delayed k t) (Entry.later k) (LinkedStore.removeSlot slot)
      (LinkedStore.removeSlot slot) := by
  refine (inRecency (Recency.tracks_remove _ slot)).bind fun r => tracks_get fun s s' h => ?_
  have hentry : (r.later k t).entry = r.entry.later k := rfl
  have hturn : (r.later k t).turn = r.turn.later t := rfl
  dsimp only
  rw [alike_set_left, alike_set_right, hentry, hturn, h.schedule.getElem?, h.slots, h.catalogue]
  have herased : Delayed k t
      { s with
        schedule := s.schedule.erase r.turn
        slots := s.slots.erase r.entry.key
        catalogue := s.catalogue.erase r.entry.image r.entry.key }
      { s' with
        schedule := s'.schedule.erase (r.turn.later t)
        slots := s.slots.erase r.entry.key
        catalogue := s.catalogue.erase r.entry.image r.entry.key } :=
    ⟨rfl, h.recency, h.schedule.erase r.turn, rfl, h.tick, h.sweep⟩
  rw [Entry.key_later, Entry.image_later]
  split
  · trivial
  · split
    · trivial
    · split
      · trivial
      · exact ⟨rfl, herased⟩

theorem inStep (k t : Nat) : LinkedStore.InStep k (Delayed k t) where
  slots h := h.slots
  catalogue h := h.catalogue
  sweepWindow budget h := by
    rw [sweepWindow, sweepWindow, h.recency.slots, h.sweep]
  entryAt? slot h := by
    rw [entryAt?, entryAt?, h.recency.get?, Option.map_map, Option.map_map]
    rfl
  entries h := by
    rw [entries, entries, h.recency.toList, List.map_map, List.map_map]
    rfl
  schedule h := by
    rw [h.schedule.toList, List.map_map]
    rfl
  insert := insert k t
  use := use k t
  removeSlot := removeSlot k t
  moveSweep slot h := ⟨h.slots, h.recency, h.schedule, h.catalogue, h.tick, rfl⟩
  clear h := clear k t _ _ h.tick

end Delayed

end LinkedStore

/-! ### Registers -/

namespace Register

/-- The second register has the same statuses after those of so many entries made before. -/
structure Delayed (k : Nat) (r r' : Register) : Prop where
  size : r'.size = r.size + k
  getElem? : ∀ i, r'.statuses[i + k]? = r.statuses[i]?

variable {k : Nat} {r r' : Register}

theorem Delayed.status (h : Delayed k r r') (i : Nat) : r'.status (i + k) = r.status i := by
  rw [Register.status, Register.status, h.getElem?]

theorem Delayed.modify (h : Delayed k r r') (seq : Nat) (f : Status → Status) :
    Delayed k ⟨r.statuses.modify seq f⟩ ⟨r'.statuses.modify (seq + k) f⟩ where
  size := by simpa [Register.size] using h.size
  getElem? i := by simp only [Array.getElem?_modify, Nat.add_right_cancel_iff, h.getElem?]

theorem Delayed.enter (h : Delayed k r r') (now : Nat) : Delayed k (r.enter now) (r'.enter now) where
  size := by rw [size_enter, size_enter, h.size, Nat.add_right_comm]
  getElem? i := by
    have hsize : r'.statuses.size = r.statuses.size + k := h.size
    rw [Register.enter, Register.enter, Array.getElem?_push, Array.getElem?_push, hsize, h.getElem?]
    simp only [Nat.add_right_cancel_iff]

theorem delayed_inStep (k now : Nat) : Register.InStep k now now (Delayed k) where
  enter h := h.enter now
  touch seq h := h.modify seq (·.touch now)
  mark seq a h := h.modify seq (·.mark a)

/-- Nothing is known of entries that are not made yet. -/
theorem delayed_of_size (h : r.size = k) : Delayed k {} r where
  size := h.trans (Nat.zero_add k).symm
  getElem? i := by
    rw [Array.getElem?_eq_none (Nat.le_trans (Nat.le_of_eq h) (Nat.le_add_left k i))]
    simp

end Register

/-! ### Ledgers -/

namespace Counters

theorem count_onTopOf (c base : Counters) (x : Happening) :
    (c.onTopOf base).count x = (c.count x).onTopOf base := by
  obtain ⟨on, hits, misses, inserts, updates, removals, evictions⟩ := c
  cases on with
  | false => rfl
  | true => rcases x with (_ | _) | (_ | _) | n | n <;> simp [count, onTopOf, UInt64.add_assoc]

theorem onTopOf_zero (c : Counters) : c.onTopOf {} = c := by simp [onTopOf]

end Counters

/-- What sets a cache apart from one that started later. -/
structure Past where
  /-- Entries made before. -/
  made : Nat
  /-- Uses counted before. -/
  uses : Nat
  /-- The counters before. -/
  counters : Counters

namespace Ledger

/-- The second ledger is the same but that it has a past. Recency and observers mean nothing to a linked
cache. -/
structure Delayed (p : Past) (l l' : Ledger) : Prop where
  capacity : l'.capacity = l.capacity
  threshold : l'.threshold = l.threshold
  memoryUsed : l'.memoryUsed = l.memoryUsed
  tileCount : l'.tileCount = l.tileCount
  nextSeq : l'.nextSeq = l.nextSeq + p.made
  counters : l'.counters = l.counters.onTopOf p.counters
  overhead : l'.overhead = l.overhead

namespace Delayed

variable {p : Past} {l l' : Ledger}

theorem charge (h : Delayed p l l') (size : UInt64) : Delayed p (l.charge size) (l'.charge size) :=
  { h with memoryUsed := congrArg (· + size) h.memoryUsed }

theorem release (p : Past) (size : UInt64) :
    Tracks (Delayed p) id (Ledger.release size) (Ledger.release size) := by
  refine tracks_get fun l l' h => ?_
  rw [alike_set_left, alike_set_right, h.memoryUsed]
  split
  · trivial
  · exact ⟨rfl, { h with memoryUsed := rfl }⟩

theorem account (p : Past) (came went : Option UInt64) :
    Tracks (Delayed p) id (Ledger.account came went) (Ledger.account came went) := by
  cases came with
  | none =>
    cases went with
    | none => exact tracks_pure rfl
    | some size =>
      refine (release p size).bind fun _ => tracks_get fun l l' h => ?_
      rw [alike_set_left, alike_set_right, h.tileCount]
      split
      · trivial
      · exact ⟨rfl, { h with tileCount := rfl }⟩
  | some came =>
    cases went with
    | none =>
      exact tracks_modify fun l l' h => { h.charge came with
        tileCount := congrArg (· + 1) h.tileCount }
    | some went => exact (tracks_modify fun _ _ h => h.charge came).bind fun _ => release p went

theorem count (h : Delayed p l l') (x : Happening) : Delayed p (l.count x) (l'.count x) :=
  { h with counters := (congrArg (·.count x) h.counters).trans (Counters.count_onTopOf ..) }

theorem inStep (p : Past) : Ledger.InStep p.made (Delayed p) where
  capacity h := h.capacity
  threshold h := h.threshold
  overhead h := h.overhead
  memoryUsed h := h.memoryUsed
  nextSeq h := h.nextSeq
  make h := { h with nextSeq := (congrArg (· + 1) h.nextSeq).trans (Nat.add_right_comm ..) }
  account := account p
  count x h := h.count x
  switch on h := { h with counters := congrArg (fun c => { c with enabled := on }) h.counters }
  withCapacity _ h := { h with capacity := rfl }
  withThreshold _ h := { h with threshold := rfl }

end Delayed

end Ledger

/-! ### Caches -/

namespace Past

/-- The second of two linked caches has a past. -/
def kinship (p : Past) : Kinship where
  offset := p.made
  ledger := Ledger.Delayed p
  register := Register.Delayed p.made
  store := LinkedStore.Delayed p.made p.uses

theorem inStep (p : Past) (m : Moment) : p.kinship.InStep m m where
  alive := rfl
  ledger := Ledger.Delayed.inStep p
  register := Register.delayed_inStep p.made m.now
  store := LinkedStore.Delayed.inStep p.made p.uses

theorem shows (p : Past) : p.kinship.Shows p.counters where
  tileCount h := h.tileCount
  counters h := h.counters
  status h := h.status

end Past

end TileStore
