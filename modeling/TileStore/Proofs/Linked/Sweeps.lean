import TileStore.Proofs.Linked.Slots
import TileStore.Proofs.Linked.Victims

/-!
# The sweeps of a linked cache

A pass sweeps if it finds more in use than its target. `Request.sweeps` are the sweeps of a request that
come to their end, each with the cache that it starts from, so all that a sweep does can be read off it.
A stale entry that a sweep inspects goes, unless the pass spares it or has met its target before:
`Sweep.passes_over`.

Sweeps and what is done between them make up a `Course`. In it each sweep goes on where the one before
it stopped (`Course.goesOn`), so none can jump over a slot (`Course.exists_inspected`), and who stays
cached stays in one slot (`Course.same_slot`). What a cache does between two flushes is a course, request
by request: `Request.performs` says this of requests that are answered, with what the log tells of their
sweeps, and `Request.exists_course` of all requests, as far as they come.
-/

namespace TileStore

open Vault Mutation

/-! ### Passes above their target -/

/-- A pass that found more in use than its target, and ended: when it was made, what it spared, and the
cache that it started from. -/
structure Sweep where
  moment : Moment
  protect : Option TileKey
  before : Linked

namespace Sweep

/-- What comes of the pass. -/
def result (p : Sweep) : Except Fault Pass × Linked :=
  (Linked.evict p.moment p.protect).result p.before

/-- The cache that it left. -/
def after (p : Sweep) : Linked := p.result.2

/-- The evicted entries, in order. -/
def victims (p : Sweep) : List Entry :=
  match p.result.1 with
  | .ok pass => pass.victims
  | .error _ => []

/-- How many slots there were. -/
def slots (p : Sweep) : Nat := p.before.store.recency.slots

/-- The slots that it inspected, in order. -/
def inspected (p : Sweep) : List Nat := p.before.store.sweepWindow Linked.sweepBudget

/-- The entries without an owner that it came to, in order, without the one that it spared. -/
def stale (p : Sweep) : List Entry := p.before.store.sweptStale p.moment p.protect

/-- Where the sweep starts, and over how many slots. -/
def round (p : Sweep) : Nat × Nat := (p.before.store.sweep, p.slots)

/-- What the log tells of it. -/
def line (p : Sweep) : LogLine :=
  .passEnded "linked" p.victims.length
    (p.before.ledger.memoryUsed - p.after.ledger.memoryUsed) p.before.ledger.target
    p.after.ledger.memoryUsed

/-- A pass sweeps unless no more is in use than the target. -/
def ofPass (m : Moment) (protect : Option TileKey) (v : Linked) : List Sweep :=
  if v.ledger.memoryUsed ≤ v.ledger.target then []
  else
    match (Linked.evict m protect).result v with
    | (.ok _, _) => [⟨m, protect, v⟩]
    | (.error _, _) => []

/-- The sweep of a write, if it starts a pass. -/
def ofWrite (m : Moment) (e : Entry) (v : Linked) : List Sweep :=
  match (Linked.put e).result v with
  | (.ok _, w) => if w.ledger.isOverCapacity then ofPass m (some e.key) w else []
  | (.error _, _) => []

/-- The sweeps of several writes, in order. -/
def ofWrites (m : Moment) : List Entry → Linked → List Sweep
  | [], _ => []
  | e :: es, v =>
    ofWrite m e v ++
      match (Linked.write m e).result v with
      | (.ok _, w) => ofWrites m es w
      | (.error _, _) => []

end Sweep

/-- The sweeps of a request to a linked cache, in order. -/
def Request.sweeps (m : Moment) (v : Linked) : Request Owner Identity → List Sweep
  | .add owner p payload cost =>
    match (newEntry m owner p payload cost).result v with
    | (.ok e, w) => Sweep.ofWrite m e w
    | (.error _, _) => []
  | .addBatch owner points payloads costs =>
    match ((aligned points payloads costs).mapM fun (p, payload, cost) =>
      newEntry m owner p payload cost).result v with
    | (.ok es, w) => Sweep.ofWrites m es w
    | (.error _, _) => []
  | .relieve => Sweep.ofPass m none v
  | .setCapacity bytes =>
    match v.ledger.setCapacity bytes with
    | .ok l => if l.isOverCapacity then Sweep.ofPass m none { v with ledger := l } else []
    | .error _ => []
  | _ => []

/-! ### Where sweeps start -/

namespace Sweep

variable {m : Moment} {protect : Option TileKey} {v : Linked} {e : Entry} {es : List Entry} {p : Sweep}

theorem of_mem_ofPass (h : p ∈ ofPass m protect v) : p.moment = m ∧ p.before = v := by
  unfold ofPass at h
  split at h
  · cases h
  · split at h
    · rw [List.mem_singleton.1 h]
      exact ⟨rfl, rfl⟩
    · cases h

theorem of_mem_ofWrite (h : p ∈ ofWrite m e v) :
    p.moment = m ∧ p.before.ledger.isOverCapacity ∧
      ∃ replaced, (Linked.put e).result v = (.ok replaced, p.before) := by
  unfold ofWrite at h
  split at h
  · next replaced w hr =>
    split at h
    · next hover =>
      obtain ⟨hm, hw⟩ := of_mem_ofPass h
      rw [hw]
      exact ⟨hm, hover, replaced, hr⟩
    · cases h
  · cases h

theorem of_mem_ofWrites (h : p ∈ ofWrites m es v) :
    p.moment = m ∧ p.before.ledger.isOverCapacity ∧ ∃ before e after ws w replaced,
      es = before ++ e :: after ∧ (before.mapM (Linked.write m)).result v = (.ok ws, w) ∧
        (Linked.put e).result w = (.ok replaced, p.before) := by
  induction es generalizing v with
  | nil => cases h
  | cons e es ih =>
    rcases List.mem_append.1 h with h | h
    · obtain ⟨hm, hover, replaced, hr⟩ := of_mem_ofWrite h
      exact ⟨hm, hover, [], e, es, [], v, replaced, rfl, rfl, hr⟩
    · split at h
      · next x w hr =>
        obtain ⟨hm, hover, before, f, after, ws, w', replaced, rfl, hws, hput⟩ := ih h
        refine ⟨hm, hover, e :: before, f, after, x :: ws, w', replaced, rfl, ?_, hput⟩
        simp only [List.mapM_cons, result_bind, hr, hws, result_pure]
      · cases h

end Sweep

/-- The sweeps of a request start where its passes do. -/
theorem Request.starts_of_mem_sweeps {q : Request Owner Identity} {m : Moment} {v : Linked} {p : Sweep}
    (h : p ∈ q.sweeps m v) : p.moment = m ∧ ∃ used, Linked.Starts m v q used p.before := by
  cases q with
  | add owner pos payload cost =>
    unfold sweeps at h
    dsimp only at h
    split at h
    · next e w hmake =>
      obtain ⟨hm, hover, replaced, hput⟩ := Sweep.of_mem_ofWrite h
      exact ⟨hm, [e], .add hmake hput hover⟩
    · cases h
  | addBatch owner points payloads costs =>
    unfold sweeps at h
    dsimp only at h
    split at h
    · next es w hmake =>
      obtain ⟨hm, hover, before, e, after, ws, w', replaced, rfl, hws, hput⟩ :=
        Sweep.of_mem_ofWrites h
      obtain htiles | hnil := aligned_or_eq_nil points payloads costs
      · exact ⟨hm, _, .addBatch htiles hmake hws hput hover⟩
      · rw [hnil] at hmake
        exact absurd (numbered_of_newEntries hmake).1 (List.append_ne_nil_of_right_ne_nil _ nofun)
    · cases h
  | relieve =>
    obtain ⟨hm, hv⟩ := Sweep.of_mem_ofPass h
    exact ⟨hm, [], hv ▸ .relieve⟩
  | setCapacity bytes =>
    unfold sweeps at h
    dsimp only at h
    split at h
    · next l hl =>
      split at h
      · next hover =>
        obtain ⟨hm, hv⟩ := Sweep.of_mem_ofPass h
        exact ⟨hm, [], hv ▸ .setCapacity hl hover⟩
      · cases h
    · cases h
  | _ => cases h

/-! ### What a sweep passes over -/

namespace Sweep

variable {p : Sweep} {pass : Pass} {slot : Nat} {e : Entry}

theorem mem_stale (hi : p.before.store.entryAt? slot = some e) (hslot : slot ∈ p.inspected)
    (hstale : e.isStale p.moment) (hp : some e.key ≠ p.protect) : e ∈ p.stale := by
  obtain ⟨i, hi', rfl⟩ := List.mem_map.1 hslot
  refine mem_exposed.2 ⟨List.mem_filter.2 ⟨List.mem_filterMap.2 ⟨i, hi', hi⟩, hstale⟩, hp⟩

/-- A stale entry that a pass inspects and leaves is the one that it spares, or comes after all that it
takes of the stale ones, when the target has been met. -/
theorem passes_over (hs : p.before.Sound) (hok : p.result.1 = .ok pass)
    (hi : p.before.store.entryAt? slot = some e) (hslot : slot ∈ p.inspected)
    (hstale : e.isStale p.moment) (hleft : e ∈ p.after.entries) :
    some e.key = p.protect ∨ ∃ front back, p.stale = front ++ e :: back ∧ p.victims <+: front ∧
      p.after.ledger.memoryUsed ≤ p.before.ledger.target := by
  refine or_iff_not_imp_left.2 fun hp => ?_
  have hresult : (Linked.evict p.moment p.protect).result p.before = (.ok pass, p.after) :=
    Prod.ext hok rfl
  have hvictims : p.victims = pass.victims := by rw [victims, hok]
  obtain ⟨front, back, hsplit⟩ := List.append_of_mem (mem_stale hi hslot hstale hp)
  have hkey : p.before.store.InTurn (turnAfter p.before.entries) := by
    refine hs.valid.inTurn ?_
    rw [hs.shelf.nodup.dedup]
    exact .refl _
  obtain ⟨rest, hrest⟩ := hkey.exists_inLine hs.valid (List.filter_sublist.trans List.filter_sublist)
  have hshortest := (Linked.evict_takes hs hkey hrest).of_ok hresult
  have hevicts := ((Linked.evict_meets p.moment p.protect hs).of_ok hresult).1.evicts
  have hperm := hevicts.perm hs
  have hgone : e ∉ p.victims := fun he =>
    (List.nodup_append.1 (hperm.nodup_iff.1 hs.shelf.nodup)).2.2 e (hvictims ▸ he) e hleft rfl
  change Shortest _ _ (p.stale ++ rest) _ at hshortest
  rw [hsplit, List.append_assoc, List.cons_append, ← hvictims] at hshortest
  obtain ⟨hfront, hmet⟩ := hshortest.stops_before hgone
  refine ⟨front, back, hsplit, hfront, ?_⟩
  rwa [hs.balanced.usedWithout hevicts.becomes.sound.balanced hperm, ← hvictims]

end Sweep

/-! ### What the log tells -/

/-- A line tells that a pass of a linked cache above its target has ended. -/
def LogLine.endsPass (l : LogLine) : Bool := l.message = "linked tile cache eviction pass"

theorem LogLine.endsPass_passEnded (victims : Nat) (freed target memoryUsed : UInt64) :
    (passEnded "linked" victims freed target memoryUsed).endsPass := rfl

theorem LogLine.filter_endsPass_evicted (es : List Entry) (stale : Entry → Bool) :
    (es.map fun e => evicted e (stale e)).filter endsPass = [] := by
  refine List.filter_eq_nil_iff.2 fun l hl => ?_
  obtain ⟨e, -, rfl⟩ := List.mem_map.1 hl
  exact Bool.false_ne_true

theorem Vault.filter_endsPass_oversizeWarning (v : Linked) (e : Entry) :
    (v.oversizeWarning e).filter LogLine.endsPass = [] := by
  unfold oversizeWarning
  split <;> rfl

namespace Notice

/-- The lines that tell of passes, in order. -/
def passLines (ns : List Notice) : List LogLine :=
  ns.filterMap fun
    | .log l => Option.guard LogLine.endsPass l
    | _ => none

@[simp] theorem passLines_append (ns ns' : List Notice) :
    passLines (ns ++ ns') = passLines ns ++ passLines ns' := List.filterMap_append

@[simp] theorem passLines_log (lines : List LogLine) :
    passLines (lines.map .log) = lines.filter LogLine.endsPass := by
  rw [passLines, List.filterMap_map]
  exact congrFun List.filterMap_eq_filter lines

/-- To count and to tell makes no lines. -/
theorem passLines_told (x : Happening) (es : List Entry) (a : Action) :
    passLines (.count x :: es.map (.tell · a)) = [] := by
  refine List.filterMap_eq_nil_iff.2 fun n hn => ?_
  rcases List.mem_cons.1 hn with rfl | hn
  · rfl
  · obtain ⟨e, -, rfl⟩ := List.mem_map.1 hn
    rfl

@[simp] theorem passLines_evicted (es : List Entry) : passLines (evicted es) = [] :=
  passLines_told _ es .evicted

@[simp] theorem passLines_removed (es : List Entry) : passLines (removed es) = [] :=
  passLines_told _ es .removed

@[simp] theorem passLines_written (w : Linked.Written) : passLines w.notices = [] :=
  passLines_evicted _

@[simp] theorem passLines_flatMap_written (ws : List Linked.Written) :
    passLines (ws.flatMap (·.notices)) = [] := by
  induction ws with
  | nil => rfl
  | cons w ws ih => simp [ih]

end Notice

/-! ### One after the other -/

/-- A linked cache makes these sweeps one after the other, and waits in between. The entries that are
made meanwhile have the numbers from `n` on. -/
inductive Course : Nat → Linked → List Sweep → Nat → Linked → Prop where
  | waits {n n' : Nat} {v v' : Linked} : n ≤ n' → v.store.Waits n n' v'.store → Course n v [] n' v'
  | sweep {n k n' : Nat} {v v' : Linked} {p : Sweep} {pass : Pass} {ps : List Sweep} :
    n ≤ k → v.store.Waits n k p.before.store → p.before.ledger.target < p.before.ledger.memoryUsed →
    p.result.1 = .ok pass → Course k p.after ps n' v' → Course n v (p :: ps) n' v'

namespace Course

variable {n k n' : Nat} {v w v' : Linked} {p : Sweep} {ps qs : List Sweep}

theorem refl (n : Nat) (v : Linked) : Course n v [] n v := .waits le_rfl (.refl n n _)

theorem trans (h : Course n v ps k w) (h' : Course k w qs n' v') : Course n v (ps ++ qs) n' v' := by
  induction h with
  | waits hn hw =>
    cases h' with
    | waits hn' hw' =>
      exact .waits (hn.trans hn') ((hw.mono le_rfl hn').trans (hw'.mono hn le_rfl))
    | sweep hn' hw' hover hok hrest =>
      exact .sweep (hn.trans hn') ((hw.mono le_rfl hn').trans (hw'.mono hn le_rfl)) hover hok hrest
  | sweep hn hw hover hok _ ih => exact .sweep hn hw hover hok (ih h')

/-- The sweep of one pass. -/
theorem one {m : Moment} {protect : Option TileKey} {pass : Pass} (n : Nat)
    (hover : v.ledger.target < v.ledger.memoryUsed)
    (hr : (Linked.evict m protect).result v = (.ok pass, v')) : Course n v [⟨m, protect, v⟩] n v' := by
  have hafter : Sweep.after ⟨m, protect, v⟩ = v' := congrArg Prod.snd hr
  exact .sweep le_rfl (.refl n n _) hover (congrArg Prod.fst hr) (hafter ▸ .refl n v')

/-- Only the stores matter. -/
theorem of_store {u u' : Linked} (h : Course n v ps n' v') (hs : u.store = v.store)
    (hs' : u'.store = v'.store) : Course n u ps n' u' := by
  have hstart : Course n u [] n v := .waits le_rfl (hs ▸ .refl n n _)
  have hend : Course n' v' [] n' u' := .waits le_rfl (hs' ▸ .refl n' n' _)
  rw [← List.append_nil ps]
  exact hstart.trans (h.trans hend)

/-- A pass leaves the next sweep to go on where its own stopped, and every entry in its slot. -/
theorem waits_after {pass : Pass} (n n' : Nat)
    (hover : p.before.ledger.target < p.before.ledger.memoryUsed) (hok : p.result.1 = .ok pass) :
    (p.before.store.advanceSweep Linked.sweepBudget).Waits n n' p.after.store :=
  (Linked.evict_waits n n' p.moment p.protect hover).of_ok (Prod.ext hok rfl)

theorem exists_waits (h : Course n v (p :: ps) n' v') :
    ∃ k, v.store.Waits n k p.before.store := by
  cases h with
  | sweep _ hw _ _ _ => exact ⟨_, hw⟩

/-- Each sweep goes on where the one before it stopped. -/
theorem goesOn (h : Course n v ps n' v') :
    (ps.map Sweep.round).IsChain (GoesOn Linked.sweepBudget) := by
  induction h with
  | waits => exact .nil
  | @sweep n k n' v v' p pass ps _ _ hover hok hrest ih =>
    refine List.isChain_cons.2 ⟨fun r hr => ?_, ih⟩
    have hafter := waits_after k k hover hok
    cases ps with
    | nil => cases hr
    | cons q ps =>
      cases hr
      obtain ⟨k', hw⟩ := hrest.exists_waits
      refine ⟨?_, fun last hlast => ?_⟩
      · have hslots := hafter.slots.trans hw.slots
        rwa [LinkedStore.recency_advanceSweep] at hslots
      · have hwindow : (p.before.store.sweepWindow Linked.sweepBudget).getLast? = some last := hlast
        rw [Sweep.round, hw.sweep, hafter.sweep, LinkedStore.advanceSweep, hwindow]

/-- Who is in a slot when a sweep starts, and has an early number, was there in the beginning. -/
theorem kept {i : Nat} {e : Entry} (h : Course n v ps n' v') (hp : p ∈ ps)
    (hi : p.before.store.entryAt? i = some e) (he : e.seq < n) : v.store.entryAt? i = some e := by
  induction h with
  | waits => cases hp
  | @sweep n k n' v v' q pass ps hn hw hover hok hrest ih =>
    have hearly : q.before.store.entryAt? i = some e → v.store.entryAt? i = some e := fun hi =>
      (hw.kept i e hi).resolve_right fun hlate => Nat.not_lt.2 hlate.1 he
    rcases List.mem_cons.1 hp with rfl | hp
    · exact hearly hi
    · have hleft := ((waits_after k k hover hok).kept i e (ih hp (he.trans_le hn))).resolve_right
        fun hlate => Nat.not_lt.2 hlate.1 hlate.2
      rw [LinkedStore.entryAt?, LinkedStore.recency_advanceSweep] at hleft
      exact hearly hleft

/-- Each sweep was made by a pass above its target that ended. -/
theorem of_mem (h : Course n v ps n' v') (hp : p ∈ ps) :
    p.before.ledger.target < p.before.ledger.memoryUsed ∧ ∃ pass, p.result.1 = .ok pass := by
  induction h with
  | waits => cases hp
  | sweep _ _ hover hok _ ih =>
    rcases List.mem_cons.1 hp with rfl | hp
    · exact ⟨hover, _, hok⟩
    · exact ih hp

/-- A course can be left after any of its sweeps. -/
theorem leave (h : Course n v (ps ++ qs) n' v') : ∃ k w, Course n v ps k w := by
  induction ps generalizing n v with
  | nil => exact ⟨n, v, .refl n v⟩
  | cons p ps ih =>
    cases h with
    | sweep hn hw hover hok hrest =>
      obtain ⟨k, w, hps⟩ := ih hrest
      exact ⟨k, w, .sweep hn hw hover hok hps⟩

/-- A course can be taken up at any of its sweeps. -/
theorem resume (h : Course n v (qs ++ p :: ps) n' v') (hb : v.store.Below n) :
    ∃ k, p.before.store.Below k ∧ Course k p.before (p :: ps) n' v' := by
  induction qs generalizing n v with
  | nil =>
    cases h with
    | sweep hn hw hover hok hrest =>
      exact ⟨_, hb.waits hn hw, .sweep le_rfl (.refl _ _ _) hover hok hrest⟩
  | cons q qs ih =>
    cases h with
    | sweep hn hw hover hok hrest =>
      refine ih hrest fun i e hi => (hb.waits hn hw) i e ?_
      have hleft := ((waits_after 0 0 hover hok).kept i e hi).resolve_right fun hlate =>
        Nat.not_lt_zero _ hlate.2
      rwa [LinkedStore.entryAt?, LinkedStore.recency_advanceSweep] at hleft

/-- An entry is in the same slot whenever a sweep starts. -/
theorem same_slot {i j : Nat} {e : Entry} (h : Course n p.before (p :: ps) n' v')
    (hb : p.before.store.Below n) (hp : p.before.Sound) {q : Sweep} (hq : q ∈ p :: ps)
    (hi : p.before.store.entryAt? i = some e) (hj : q.before.store.entryAt? j = some e) : j = i := by
  obtain ⟨r, hr, rfl⟩ := Option.map_eq_some_iff.1 hi
  obtain ⟨r', hr', heq⟩ := Option.map_eq_some_iff.1 (h.kept hq hj (hb i r.entry hi))
  exact hp.valid.slots.inj hr' hr (congrArg Entry.key heq)

/-- **No slot is overlooked**: sweeps one after the other inspect every slot that there was at the first
of them, when they come to as many slots together as there are at the last one. -/
theorem exists_inspected {last : Sweep} {slot : Nat} (h : Course n v (p :: ps) n' v')
    (hlast : (p :: ps).getLast? = some last) (hslot : slot < p.slots)
    (hround : last.slots ≤ (p :: ps).length * Linked.sweepBudget) :
    ∃ q ∈ p :: ps, slot ∈ q.inspected := by
  have hend : ((p :: ps).map Sweep.round).getLast? = some last.round := by
    rw [List.getLast?_map, hlast, Option.map_some]
  have hlength : last.slots ≤ ((p :: ps).map Sweep.round).length * Linked.sweepBudget := by
    rwa [List.length_map]
  obtain ⟨r, hr, hfound⟩ := exists_mem_stretch h.goesOn hend hslot hlength
  obtain ⟨q, hq, rfl⟩ : ∃ q ∈ p :: ps, q.round = r := List.mem_map.1 hr
  exact ⟨q, hq, hfound⟩

end Course

namespace Linked

/-- What was done is these sweeps, and the log tells of them. -/
structure Performs (n : Nat) (v : Linked) (ps : List Sweep) (lines : List LogLine) (n' : Nat)
    (v' : Linked) : Prop where
  course : Course n v ps n' v'
  lines : lines = ps.map Sweep.line

theorem performs_evict (n : Nat) (m : Moment) (protect : Option TileKey) (v : Linked) :
    (evict m protect).Meets v False fun pass v' =>
      Performs n v (Sweep.ofPass m protect v) (pass.log.filter LogLine.endsPass) n v' := by
  unfold Sweep.ofPass
  split
  · next hle =>
    unfold evict
    rw [meets_bind, meets_get]
    dsimp only
    rw [if_pos hle]
    exact ⟨.refl n v, rfl⟩
  · next hover =>
    have hrecord : (evict m protect).Meets v False fun pass v' =>
        pass = passRecord "linked" m v.ledger.target v v' pass.victims := by
      unfold evict
      rw [meets_bind, meets_get]
      dsimp only
      rw [if_neg hover, meets_bind, meets_set, meets_bind]
      refine (meets_any _ _).imp fun swept w _ => ?_
      rw [meets_bind, meets_get, meets_bind]
      exact (meets_any _ _).imp fun scheduled v' _ => rfl
    refine hrecord.and_result.imp fun pass v' hpass => ?_
    obtain ⟨hpass, hr⟩ := hpass
    let p : Sweep := ⟨m, protect, v⟩
    have hok : p.result.1 = .ok pass := congrArg Prod.fst hr
    have hafter : p.after = v' := congrArg Prod.snd hr
    have hvictims : p.victims = pass.victims := by rw [Sweep.victims, hok]
    rw [hr]
    refine ⟨.one n (UInt64.not_le.1 hover) hr, ?_⟩
    rw [hpass, passRecord, List.filter_append, LogLine.filter_endsPass_evicted, List.nil_append,
      List.filter_cons_of_pos (LogLine.endsPass_passEnded ..), List.map_singleton, Sweep.line,
      hvictims, hafter]
    rfl

theorem performs_restoreBound (n : Nat) (m : Moment) (e : Entry) (v : Linked) :
    (restoreBound m e).Meets v False fun pass v' =>
      Performs n v (if v.ledger.isOverCapacity then Sweep.ofPass m (some e.key) v else [])
        (pass.log.filter LogLine.endsPass) n v' := by
  unfold restoreBound
  rw [meets_bind, meets_get]
  split
  · refine meets_bind.2 ((performs_evict n m (some e.key) v).imp fun pass v' h => ?_)
    rw [meets_pure, List.filter_append, filter_endsPass_oversizeWarning]
    exact h
  · exact ⟨.refl n v, rfl⟩

theorem performs_write (m : Moment) (e : Entry) (v : Linked) :
    (write m e).Meets v False fun w v' =>
      Performs e.seq v (Sweep.ofWrite m e v) (w.pass.log.filter LogLine.endsPass) (e.seq + 1) v' := by
  rw [write_eq, meets_bind]
  refine (put_waits e v).and_result.imp fun replaced w hput => ?_
  obtain ⟨hw, hr⟩ := hput
  rw [meets_bind]
  refine (performs_restoreBound (e.seq + 1) m e w).imp fun pass v' hpass => ?_
  unfold Sweep.ofWrite
  rw [hr]
  exact ⟨(Course.waits (Nat.le_succ _) hw).trans hpass.course, hpass.lines⟩

theorem performs_writes (m : Moment) {es : List Entry} {n : Nat}
    (hes : es.map (·.seq) = List.range' n es.length) (v : Linked) :
    (es.mapM (write m)).Meets v False fun ws v' =>
      Performs n v (Sweep.ofWrites m es v) ((ws.flatMap (·.pass.log)).filter LogLine.endsPass)
        (n + es.length) v' := by
  induction es generalizing n v with
  | nil => exact ⟨.refl n v, rfl⟩
  | cons e es ih =>
    obtain ⟨rfl, hes⟩ := List.cons.inj hes
    rw [List.mapM_cons, meets_bind]
    refine (performs_write m e v).and_result.imp fun x w hwrite => ?_
    obtain ⟨hw, hr⟩ := hwrite
    rw [meets_bind]
    refine (ih hes w).imp fun xs v' hxs => ?_
    rw [meets_pure, Sweep.ofWrites, hr, List.length_cons, Nat.add_comm es.length, ← Nat.add_assoc,
      List.flatMap_cons, List.filter_append]
    refine ⟨hw.course.trans hxs.course, ?_⟩
    rw [hw.lines, hxs.lines, List.map_append]

/-- A computation without passes. -/
theorem performs_of_waits {α : Type} {n n' : Nat} {v : Linked} {f : Mutation Linked α} (hn : n ≤ n')
    (hf : KeepsStore (LinkedStore.Waits n n' v.store) f) :
    f.Meets v False fun _ v' => Performs n v [] [] n' v' :=
  (hf v (.refl n n' _)).imp fun _ _ hw => ⟨.waits hn hw, rfl⟩

/-- Nothing in the store changes before the sweeps. -/
theorem Performs.of_store {n n' : Nat} {v w v' : Linked} {ps : List Sweep} {lines : List LogLine}
    (h : Performs n w ps lines n' v') (hs : v.store = w.store) : Performs n v ps lines n' v' :=
  ⟨h.course.of_store hs rfl, h.lines⟩

end Linked

/-! ### As far as a request comes -/

namespace Sweep

/-- The sweep of a pass, if it ends. -/
theorem course_ofPass (n : Nat) (m : Moment) (protect : Option TileKey) (v : Linked) :
    ∃ w, Course n v (ofPass m protect v) n w := by
  unfold ofPass
  split
  · exact ⟨v, .refl n v⟩
  · next hover =>
    split
    · next pass w hr => exact ⟨w, .one n (UInt64.not_le.1 hover) hr⟩
    · exact ⟨v, .refl n v⟩

theorem course_ofWrite (m : Moment) (e : Entry) (v : Linked) :
    ∃ w, Course e.seq v (ofWrite m e v) (e.seq + 1) w := by
  unfold ofWrite
  split
  · next replaced w hr =>
    have hwrite : Course e.seq v [] (e.seq + 1) w :=
      .waits (Nat.le_succ _) ((Linked.put_waits e v).of_ok hr)
    split
    · obtain ⟨w', hpass⟩ := course_ofPass (e.seq + 1) m (some e.key) w
      exact ⟨w', hwrite.trans hpass⟩
    · exact ⟨w, hwrite⟩
  · exact ⟨v, .waits (Nat.le_succ _) (.refl _ _ _)⟩

theorem course_ofWrites (m : Moment) {es : List Entry} {n : Nat}
    (hes : es.map (·.seq) = List.range' n es.length) (v : Linked) :
    ∃ n' w, Course n v (ofWrites m es v) n' w := by
  induction es generalizing n v with
  | nil => exact ⟨n, v, .refl n v⟩
  | cons e es ih =>
    obtain ⟨rfl, hes⟩ := List.cons.inj hes
    rw [ofWrites]
    split
    · next x w hr =>
      obtain ⟨n', w', hrest⟩ := ih hes w
      exact ⟨n', w', ((Linked.performs_write m e v).of_ok hr).course.trans hrest⟩
    · obtain ⟨w, hwrite⟩ := course_ofWrite m e v
      rw [List.append_nil]
      exact ⟨_, w, hwrite⟩

end Sweep

theorem Vault.seq_of_newEntries {m : Moment} {owner : Owner}
    {tiles : List (Position × Payload × Option Binary64)} {es : List Entry} {v v' : Linked}
    (h : (tiles.mapM fun (p, payload, cost) => newEntry m owner p payload cost).result v = (.ok es, v')) :
    es.map (·.seq) = List.range' v.ledger.nextSeq es.length := by
  obtain ⟨rfl, -⟩ := numbered_of_newEntries h
  rw [seq_madeFrom, length_madeFrom]

/-- The sweeps of a request are made one after the other, also if it ends in a fault. -/
theorem Request.exists_course (m : Moment) (q : Request Owner Identity) (v : Linked) :
    ∃ n' w, Course v.ledger.nextSeq v (q.sweeps m v) n' w := by
  have hnone : ∃ n' w, Course v.ledger.nextSeq v [] n' w := ⟨_, v, .refl _ v⟩
  cases q with
  | add owner p payload cost =>
    unfold sweeps
    dsimp only
    split
    · next e v₁ hr =>
      obtain ⟨rfl, hn⟩ := numbered_of_newEntry hr
      obtain ⟨w, hwrite⟩ := Sweep.course_ofWrite m (v.upcoming owner p payload cost) v₁
      exact ⟨_, w, hwrite.of_store hn.1.symm rfl⟩
    · exact hnone
  | addBatch owner points payloads costs =>
    unfold sweeps
    dsimp only
    split
    · next es v₁ hr =>
      obtain ⟨n', w, hwrites⟩ := Sweep.course_ofWrites m (seq_of_newEntries hr) v₁
      exact ⟨n', w, hwrites.of_store (numbered_of_newEntries hr).2.1.symm rfl⟩
    · exact hnone
  | relieve => exact ⟨_, Sweep.course_ofPass _ m none v⟩
  | setCapacity bytes =>
    unfold sweeps
    dsimp only
    split
    · next l hl =>
      split
      · obtain ⟨w, hpass⟩ := Sweep.course_ofPass v.ledger.nextSeq m none { v with ledger := l }
        exact ⟨_, w, hpass.of_store rfl rfl⟩
      · exact hnone
    · exact hnone
  | _ => exact hnone

/-! ### Requests -/

namespace Request

open Linked (Performs)

variable {v w : Linked} {m : Moment} {owner : Owner} {p : Position} {payload : Payload}
  {cost : Option Binary64} {points : List Position} {payloads : List Payload}
  {costs : Option (List Binary64)} {tiles : List (Position × Payload × Option Binary64)}

theorem sweeps_add {e : Entry} (hr : (newEntry m owner p payload cost).result v = (.ok e, w)) :
    (add owner p payload cost).sweeps m v = Sweep.ofWrite m e w := by
  simp only [sweeps, hr]

theorem sweeps_addBatch {es : List Entry} (htiles : Aligned points payloads costs tiles)
    (hr : (tiles.mapM fun (p, payload, cost) => newEntry m owner p payload cost).result v =
      (.ok es, w)) :
    (addBatch owner points payloads costs).sweeps m v = Sweep.ofWrites m es w := by
  simp only [sweeps, htiles.aligned_eq, hr]

theorem Refused.sweeps_eq_nil {e : Rejection}
    (h : (addBatch owner points payloads costs : Request Owner Identity).Refused e) (m : Moment)
    (v : Linked) : (addBatch owner points payloads costs).sweeps m v = [] := by
  rw [sweeps, h.aligned_eq_nil]
  rfl

theorem performs_add (m : Moment) (owner : Owner) (p : Position) (payload : Payload)
    (cost : Option Binary64) (v : Linked) :
    (Linked.add m owner p payload cost).Meets v False fun notices v' =>
      Performs v.ledger.nextSeq v ((add owner p payload cost).sweeps m v) (Notice.passLines notices)
        (v.ledger.nextSeq + 1) v' := by
  unfold Linked.add
  rw [meets_bind]
  refine meets_of_forall fun e v₁ hr => ?_
  obtain ⟨rfl, hn⟩ := numbered_of_newEntry hr
  rw [meets_bind]
  refine (Linked.performs_write m _ v₁).imp fun w v' h => ?_
  rw [meets_pure, sweeps_add hr, Notice.passLines_append, Notice.passLines_log,
    Notice.passLines_written, List.append_nil]
  exact h.of_store hn.1.symm

theorem performs_addBatch (m : Moment) (owner : Owner) (v : Linked)
    (htiles : Aligned points payloads costs tiles) :
    (Linked.addBatch m owner tiles).Meets v False fun notices v' =>
      Performs v.ledger.nextSeq v ((addBatch owner points payloads costs).sweeps m v)
        (Notice.passLines notices) (v.ledger.nextSeq + tiles.length) v' := by
  unfold Linked.addBatch
  rw [meets_bind]
  refine meets_of_forall fun es v₁ hr => ?_
  obtain ⟨hes, hn⟩ := numbered_of_newEntries hr
  have hlength : es.length = tiles.length := by rw [hes, length_madeFrom]
  rw [meets_bind]
  refine (Linked.performs_writes m (seq_of_newEntries hr) v₁).imp fun ws v' h => ?_
  rw [meets_pure, sweeps_addBatch htiles hr, Notice.passLines_append, Notice.passLines_log,
    Notice.passLines_flatMap_written, List.append_nil, ← hlength]
  exact h.of_store hn.1.symm

theorem performs_relieve (n : Nat) (m : Moment) (v : Linked) :
    (Linked.relieve m).Meets v False fun notices v' =>
      Performs n v (Sweep.ofPass m none v) (Notice.passLines notices) n v' := by
  unfold Linked.relieve
  rw [meets_bind]
  refine (Linked.performs_evict n m none v).imp fun pass v' h => ?_
  rw [meets_pure, Pass.notices, Notice.passLines_append, Notice.passLines_log,
    Notice.passLines_evicted, List.append_nil]
  exact h

theorem performs_setCapacity (m : Moment) (bytes : UInt64) (v : Linked) :
    (Cache.setCapacity m bytes).Meets (.linked v) False fun x c' => ∃ v', c' = .linked v' ∧
      Performs v.ledger.nextSeq v ((setCapacity bytes).sweeps m v)
        (Notice.passLines (answer x).2) v.ledger.nextSeq v' := by
  unfold Cache.setCapacity sweeps
  rw [meets_bind, meets_get]
  dsimp only [Cache.ledger]
  rcases v.ledger.setCapacity bytes with r | l
  · exact ⟨v, rfl, .refl _ v, rfl⟩
  · rw [meets_bind, meets_set]
    dsimp only
    split
    · refine meets_bind.2 (Cache.meets_byLayout_linked.2 ?_)
      refine (performs_relieve v.ledger.nextSeq m { v with ledger := l }).imp fun notices v' h => ?_
      exact ⟨v', rfl, h.of_store rfl⟩
    · exact ⟨_, rfl, .waits le_rfl (.refl _ _ _), rfl⟩

/-- No request but a flush does anything to the sweep than its sweeps, and the log tells of each. -/
theorem performs (m : Moment) (q : Request Owner Identity) (hv : v.Sound) (hq : q ≠ .flush) :
    (q.perform m).Meets (.linked v) False fun x c' => ∃ v', c' = .linked v' ∧
      Performs v.ledger.nextSeq v (q.sweeps m v) (Notice.passLines x.2)
        (v.ledger.nextSeq + (q.made v.ledger).length) v' := by
  have hidle : ∀ {α : Type} {f : Mutation Linked α},
      (∀ n n', KeepsStore (LinkedStore.Waits n n' v.store) f) →
      f.Meets v False fun _ v' => Performs v.ledger.nextSeq v [] [] v.ledger.nextSeq v' :=
    fun hf => Linked.performs_of_waits le_rfl (hf _ _)
  cases q with
  | add owner p payload cost =>
    refine meets_bind.2 (Cache.meets_byLayout_linked.2 ?_)
    exact (performs_add m owner p payload cost v).imp fun _ v' h => ⟨v', rfl, h⟩
  | addBatch owner points payloads costs =>
    refine meets_map.2 ?_
    obtain ⟨e, hrefused, hbatch⟩ | ⟨tiles, htiles, hbatch⟩ :=
      Cache.addBatch_eq m owner points payloads costs
    · rw [hbatch, hrefused.sweeps_eq_nil, hrefused.made_eq_nil]
      exact ⟨v, rfl, .refl _ v, rfl⟩
    · rw [hbatch, made_of_aligned htiles, length_madeFrom]
      refine meets_map.2 (Cache.meets_byLayout_linked.2 ?_)
      exact (performs_addBatch m owner v htiles).imp fun _ v' h => ⟨v', rfl, h⟩
  | get image p =>
    refine meets_bind.2 (Cache.meets_byLayout_linked.2 ?_)
    exact (hidle fun n n' => Linked.waits_get? n n' m _).imp fun _ v' h => ⟨v', rfl, h⟩
  | getAll image points =>
    refine meets_bind.2 (Cache.meets_byLayout_linked.2 ?_)
    exact (hidle fun n n' => Linked.waits_getAll n n' m _).imp fun _ v' h => ⟨v', rfl, h⟩
  | remove image p =>
    refine meets_bind.2 (Cache.meets_byLayout_linked.2 ?_)
    refine ((hidle fun n n' => Linked.waits_remove n n' _).and
      ((Linked.remove_meets _ hv).mono False.elim fun _ _ h => h)).imp ?_
    rintro _ v' ⟨h, rfl, -⟩
    refine ⟨v', rfl, h.course, ?_⟩
    dsimp only
    cases v.tiles (.of image p) with
    | none => rfl
    | some e => exact Notice.passLines_removed [e]
  | removeImage image =>
    refine meets_bind.2 (Cache.meets_byLayout_linked.2 ?_)
    refine ((hidle fun n n' => Linked.waits_removeImage n n' image).and
      (Linked.removeImage_meets image hv)).imp ?_
    rintro _ v' ⟨h, es, rfl, -⟩
    refine ⟨v', rfl, h.course, ?_⟩
    change Notice.passLines (_ ++ _) = _
    rw [Notice.passLines_append, Notice.passLines_removed]
    rfl
  | flush => exact absurd rfl hq
  | relieve =>
    refine meets_bind.2 (Cache.meets_byLayout_linked.2 ?_)
    exact (performs_relieve v.ledger.nextSeq m v).imp fun _ v' h => ⟨v', rfl, h⟩
  | setCapacity bytes => exact meets_map.2 (performs_setCapacity m bytes v)
  | setThreshold t =>
    refine meets_map.2 (meets_bind.2 (meets_get.2 ?_))
    cases (Cache.linked v).ledger.setThreshold t with
    | error r => exact ⟨v, rfl, .refl _ v, rfl⟩
    | ok l => exact ⟨_, rfl, .waits le_rfl (.refl _ _ _), rfl⟩
  | tilesOf | contains | report | list => exact ⟨v, rfl, .refl _ v, rfl⟩
  | enable | disable | reset => exact ⟨_, rfl, .waits le_rfl (.refl _ _ _), rfl⟩

end Request

end TileStore
