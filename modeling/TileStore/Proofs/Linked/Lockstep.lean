import TileStore.Proofs.Linked.Cache
import TileStore.Proofs.Numbering
import TileStore.Proofs.Tandem

/-!
# Linked caches in step

What a linked cache does follows from what its ledger, its register and its store do. So if the parts of
two caches are related in a way that every step on a part keeps, the caches do the same: they answer alike,
log the same and evict the same entries in the same order. `Kinship` is such a relation of the parts, and
`InStep` says that it is kept. The numbers of entries may differ, by as many as the one cache made before
the other one started.

`InStep.perform` says so of requests. There are two uses of it: a cache whose clock says something else,
and one that was used before and flushed.
-/

namespace TileStore

open Mutation

variable {m m' : Moment} {k : Nat}

/-! ### Entries that were made later -/

/-- The entry as it would be if so many had been made before. -/
def Entry.later (k : Nat) (e : Entry) : Entry := { e with seq := e.seq + k }

@[simp] theorem Entry.key_later (k : Nat) (e : Entry) : (e.later k).key = e.key := rfl

@[simp] theorem Entry.image_later (k : Nat) (e : Entry) : (e.later k).image = e.image := rfl

theorem Entry.isStale_later (halive : m'.alive = m.alive) (k : Nat) (e : Entry) :
    (e.later k).isStale m' = e.isStale m := by
  rw [isStale, isStale, halive]
  rfl

namespace Notice

/-- A notice about an entry that was made later. -/
def later (k : Nat) : Notice → Notice
  | log line => log line
  | count h => count h
  | tell e a => tell (e.later k) a

theorem map_later_log (k : Nat) (lines : List LogLine) :
    (lines.map log).map (later k) = lines.map log := by simp [later, Function.comp_def]

theorem evicted_later (k : Nat) (es : List Entry) :
    evicted (es.map (.later k)) = (evicted es).map (later k) := by
  simp [evicted, later, Function.comp_def]

theorem removed_later (k : Nat) (es : List Entry) :
    removed (es.map (.later k)) = (removed es).map (later k) := by
  simp [removed, later, Function.comp_def]

end Notice

/-- An entry that was made later, as seen at one moment. -/
def Sighting.later (k : Nat) (x : Sighting) : Sighting := { x with entry := x.entry.later k }

/-- The counters on top of others, which do not count whether they are enabled. -/
def Counters.onTopOf (c base : Counters) : Counters where
  enabled := c.enabled
  hits := base.hits + c.hits
  misses := base.misses + c.misses
  inserts := base.inserts + c.inserts
  updates := base.updates + c.updates
  removals := base.removals + c.removals
  evictions := base.evictions + c.evictions

/-- The answer of a cache that made so many entries before, and counted so much. -/
def Reply.later (k : Nat) (base : Counters) : Reply → Reply
  | entry found => entry (found.map (.later k))
  | entries found => entries (found.map (·.map (.later k)))
  | report r shards => report { r with counters := r.counters.onTopOf base } shards
  | x => x

/-- A pass that took entries that were made later. The log does not name their numbers. -/
def Vault.Pass.later (k : Nat) (p : Vault.Pass) : Vault.Pass :=
  { p with victims := p.victims.map (.later k) }

theorem Vault.Pass.notices_later (k : Nat) (p : Vault.Pass) :
    (p.later k).notices = p.notices.map (.later k) := by
  rw [notices, notices, List.map_append, Notice.map_later_log, ← Notice.evicted_later]
  rfl

namespace Linked

/-- A write of an entry that was made later. -/
def Written.later (k : Nat) (w : Written) : Written :=
  ⟨w.entry.later k, w.replaced, w.pass.later k⟩

theorem Written.notices_later (k : Nat) (w : Written) :
    (w.later k).notices = w.notices.map (.later k) := by
  rw [Written.notices, Written.notices, List.map_append, ← Notice.evicted_later]
  rfl

end Linked

/-! ### What keeps parts in step -/

/-- What can be done with a ledger keeps two of them related, and both show the same. The numbers of the
next entries are apart by the offset. -/
structure Ledger.InStep (k : Nat) (R : Ledger → Ledger → Prop) : Prop where
  capacity : ∀ {l l'}, R l l' → l'.capacity = l.capacity
  threshold : ∀ {l l'}, R l l' → l'.threshold = l.threshold
  overhead : ∀ {l l'}, R l l' → l'.overhead = l.overhead
  memoryUsed : ∀ {l l'}, R l l' → l'.memoryUsed = l.memoryUsed
  nextSeq : ∀ {l l'}, R l l' → l'.nextSeq = l.nextSeq + k
  make : ∀ {l l'}, R l l' →
    R { l with nextSeq := l.nextSeq + 1 } { l' with nextSeq := l'.nextSeq + 1 }
  account : ∀ came went, Tracks R id (account came went) (account came went)
  count : ∀ {l l'} (h : Happening), R l l' → R (l.count h) (l'.count h)
  switch : ∀ {l l'} (on : Bool), R l l' →
    R { l with counters.enabled := on } { l' with counters.enabled := on }
  withCapacity : ∀ {l l'} (bytes : UInt64), R l l' →
    R { l with capacity := bytes } { l' with capacity := bytes }
  withThreshold : ∀ {l l'} (t : Binary64), R l l' →
    R { l with threshold := t } { l' with threshold := t }

namespace Ledger.InStep

variable {R : Ledger → Ledger → Prop} {l l' : Ledger}

theorem target (h : InStep k R) (hl : R l l') : l'.target = l.target := by
  rw [Ledger.target, Ledger.target, h.capacity hl, h.threshold hl]

theorem isOverCapacity (h : InStep k R) (hl : R l l') : l'.isOverCapacity = l.isOverCapacity := by
  rw [Ledger.isOverCapacity, Ledger.isOverCapacity, h.capacity hl, h.memoryUsed hl]

end Ledger.InStep

/-- What can be done with a register at two times keeps two of them related. -/
structure Register.InStep (k now now' : Nat) (R : Register → Register → Prop) : Prop where
  enter : ∀ {r r'}, R r r' → R (r.enter now) (r'.enter now')
  touch : ∀ {r r'} (seq : Nat), R r r' → R (r.touch seq now) (r'.touch (seq + k) now')
  mark : ∀ {r r'} (seq : Nat) (a : Action), R r r' → R (r.mark seq a) (r'.mark (seq + k) a)

/-- What can be done with a linked store keeps two of them related, and both show the same. -/
structure LinkedStore.InStep (k : Nat) (R : LinkedStore → LinkedStore → Prop) : Prop where
  slots : ∀ {s s'}, R s s' → s'.slots = s.slots
  catalogue : ∀ {s s'}, R s s' → s'.catalogue = s.catalogue
  sweepWindow : ∀ {s s'} (budget : Nat), R s s' → s'.sweepWindow budget = s.sweepWindow budget
  entryAt? : ∀ {s s'} (slot : Nat), R s s' → s'.entryAt? slot = (s.entryAt? slot).map (.later k)
  entries : ∀ {s s'}, R s s' → s'.entries = s.entries.map (.later k)
  schedule : ∀ {s s'}, R s s' → s'.schedule.toList.map (·.2) = s.schedule.toList.map (·.2)
  insert : ∀ e, Tracks R (Option.map (.later k)) (insert e) (insert (e.later k))
  use : ∀ key, Tracks R (Option.map (.later k)) (use key) (use key)
  removeSlot : ∀ slot, Tracks R (Entry.later k) (removeSlot slot) (removeSlot slot)
  moveSweep : ∀ {s s'} (slot : Nat), R s s' → R { s with sweep := slot } { s' with sweep := slot }
  clear : ∀ {s s'}, R s s' → R s.clear s'.clear

namespace LinkedStore.InStep

variable {R : LinkedStore → LinkedStore → Prop} {s s' : LinkedStore}

theorem unprotected (h : InStep k R) (hs : R s s') (protect : Option TileKey) (slot : Nat) :
    s'.unprotected protect slot = s.unprotected protect slot := by
  rw [LinkedStore.unprotected, LinkedStore.unprotected, h.entryAt? slot hs]
  cases s.entryAt? slot <;> rfl

theorem cheapest? (h : InStep k R) (hs : R s s') (protect : Option TileKey) :
    s'.cheapest? protect = s.cheapest? protect := by
  rw [LinkedStore.cheapest?, LinkedStore.cheapest?, Schedule.find?_eq, Schedule.find?_eq, h.schedule hs,
    funext (h.unprotected hs protect)]

theorem size_schedule (h : InStep k R) (hs : R s s') : s'.schedule.size = s.schedule.size := by
  have hlength := congrArg List.length (h.schedule hs)
  rwa [List.length_map, List.length_map, Std.TreeMap.length_toList, Std.TreeMap.length_toList]
    at hlength

theorem staleSlots (h : InStep k R) (halive : m'.alive = m.alive) (hs : R s s') (budget : Nat)
    (protect : Option TileKey) : s'.staleSlots m' budget protect = s.staleSlots m budget protect := by
  unfold LinkedStore.staleSlots
  rw [h.sweepWindow budget hs]
  refine List.filter_congr fun slot _ => ?_
  rw [h.unprotected hs, h.entryAt? slot hs]
  cases s.entryAt? slot with
  | none => rfl
  | some e => rw [Option.map_some, Option.any_some, Option.any_some, e.isStale_later halive]

theorem advanceSweep (h : InStep k R) (hs : R s s') (budget : Nat) :
    R (s.advanceSweep budget) (s'.advanceSweep budget) := by
  rw [LinkedStore.advanceSweep, LinkedStore.advanceSweep, h.sweepWindow budget hs]
  cases (s.sweepWindow budget).getLast? with
  | none => exact hs
  | some slot => exact h.moveSweep (slot + 1) hs

theorem get? (h : InStep k R) (hs : R s s') (key : TileKey) :
    s'.get? key = (s.get? key).map (.later k) := by
  rw [LinkedStore.get?, LinkedStore.get?, h.slots hs]
  cases s.slots[key]? with
  | none => rfl
  | some slot => exact h.entryAt? slot hs

theorem entriesOf (h : InStep k R) (hs : R s s') (image : ImageKey) :
    s'.entriesOf image = (s.entriesOf image).map (.later k) := by
  rw [LinkedStore.entriesOf, LinkedStore.entriesOf, h.catalogue hs, List.map_filterMap]
  exact List.filterMap_congr fun key _ => h.get? hs key

theorem remove (h : InStep k R) (key : TileKey) :
    Tracks R (Option.map (.later k)) (LinkedStore.remove key) (LinkedStore.remove key) := by
  refine tracks_get fun s s' hs => ?_
  rw [h.slots hs]
  cases s.slots[key]? with
  | none => exact ⟨rfl, hs⟩
  | some slot =>
    refine (h.removeSlot slot).bind (fun _ => ?_) s s' hs
    exact tracks_pure rfl

end LinkedStore.InStep

/-! ### Caches -/

/-- How the parts of two linked caches are related. -/
structure Kinship where
  /-- The second cache made so many entries more. -/
  offset : Nat
  ledger : Ledger → Ledger → Prop
  register : Register → Register → Prop
  store : LinkedStore → LinkedStore → Prop

namespace Kinship

/-- All parts of the caches are related. -/
structure Relates (K : Kinship) (v w : Linked) : Prop where
  ledger : K.ledger v.ledger w.ledger
  register : K.register v.register w.register
  store : K.store v.store w.store

/-- Whatever is done to a part, at moments with the same owners, keeps the parts related. -/
structure InStep (K : Kinship) (m m' : Moment) : Prop where
  alive : m'.alive = m.alive
  ledger : Ledger.InStep K.offset K.ledger
  register : Register.InStep K.offset m.now m'.now K.register
  store : LinkedStore.InStep K.offset K.store

end Kinship

namespace Kinship.InStep

variable {K : Kinship} {α β : Type} {φ : α → β}

/-! ### Steps -/

theorem inStore {f : Mutation LinkedStore α} {g : Mutation LinkedStore β} (h : Tracks K.store φ f g) :
    Tracks K.Relates φ (Vault.inStore f) (Vault.inStore g) :=
  h.within (fun _ _ hvw => hvw.store) fun _ _ _ _ hvw hs => ⟨hvw.ledger, hvw.register, hs⟩

theorem account (h : K.InStep m m') (came went : Option Entry) :
    Tracks K.Relates id (Vault.account came went)
      (Vault.account (came.map (Entry.later K.offset)) (went.map (Entry.later K.offset))) := by
  have hledger := h.ledger.account (came.map (·.size)) (went.map (·.size))
  unfold Vault.account
  rw [Option.map_map, Option.map_map]
  exact hledger.within (fun _ _ hvw => hvw.ledger) fun _ _ _ _ hvw hl => ⟨hl, hvw.register, hvw.store⟩

theorem mark (h : K.InStep m m') (e : Entry) (a : Action) :
    Tracks K.Relates id (modify (·.mark e a)) (modify (·.mark (e.later K.offset) a)) :=
  tracks_modify fun _ _ hvw => ⟨hvw.ledger, h.register.mark e.seq a hvw.register, hvw.store⟩

theorem touch (h : K.InStep m m') (e : Entry) :
    Tracks K.Relates id (modify (·.touch e m.now)) (modify (·.touch (e.later K.offset) m'.now)) :=
  tracks_modify fun _ _ hvw => ⟨hvw.ledger, h.register.touch e.seq hvw.register, hvw.store⟩

theorem count (h : K.InStep m m') (x : Happening) :
    Tracks K.Relates id (modify (·.count x)) (modify (·.count x)) :=
  tracks_modify fun _ _ hvw => ⟨h.ledger.count x hvw.ledger, hvw.register, hvw.store⟩

theorem newEntry (h : K.InStep m m') (owner : Owner) (p : Position) (payload : Payload)
    (cost : Option Binary64) :
    Tracks K.Relates (Entry.later K.offset) (Vault.newEntry m owner p payload cost)
      (Vault.newEntry m' owner p payload cost) := by
  refine tracks_get fun v w hvw => ?_
  rw [alike_set_left, alike_set_right, h.ledger.overhead hvw.ledger]
  refine ⟨?_, h.ledger.make hvw.ledger, h.register.enter hvw.register, hvw.store⟩
  rw [h.ledger.nextSeq hvw.ledger]
  rfl

theorem dismiss (h : K.InStep m m') (es : List Entry) :
    Tracks K.Relates (List.map (Notice.later K.offset)) (Vault.dismiss es)
      (Vault.dismiss (es.map (Entry.later K.offset))) := by
  have hmarks := tracks_forM (g := fun e => modify fun v : Linked => v.mark e .removed)
    (h.mark · .removed) es
  exact hmarks.bind fun _ => tracks_pure (Notice.removed_later _ es)

/-! ### Passes -/

theorem evictSlot (h : K.InStep m m') (slot : Nat) :
    Tracks K.Relates (Entry.later K.offset) (Linked.evictSlot slot) (Linked.evictSlot slot) :=
  (inStore (h.store.removeSlot slot)).bind fun e => (h.account none (some e)).bind fun _ =>
    (h.mark e .evicted).bind fun _ => tracks_pure rfl

theorem evictListed (h : K.InStep m m') (target : UInt64) (slots : List Nat) :
    Tracks K.Relates (List.map (Entry.later K.offset)) (Linked.evictListed target slots)
      (Linked.evictListed target slots) := by
  induction slots with
  | nil => exact tracks_pure rfl
  | cons slot slots ih =>
    refine tracks_get fun v w hvw => ?_
    rw [h.ledger.memoryUsed hvw.ledger]
    split
    · exact ⟨rfl, hvw⟩
    · refine (h.evictSlot slot).bind (fun e => ih.bind fun es => ?_) v w hvw
      exact tracks_pure rfl

theorem evictScheduled (h : K.InStep m m') (target : UInt64) (protect : Option TileKey) (fuel : Nat) :
    Tracks K.Relates (List.map (Entry.later K.offset)) (Linked.evictScheduled target protect fuel)
      (Linked.evictScheduled target protect fuel) := by
  induction fuel with
  | zero => exact tracks_pure rfl
  | succ fuel ih =>
    refine tracks_get fun v w hvw => ?_
    rw [h.ledger.memoryUsed hvw.ledger, h.store.cheapest? hvw.store]
    split
    · exact ⟨rfl, hvw⟩
    · cases v.store.cheapest? protect with
      | none => exact ⟨rfl, hvw⟩
      | some slot =>
        refine (h.evictSlot slot).bind (fun e => ih.bind fun es => ?_) v w hvw
        exact tracks_pure rfl

theorem passRecord (halive : m'.alive = m.alive) (k : Nat) (target : UInt64)
    {before after before' after' : Linked} (victims : List Entry)
    (hbefore : before'.ledger.memoryUsed = before.ledger.memoryUsed)
    (hafter : after'.ledger.memoryUsed = after.ledger.memoryUsed) :
    Vault.passRecord "linked" m' target before' after' (victims.map (Entry.later k)) =
      (Vault.passRecord "linked" m target before after victims).later k := by
  have hlines : (victims.map (Entry.later k)).map (fun e => LogLine.evicted e (e.isStale m')) =
      victims.map fun e => LogLine.evicted e (e.isStale m) := by
    rw [List.map_map]
    refine List.map_congr_left fun e _ => ?_
    rw [Function.comp_apply, e.isStale_later halive]
    rfl
  simp only [Vault.passRecord, Vault.Pass.later, hlines, hbefore, hafter, List.length_map]

/-- A pass reads of the moment which owners exist, and no more. -/
theorem evict (h : K.InStep m m') (protect : Option TileKey) :
    Tracks K.Relates (Vault.Pass.later K.offset) (Linked.evict m protect)
      (Linked.evict m' protect) := by
  refine tracks_get fun v w hvw => ?_
  dsimp only
  rw [h.ledger.target hvw.ledger, h.ledger.memoryUsed hvw.ledger,
    h.store.staleSlots h.alive hvw.store]
  split
  · exact ⟨rfl, hvw⟩
  · rw [alike_set_left, alike_set_right]
    have hadvanced : K.Relates { v with store := v.store.advanceSweep Linked.sweepBudget }
        { w with store := w.store.advanceSweep Linked.sweepBudget } :=
      ⟨hvw.ledger, hvw.register, h.store.advanceSweep hvw.store _⟩
    refine (h.evictListed _ _).bind (fun swept v₁ w₁ hvw₁ => ?_) _ _ hadvanced
    rw [alike_get_left, alike_get_right, h.store.size_schedule hvw₁.store]
    refine (h.evictScheduled _ protect _).bind (fun scheduled v₂ w₂ hvw₂ => ?_) v₁ w₁ hvw₁
    rw [alike_get_left, alike_get_right, ← List.map_append]
    exact ⟨passRecord h.alive _ _ _ (h.ledger.memoryUsed hvw.ledger)
      (h.ledger.memoryUsed hvw₂.ledger), hvw₂⟩

/-! ### Writing -/

theorem put (h : K.InStep m m') (e : Entry) :
    Tracks K.Relates id (Linked.put e) (Linked.put (e.later K.offset)) := by
  refine (inStore (h.store.insert e)).bind fun replaced => ?_
  have hcharge : Tracks K.Relates id
      (do Vault.account (some e) replaced; return replaced.isSome)
      (do Vault.account (some (e.later K.offset)) (replaced.map (Entry.later K.offset))
          return (replaced.map (Entry.later K.offset)).isSome) :=
    (h.account (some e) replaced).bind fun _ => tracks_pure Option.isSome_map
  cases replaced with
  | none => exact hcharge
  | some old => exact (h.mark e .updated).bind fun _ => hcharge

theorem restoreBound (h : K.InStep m m') (e : Entry) :
    Tracks K.Relates (Vault.Pass.later K.offset) (Linked.restoreBound m e)
      (Linked.restoreBound m' (e.later K.offset)) := by
  refine tracks_get fun v w hvw => ?_
  rw [Vault.oversizeWarning, Vault.oversizeWarning, h.ledger.isOverCapacity hvw.ledger,
    h.ledger.capacity hvw.ledger]
  split
  · refine (h.evict (some e.key)).bind (fun pass => ?_) v w hvw
    exact tracks_pure rfl
  · exact ⟨rfl, hvw⟩

theorem write (h : K.InStep m m') (e : Entry) :
    Tracks K.Relates (Linked.Written.later K.offset) (Linked.write m e)
      (Linked.write m' (e.later K.offset)) := by
  rw [Linked.write_eq, Linked.write_eq]
  exact (h.put e).bind fun replaced => (h.restoreBound e).bind fun pass => tracks_pure rfl

theorem add (h : K.InStep m m') (owner : Owner) (p : Position) (payload : Payload)
    (cost : Option Binary64) :
    Tracks K.Relates (List.map (Notice.later K.offset)) (Linked.add m owner p payload cost)
      (Linked.add m' owner p payload cost) := by
  refine (h.newEntry owner p payload cost).bind fun e => (h.write e).bind fun w => tracks_pure ?_
  rw [w.notices_later, List.map_append, Notice.map_later_log]
  rfl

theorem addBatch (h : K.InStep m m') (owner : Owner)
    (tiles : List (Position × Payload × Option Binary64)) :
    Tracks K.Relates (List.map (Notice.later K.offset)) (Linked.addBatch m owner tiles)
      (Linked.addBatch m' owner tiles) := by
  have hmake : Tracks K.Relates (List.map (Entry.later K.offset))
      (tiles.mapM fun t => Vault.newEntry m owner t.1 t.2.1 t.2.2)
      (tiles.mapM fun t => Vault.newEntry m' owner t.1 t.2.1 t.2.2) := by
    refine tracks_mapM (fun t => ?_) tiles
    exact h.newEntry owner t.1 t.2.1 t.2.2
  refine hmake.bind fun es => ?_
  have hwrites := tracks_mapM h.write es
  rw [List.mapM_map]
  refine hwrites.bind fun ws => tracks_pure ?_
  have hlog : (ws.map (Linked.Written.later K.offset)).flatMap (·.pass.log) =
      ws.flatMap (·.pass.log) := List.flatMap_map ..
  have hnotices : (ws.map (Linked.Written.later K.offset)).flatMap Linked.Written.notices =
      (ws.flatMap Linked.Written.notices).map (Notice.later K.offset) := by
    rw [List.flatMap_map, List.map_flatMap]
    simp only [Linked.Written.notices_later]
  rw [hlog, hnotices, List.map_append, Notice.map_later_log]

/-! ### Looking up -/

theorem find (h : K.InStep m m') (key : TileKey) :
    Tracks K.Relates (Option.map (Entry.later K.offset)) (Linked.find m key)
      (Linked.find m' key) := by
  refine (inStore (h.store.use key)).bind fun found => ?_
  cases found with
  | none => exact tracks_pure rfl
  | some e => exact (h.touch e).bind fun _ => tracks_pure rfl

theorem countFound (h : K.InStep m m') (found : Option Entry) :
    Tracks K.Relates id (modify (·.count (.lookup found.isSome)))
      (modify (·.count (.lookup (found.map (Entry.later K.offset)).isSome))) := by
  rw [Option.isSome_map]
  exact h.count _

theorem get? (h : K.InStep m m') (key : TileKey) :
    Tracks K.Relates (Option.map (Entry.later K.offset)) (Linked.get? m key)
      (Linked.get? m' key) :=
  (h.find key).bind fun found => (h.countFound found).bind fun _ => tracks_pure rfl

theorem getAll (h : K.InStep m m') (keys : List TileKey) :
    Tracks K.Relates (List.map (Option.map (Entry.later K.offset))) (Linked.getAll m keys)
      (Linked.getAll m' keys) := by
  refine (tracks_mapM h.find keys).bind fun found => ?_
  have hcounts := tracks_forM
    (g := fun f : Option Entry => modify fun v : Linked => v.count (.lookup f.isSome)) h.countFound found
  exact hcounts.bind fun _ => tracks_pure rfl

/-! ### Removing -/

theorem discharge (h : K.InStep m m') (e : Entry) :
    Tracks K.Relates (Entry.later K.offset) (Linked.discharge e)
      (Linked.discharge (e.later K.offset)) :=
  (h.account none (some e)).bind fun _ => tracks_pure rfl

theorem remove (h : K.InStep m m') (key : TileKey) :
    Tracks K.Relates (Prod.map (Option.map (Entry.later K.offset)) (List.map (Notice.later K.offset)))
      (Linked.remove key) (Linked.remove key) := by
  refine (inStore (h.store.remove key)).bind fun found => ?_
  cases found with
  | none => exact tracks_pure rfl
  | some e =>
    exact (h.discharge e).bind fun e => (h.dismiss [e]).bind fun notices => tracks_pure rfl

theorem removeImage (h : K.InStep m m') (image : Identity) :
    Tracks K.Relates (Prod.map id (List.map (Notice.later K.offset))) (Linked.removeImage image)
      (Linked.removeImage image) := by
  refine tracks_get fun v w hvw => ?_
  rw [h.store.catalogue hvw.store]
  refine (tracks_mapM (fun key => (inStore (h.store.remove key)).bind fun found => ?_) _).bind
    (fun es => (h.dismiss es).bind fun notices => ?_) v w hvw
  · cases found with
    | none => exact tracks_throw _ _
    | some e => exact h.discharge e
  · rw [List.length_map]
    refine tracks_pure ?_
    rw [Prod.map, List.map_append]
    rfl

theorem flush (h : K.InStep m m') :
    Tracks K.Relates (List.map (Notice.later K.offset)) Linked.flush Linked.flush := by
  refine tracks_get fun v w hvw => ?_
  dsimp only
  rw [alike_set_left, alike_set_right, h.store.entries hvw.store]
  have hcleared : K.Relates { v with store := v.store.clear } { w with store := w.store.clear } :=
    ⟨hvw.ledger, hvw.register, h.store.clear hvw.store⟩
  have haccounts := tracks_forM (g := fun e => Vault.account none (some e))
    (fun e => h.account none (some e)) v.store.entries
  refine haccounts.bind (fun _ => (h.dismiss v.store.entries).bind fun notices => ?_) _ _ hcleared
  rw [List.length_map]
  refine tracks_pure ?_
  rw [List.map_append]
  rfl

theorem relieve (h : K.InStep m m') :
    Tracks K.Relates (List.map (Notice.later K.offset)) (Linked.relieve m) (Linked.relieve m') :=
  (h.evict none).bind fun pass => tracks_pure (pass.notices_later _)

end Kinship.InStep

/-! ### Layouts -/

namespace Cache

section ByLayout

variable {v w : Linked} {α β : Type} {onLinked : Mutation Linked α} {onSharded : Mutation Sharded α}
  {onLinked' : Mutation Linked β} {onSharded' : Mutation Sharded β} {R : α → Cache → β → Cache → Prop}

/-- What is done in linked caches. -/
theorem alike_linked :
    (byLayout onLinked onSharded).Alike (byLayout onLinked' onSharded') (linked v) (linked w) R ↔
      onLinked.Alike onLinked' v w fun a v' b w' => R a (linked v') b (linked w') := by
  have hleft : (byLayout onLinked onSharded).result (linked v) =
      ((onLinked.result v).1, linked (onLinked.result v).2) := rfl
  have hright : (byLayout onLinked' onSharded').result (linked w) =
      ((onLinked'.result w).1, linked (onLinked'.result w).2) := rfl
  unfold Alike
  rw [hleft, hright]
  rcases onLinked.result v with ⟨_ | a, v'⟩ <;> rcases onLinked'.result w with ⟨_ | b, w'⟩ <;> rfl

/-- What is done in sharded caches. -/
theorem alike_sharded {v w : Sharded} :
    (byLayout onLinked onSharded).Alike (byLayout onLinked' onSharded') (sharded v) (sharded w) R ↔
      onSharded.Alike onSharded' v w fun a v' b w' => R a (sharded v') b (sharded w') := by
  have hleft : (byLayout onLinked onSharded).result (sharded v) =
      ((onSharded.result v).1, sharded (onSharded.result v).2) := rfl
  have hright : (byLayout onLinked' onSharded').result (sharded w) =
      ((onSharded'.result w).1, sharded (onSharded'.result w).2) := rfl
  unfold Alike
  rw [hleft, hright]
  rcases onSharded.result v with ⟨_ | a, v'⟩ <;> rcases onSharded'.result w with ⟨_ | b, w'⟩ <;> rfl

end ByLayout

end Cache

/-! ### Requests -/

namespace Kinship

variable {K : Kinship} {v w : Linked}

/-- Linked caches whose parts are related. -/
inductive Both (K : Kinship) : Cache → Cache → Prop where
  | of {v w : Linked} : K.Relates v w → K.Both (.linked v) (.linked w)

theorem alike_tracked {α β : Type} {φ : α → β} {f : Mutation Linked α} {g : Mutation Linked β}
    {f' : Mutation Sharded α} {g' : Mutation Sharded β} (h : Tracks K.Relates φ f g)
    (hvw : K.Relates v w) : (Cache.byLayout f f').Alike (Cache.byLayout g g') (.linked v) (.linked w)
      fun a c b d => b = φ a ∧ K.Both c d :=
  Cache.alike_linked.2 ((h v w hvw).imp fun _ _ _ _ hab => ⟨hab.1, ⟨hab.2⟩⟩)

/-- What is shown of related caches is the same, but that the second one made more entries and counted
more. -/
structure Shows (K : Kinship) (base : Counters) : Prop where
  tileCount : ∀ {l l'}, K.ledger l l' → l'.tileCount = l.tileCount
  counters : ∀ {l l'}, K.ledger l l' → l'.counters = l.counters.onTopOf base
  status : ∀ {r r'}, K.register r r' → ∀ i, r'.status (i + K.offset) = r.status i

namespace InStep

variable {base : Counters} {c d : Cache}

theorem sight (h : K.InStep m m') (hshow : K.Shows base) (hboth : K.Both c d) (e : Entry) :
    d.sight m' (e.later K.offset) = (c.sight m e).later K.offset := by
  obtain @⟨v, w, hvw⟩ := hboth
  have hstatus : (Cache.linked w).status (e.later K.offset) = (Cache.linked v).status e :=
    hshow.status hvw.register e.seq
  rw [Cache.sight, Cache.sight, Sighting.later, hstatus, e.isStale_later h.alive]

theorem sighting (h : K.InStep m m') (hshow : K.Shows base) (hboth : K.Both c d)
    (found : Option Entry) : (found.map (Entry.later K.offset)).map (d.sight m') =
      (found.map (c.sight m)).map (.later K.offset) := by
  cases found with
  | none => rfl
  | some e => exact congrArg some (h.sight hshow hboth e)

theorem sightings (h : K.InStep m m') (hshow : K.Shows base) (hboth : K.Both c d) (es : List Entry) :
    (es.map (Entry.later K.offset)).map (some <| d.sight m' ·) =
      (es.map (some <| c.sight m ·)).map (Option.map (.later K.offset)) := by
  rw [List.map_map, List.map_map]
  exact List.map_congr_left fun e _ => congrArg some (h.sight hshow hboth e)

theorem report (h : K.InStep m m') (hshow : K.Shows base) (hvw : K.Relates v w) :
    (Cache.linked w).report = { (Cache.linked v).report with
      counters := (Cache.linked v).report.counters.onTopOf base } := by
  have hledger : K.ledger (Cache.linked v).ledger (Cache.linked w).ledger := hvw.ledger
  simp only [Cache.report, Ledger.report, hshow.tileCount hledger, hshow.counters hledger,
    h.ledger.memoryUsed hledger, h.ledger.capacity hledger, h.ledger.threshold hledger]
  rfl

theorem setCapacity (h : K.InStep m m') (bytes : UInt64) (hvw : K.Relates v w) :
    (Cache.setCapacity m bytes).Alike (Cache.setCapacity m' bytes) (.linked v) (.linked w)
      fun x c y d => y = x.map (List.map (Notice.later K.offset)) ∧ K.Both c d := by
  have hledger : K.ledger (Cache.linked v).ledger (Cache.linked w).ledger := hvw.ledger
  unfold Cache.setCapacity
  rw [alike_get_left, alike_get_right, Ledger.setCapacity_eq, Ledger.setCapacity_eq]
  by_cases hbytes : bytes = 0
  · rw [if_pos hbytes, if_pos hbytes]
    exact ⟨rfl, ⟨hvw⟩⟩
  · rw [if_neg hbytes, if_neg hbytes]
    have hlowered := h.ledger.withCapacity bytes hledger
    have hrelates : K.Relates { v with ledger := { v.ledger with capacity := bytes } }
        { w with ledger := { w.ledger with capacity := bytes } } :=
      ⟨hlowered, hvw.register, hvw.store⟩
    dsimp only
    rw [alike_set_left, alike_set_right, h.ledger.isOverCapacity hlowered, h.ledger.capacity hledger]
    split
    · refine alike_bind ((alike_tracked h.relieve hrelates).imp ?_)
      rintro ns _ _ _ ⟨rfl, hboth⟩
      exact ⟨rfl, hboth⟩
    · exact ⟨rfl, ⟨hrelates⟩⟩

theorem setThreshold (h : K.InStep m m') (t : Binary64) (hvw : K.Relates v w) :
    (Cache.setThreshold t).Alike (Cache.setThreshold t) (.linked v) (.linked w)
      fun x c y d => y = x.map (List.map (Notice.later K.offset)) ∧ K.Both c d := by
  have hledger : K.ledger (Cache.linked v).ledger (Cache.linked w).ledger := hvw.ledger
  unfold Cache.setThreshold
  rw [alike_get_left, alike_get_right, Ledger.setThreshold_eq, Ledger.setThreshold_eq]
  cases t.isFraction with
  | false => exact ⟨rfl, ⟨hvw⟩⟩
  | true =>
    rw [if_pos rfl, if_pos rfl]
    dsimp only
    rw [alike_set_left, alike_set_right, h.ledger.threshold hledger]
    exact ⟨rfl, ⟨h.ledger.withThreshold t hledger, hvw.register, hvw.store⟩⟩

/-- What related caches do about a request is the same, and if they show the same, so are the answers.
Counters that are reset are not related as before. -/
theorem perform (h : K.InStep m m') (q : Request Owner Identity) (hq : q ≠ .reset)
    (hvw : K.Relates v w) :
    (q.perform m).Alike (q.perform m') (.linked v) (.linked w) fun x c y d =>
      K.Both c d ∧ y.2 = x.2.map (Notice.later K.offset) ∧
        ∀ base, K.Shows base → y.1 = x.1.later K.offset base := by
  cases q with
  | reset => exact absurd rfl hq
  | add owner p payload cost =>
    refine alike_bind ((alike_tracked (h.add owner p payload cost) hvw).imp ?_)
    rintro ns _ _ _ ⟨rfl, hboth⟩
    exact ⟨hboth, rfl, fun _ _ => rfl⟩
  | addBatch owner points payloads costs =>
    refine alike_map ?_
    unfold Cache.addBatch
    cases Cache.pairUp points payloads costs with
    | error r => exact ⟨⟨hvw⟩, rfl, fun _ _ => rfl⟩
    | ok tiles =>
      refine alike_map ((alike_tracked (h.addBatch owner tiles) hvw).imp ?_)
      rintro ns _ _ _ ⟨rfl, hboth⟩
      exact ⟨hboth, rfl, fun _ _ => rfl⟩
  | get image p =>
    refine alike_bind ((alike_tracked (h.get? _) hvw).imp ?_)
    rintro found _ _ _ ⟨rfl, hboth⟩
    exact ⟨hboth, rfl, fun _ hshow => congrArg Reply.entry (h.sighting hshow hboth found)⟩
  | getAll image points =>
    refine alike_bind ((alike_tracked (h.getAll _) hvw).imp ?_)
    rintro found _ _ _ ⟨rfl, hboth⟩
    refine ⟨hboth, rfl, fun _ hshow => congrArg Reply.entries ?_⟩
    rw [List.map_map, List.map_map]
    exact List.map_congr_left fun f _ => h.sighting hshow hboth f
  | remove image p =>
    refine alike_bind ((alike_tracked (h.remove _) hvw).imp ?_)
    rintro ⟨found, ns⟩ _ _ _ ⟨rfl, hboth⟩
    exact ⟨hboth, rfl, fun _ hshow => congrArg Reply.entry (h.sighting hshow hboth found)⟩
  | removeImage image =>
    refine alike_bind ((alike_tracked (h.removeImage image) hvw).imp ?_)
    rintro ⟨n, ns⟩ _ _ _ ⟨rfl, hboth⟩
    exact ⟨hboth, rfl, fun _ _ => rfl⟩
  | flush =>
    refine alike_bind ((alike_tracked h.flush hvw).imp ?_)
    rintro ns _ _ _ ⟨rfl, hboth⟩
    exact ⟨hboth, rfl, fun _ _ => rfl⟩
  | relieve =>
    refine alike_bind ((alike_tracked h.relieve hvw).imp ?_)
    rintro ns _ _ _ ⟨rfl, hboth⟩
    exact ⟨hboth, rfl, fun _ _ => rfl⟩
  | setCapacity bytes =>
    refine alike_map ((h.setCapacity bytes hvw).imp ?_)
    rintro x c _ d ⟨rfl, hboth⟩
    cases x <;> exact ⟨hboth, rfl, fun _ _ => rfl⟩
  | setThreshold t =>
    refine alike_map ((h.setThreshold t hvw).imp ?_)
    rintro x c _ d ⟨rfl, hboth⟩
    cases x <;> exact ⟨hboth, rfl, fun _ _ => rfl⟩
  | enable =>
    exact ⟨⟨h.ledger.switch true hvw.ledger, hvw.register, hvw.store⟩, rfl, fun _ _ => rfl⟩
  | disable =>
    exact ⟨⟨h.ledger.switch false hvw.ledger, hvw.register, hvw.store⟩, rfl, fun _ _ => rfl⟩
  | tilesOf image =>
    refine ⟨⟨hvw⟩, rfl, fun _ hshow => congrArg Reply.entries ?_⟩
    rw [Cache.entriesOf, h.store.entriesOf hvw.store]
    exact h.sightings hshow ⟨hvw⟩ _
  | contains image p =>
    refine ⟨⟨hvw⟩, rfl, fun _ _ => congrArg Reply.flag ?_⟩
    rw [Cache.get?, h.store.get? hvw.store, Option.isSome_map]
    rfl
  | report => exact ⟨⟨hvw⟩, rfl, fun _ hshow => congrArg (Reply.report · none) (h.report hshow hvw)⟩
  | list =>
    refine ⟨⟨hvw⟩, rfl, fun _ hshow => congrArg Reply.entries ?_⟩
    rw [Cache.entries, h.store.entries hvw.store]
    exact h.sightings hshow ⟨hvw⟩ _

end InStep

end Kinship

end TileStore
