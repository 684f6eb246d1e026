import TileStore.Proofs.Ledger
import TileStore.Proofs.Variant
import TileStore.Scene

/-!
# Counters and observers only watch

What watches a cache are its counters, with the switch that enables them, and its observers. No
computation goes by them. Those of either layout ignore what watches the cache, whatever it is; a look-up
overlooks it, as it is counted. `Request.perform_watched` says so for all that can be asked of a cache,
where a report is the same but for the counters that it shows, and `Session.obey_watched` for all that can
be done in a session.

Writes, passes and removals go by the sums of the ledger and its bounds, and by nothing else that is in
it. So they ignore any change of it that leaves these alone, `Ledger.Unread`; the number of the next entry
may be changed just as well as what watches the cache. `Ledger.Idle` is such a change by which the making
of entries does not go either. It is ignored by every request that neither looks anything up nor is about
the counters: `Request.ignores_perform_edited`.
-/

namespace TileStore

open Mutation

/-- What watches a cache. -/
structure Watch where
  counters : Counters
  observers : Nat

/-! ### Ledgers -/

namespace Ledger

/-- A change of the ledger that leaves the sums and the bounds alone. -/
structure Unread (g : Ledger → Ledger) : Prop where
  sums : ∀ l memory count, g { l with memoryUsed := memory, tileCount := count } =
    { g l with memoryUsed := memory, tileCount := count }
  capacity : ∀ l, (g l).capacity = l.capacity
  threshold : ∀ l, (g l).threshold = l.threshold

namespace Unread

variable {g : Ledger → Ledger}

theorem memoryUsed (h : Unread g) (l : Ledger) : (g l).memoryUsed = l.memoryUsed := by
  have hsums := congrArg Ledger.memoryUsed (h.sums l l.memoryUsed l.tileCount)
  exact hsums

theorem tileCount (h : Unread g) (l : Ledger) : (g l).tileCount = l.tileCount := by
  have hsums := congrArg Ledger.tileCount (h.sums l l.memoryUsed l.tileCount)
  exact hsums

theorem target (h : Unread g) (l : Ledger) : (g l).target = l.target := by
  rw [Ledger.target, h.capacity, h.threshold, Ledger.target]

theorem isOverCapacity (h : Unread g) (l : Ledger) : (g l).isOverCapacity = l.isOverCapacity := by
  rw [Ledger.isOverCapacity, h.capacity, h.memoryUsed, Ledger.isOverCapacity]

/-- Charging and giving back ignore it. -/
theorem ignores_account (h : Unread g) (came went : Option UInt64) :
    Ignores g (account came went) := by
  have hedit : ∀ (f k : UInt64 → UInt64) l,
      { g l with memoryUsed := f (g l).memoryUsed, tileCount := k (g l).tileCount } =
        g { l with memoryUsed := f l.memoryUsed, tileCount := k l.tileCount } := by
    intro f k l
    simp only [h.memoryUsed, h.tileCount]
    exact (h.sums l _ _).symm
  have hrelease : ∀ size, Ignores g (release size) := by
    intro size l
    unfold Shadows
    rw [result_release, result_release, h.memoryUsed]
    refine congrArg (_, ·) ?_
    have := hedit (· - size) id l
    rwa [h.memoryUsed] at this
  cases came with
  | none =>
    cases went with
    | none => exact ignores_pure _
    | some size =>
      refine (hrelease size).bind fun _ => ignores_get fun l => ?_
      have hless : { g l with tileCount := (g l).tileCount - 1 } =
          g { l with tileCount := l.tileCount - 1 } := hedit id (· - 1) l
      rw [hless, h.tileCount]
      exact shadows_set (shadows_ite rfl rfl)
  | some size =>
    have hcharge : Ignores g (modify (·.charge size)) := ignores_modify (hedit (· + size) id)
    cases went with
    | none => exact ignores_modify (hedit (· + size) (· + 1))
    | some size' => exact hcharge.bind fun _ => hrelease size'

end Unread

/-- Nor does the making of entries go by what is changed, and new bounds do not touch it. -/
structure Idle (g : Ledger → Ledger) : Prop extends Unread g where
  nextSeq : ∀ l, (g l).nextSeq = l.nextSeq
  overhead : ∀ l, (g l).overhead = l.overhead
  make : ∀ l n, g { l with nextSeq := n } = { g l with nextSeq := n }
  withCapacity : ∀ l bytes, g { l with capacity := bytes } = { g l with capacity := bytes }
  withThreshold : ∀ l t, g { l with threshold := t } = { g l with threshold := t }

namespace Idle

variable {g : Ledger → Ledger}

theorem setCapacity (h : Idle g) (bytes : UInt64) (l : Ledger) :
    (g l).setCapacity bytes = (l.setCapacity bytes).map g := by
  rw [setCapacity_eq, setCapacity_eq]
  split
  · rfl
  · exact congrArg Except.ok (h.withCapacity l bytes).symm

theorem setThreshold (h : Idle g) (t : Binary64) (l : Ledger) :
    (g l).setThreshold t = (l.setThreshold t).map g := by
  rw [setThreshold_eq, setThreshold_eq]
  split
  · exact congrArg Except.ok (h.withThreshold l t).symm
  · rfl

end Idle

/-- What watches the ledger. -/
def watch (l : Ledger) : Watch := ⟨l.counters, l.observers⟩

/-- The ledger with another watch. -/
def watched (w : Watch) (l : Ledger) : Ledger :=
  { l with counters := w.counters, observers := w.observers }

theorem idle_watched (w : Watch) : Idle (watched w) :=
  ⟨⟨fun _ _ _ => rfl, fun _ => rfl, fun _ => rfl⟩, fun _ => rfl, fun _ => rfl, fun _ _ => rfl,
    fun _ _ => rfl, fun _ _ => rfl⟩

end Ledger

/-! ### Vaults -/

namespace Vault

variable {σ : Type} {g : Ledger → Ledger}

/-- The vault with a change of its ledger. -/
def edited (g : Ledger → Ledger) (v : Vault σ) : Vault σ := { v with ledger := g v.ledger }

theorem ignores_inStore {α : Type} (f : Mutation σ α) : Ignores (edited g) (inStore f) :=
  Ignores.within (v := id) (fun _ => rfl) (fun _ => rfl) fun _ _ => rfl

theorem ignores_account (hg : Ledger.Unread g) (came went : Option Entry) :
    Ignores (edited (σ := σ) g) (account came went) :=
  (hg.ignores_account _ _).within (fun _ => rfl) fun _ _ => rfl

theorem ignores_touch (e : Entry) (now : Nat) :
    Ignores (edited (σ := σ) g) (modify (·.touch e now)) := ignores_modify fun _ => rfl

theorem ignores_mark (e : Entry) (a : Action) :
    Ignores (edited (σ := σ) g) (modify (·.mark e a)) := ignores_modify fun _ => rfl

theorem ignores_dismiss (es : List Entry) : Ignores (edited (σ := σ) g) (dismiss es) :=
  (ignores_forM (fun e => ignores_mark e .removed) es).bind fun _ => ignores_pure _

/-- A pass over the target comes to the same, and so does what is reported of it. -/
theorem passRecord_edited (hg : Ledger.Unread g) (kind : String) (m : Moment) (target : UInt64)
    (before after : Vault σ) (victims : List Entry) :
    passRecord kind m target (before.edited g) (after.edited g) victims =
      passRecord kind m target before after victims := by
  simp only [passRecord, edited, hg.memoryUsed]

theorem oversizeWarning_edited (hg : Ledger.Unread g) (v : Vault σ) (e : Entry) :
    (v.edited g).oversizeWarning e = v.oversizeWarning e := by
  simp only [oversizeWarning, edited, hg.capacity]

/-- The vault with another watch. -/
def watched (w : Watch) (v : Vault σ) : Vault σ := v.edited (·.watched w)

theorem ignores_newEntry (hg : Ledger.Idle g) (m : Moment) (owner : Owner) (p : Position)
    (payload : Payload) (cost : Option Binary64) :
    Ignores (edited (σ := σ) g) (newEntry m owner p payload cost) := by
  refine ignores_get fun v => ?_
  have hnext : { g v.ledger with nextSeq := (g v.ledger).nextSeq + 1 } =
      g { v.ledger with nextSeq := v.ledger.nextSeq + 1 } := by
    rw [hg.nextSeq]
    exact (hg.make v.ledger _).symm
  have hentry : Entry.new owner p payload cost (g v.ledger).overhead (g v.ledger).nextSeq =
      .new owner p payload cost v.ledger.overhead v.ledger.nextSeq := by rw [hg.nextSeq, hg.overhead]
  exact congrArg₂ (fun e l => (Except.ok e, (⟨l, v.register.enter m.now, v.store⟩ : Vault σ)))
    hentry hnext

theorem overlooks_count (h : Happening) : Overlooks (watched (σ := σ)) (modify (·.count h)) :=
  overlooks_modify fun w _ => ⟨⟨w.counters.count h, w.observers⟩, rfl⟩

end Vault

namespace Linked

open Vault (edited ignores_inStore ignores_account ignores_touch ignores_mark ignores_newEntry
  ignores_dismiss)

section Unread

variable {g : Ledger → Ledger}

theorem ignores_evictSlot (hg : Ledger.Unread g) (slot : Nat) :
    Ignores (edited g) (evictSlot slot) :=
  (ignores_inStore _).bind fun e => (ignores_account hg _ _).bind fun _ =>
    (ignores_mark e .evicted).bind fun _ => ignores_pure e

theorem ignores_evictListed (hg : Ledger.Unread g) (target : UInt64) (slots : List Nat) :
    Ignores (edited g) (evictListed target slots) := by
  induction slots with
  | nil => exact ignores_pure _
  | cons slot slots ih =>
    refine ignores_get fun v => ?_
    rw [edited, hg.memoryUsed]
    refine shadows_ite rfl ?_
    exact (ignores_evictSlot hg slot).bind (fun e => ih.bind fun es => ignores_pure _) v

theorem ignores_evictScheduled (hg : Ledger.Unread g) (target : UInt64) (protect : Option TileKey)
    (fuel : Nat) : Ignores (edited g) (evictScheduled target protect fuel) := by
  induction fuel with
  | zero => exact ignores_pure _
  | succ fuel ih =>
    refine ignores_get fun v => ?_
    rw [edited, hg.memoryUsed]
    refine shadows_ite rfl ?_
    dsimp only
    cases v.store.cheapest? protect with
    | none => exact rfl
    | some slot =>
      exact (ignores_evictSlot hg slot).bind (fun e => ih.bind fun es => ignores_pure _) v

theorem ignores_evict (hg : Ledger.Unread g) (m : Moment) (protect : Option TileKey) :
    Ignores (edited g) (evict m protect) := by
  refine ignores_get fun v => ?_
  have hledger : (v.edited g).ledger = g v.ledger := rfl
  rw [hledger, hg.memoryUsed, hg.target]
  refine shadows_ite rfl (shadows_set (u := { v with store := v.store.advanceSweep sweepBudget }) ?_)
  refine shadows_bind (ignores_evictListed hg _ _ _) fun swept u => shadows_get ?_
  refine shadows_bind (ignores_evictScheduled hg _ protect _ _) fun scheduled u => shadows_get ?_
  rw [Vault.passRecord_edited hg]
  exact rfl

theorem ignores_write (hg : Ledger.Unread g) (m : Moment) (e : Entry) :
    Ignores (edited g) (write m e) := by
  refine (ignores_inStore _).bind fun replaced => (ignores_mark e .updated).bind_if ?_
  refine (ignores_account hg _ _).bind fun _ => ignores_get fun v => ?_
  have hledger : (v.edited g).ledger = g v.ledger := rfl
  rw [hledger, hg.isOverCapacity, Vault.oversizeWarning_edited hg]
  exact shadows_ite ((ignores_evict hg m _).bind (fun pass => ignores_pure _) v) rfl

theorem ignores_find (m : Moment) (k : TileKey) : Ignores (edited g) (find m k) := by
  refine (ignores_inStore _).bind fun found => ?_
  cases found with
  | none => exact ignores_pure _
  | some e => exact (ignores_touch e m.now).bind fun _ => ignores_pure _

theorem ignores_discharge (hg : Ledger.Unread g) (e : Entry) : Ignores (edited g) (discharge e) :=
  (ignores_account hg _ _).bind fun _ => ignores_pure e

theorem ignores_remove (hg : Ledger.Unread g) (k : TileKey) : Ignores (edited g) (remove k) := by
  refine (ignores_inStore _).bind fun found => ?_
  cases found with
  | none => exact ignores_pure _
  | some e =>
    exact (ignores_discharge hg e).bind fun e => (ignores_dismiss [e]).bind fun _ => ignores_pure _

theorem ignores_removeImage (hg : Ledger.Unread g) (image : Identity) :
    Ignores (edited g) (removeImage image) := by
  refine ignores_get fun v => Ignores.bind (ignores_mapM (fun key => ?_) _) (fun es => ?_) v
  · refine (ignores_inStore _).bind fun found => ?_
    cases found with
    | none => exact ignores_throw _
    | some e => exact ignores_discharge hg e
  · exact (ignores_dismiss es).bind fun _ => ignores_pure _

theorem ignores_flush (hg : Ledger.Unread g) : Ignores (edited g) flush :=
  ignores_get fun v => shadows_set <|
    (ignores_forM (fun _ => ignores_account hg _ _) v.store.entries).bind (fun _ =>
      (ignores_dismiss v.store.entries).bind fun _ => ignores_pure _) _

theorem ignores_relieve (hg : Ledger.Unread g) (m : Moment) : Ignores (edited g) (relieve m) :=
  (ignores_evict hg m none).bind fun _ => ignores_pure _

theorem ignores_add (hg : Ledger.Idle g) (m : Moment) (owner : Owner) (p : Position)
    (payload : Payload) (cost : Option Binary64) :
    Ignores (edited g) (add m owner p payload cost) :=
  (ignores_newEntry hg m owner p payload cost).bind fun e =>
    (ignores_write hg.toUnread m e).bind fun _ => ignores_pure _

theorem ignores_addBatch (hg : Ledger.Idle g) (m : Moment) (owner : Owner)
    (tiles : List (Position × Payload × Option Binary64)) :
    Ignores (edited g) (addBatch m owner tiles) :=
  (ignores_mapM (fun _ => ignores_newEntry hg m owner _ _ _) tiles).bind fun es =>
    (ignores_mapM (ignores_write hg.toUnread m) es).bind fun _ => ignores_pure _

end Unread

theorem overlooks_get? (m : Moment) (k : TileKey) : Overlooks Vault.watched (get? m k) :=
  (overlooks_of_ignores fun _ => ignores_find m k).bind fun _ =>
    (Vault.overlooks_count _).bind fun _ => overlooks_pure _

theorem overlooks_getAll (m : Moment) (ks : List TileKey) : Overlooks Vault.watched (getAll m ks) :=
  (overlooks_mapM (fun k => overlooks_of_ignores fun _ => ignores_find m k) ks).bind fun found =>
    (overlooks_forM (fun _ => Vault.overlooks_count _) found).bind fun _ => overlooks_pure _

end Linked

namespace Sharded

open Vault (edited ignores_inStore ignores_account ignores_touch ignores_mark ignores_newEntry
  ignores_dismiss)

section Unread

variable {g : Ledger → Ledger}

theorem ignores_evictEntry (hg : Ledger.Unread g) (e : Entry) :
    Ignores (edited g) (evictEntry e) :=
  (ignores_inStore _).bind fun _ => (ignores_inStore _).bind fun _ =>
    (ignores_account hg _ _).bind fun _ => ignores_mark e .evicted

theorem ignores_evictSampled (hg : Ledger.Unread g) (m : Moment) (target : UInt64)
    (protect : Option TileKey) (fuel : Nat) :
    Ignores (edited g) (evictSampled m target protect fuel) := by
  induction fuel with
  | zero => exact ignores_pure _
  | succ fuel ih =>
    refine ignores_get fun v => ?_
    have hledger : (v.edited g).ledger = g v.ledger := rfl
    have hpick : (v.edited g).store.pick? ((v.edited g).rank m) protect =
        v.store.pick? (v.rank m) protect := rfl
    rw [hledger, hg.memoryUsed, hpick]
    refine shadows_ite rfl (shadows_set (u := { v with store := v.store.advance }) ?_)
    cases v.store.pick? (v.rank m) protect with
    | none => exact rfl
    | some e => exact (ignores_evictEntry hg e).bind (fun _ => ih.bind fun es => ignores_pure _) _

theorem ignores_evict (hg : Ledger.Unread g) (m : Moment) (protect : Option TileKey) :
    Ignores (edited g) (evict m protect) := by
  refine ignores_get fun v => ?_
  have hledger : (v.edited g).ledger = g v.ledger := rfl
  rw [hledger, hg.memoryUsed, hg.target, hg.tileCount]
  refine shadows_ite rfl ?_
  refine shadows_bind (ignores_evictSampled hg m _ protect _ _) fun victims u => shadows_get ?_
  rw [Vault.passRecord_edited hg]
  exact rfl

theorem ignores_restoreBound (hg : Ledger.Unread g) (m : Moment) (e : Entry) :
    Ignores (edited g) (restoreBound m e) := by
  refine ignores_get fun v => ?_
  have hledger : (v.edited g).ledger = g v.ledger := rfl
  rw [hledger, hg.isOverCapacity, Vault.oversizeWarning_edited hg]
  exact shadows_ite ((ignores_evict hg m _).bind (fun _ => ignores_pure _) v) rfl

theorem ignores_write (hg : Ledger.Unread g) (e : Entry) : Ignores (edited g) (write e) :=
  (ignores_inStore _).bind fun _ => (ignores_mark e .updated).bind_if
    ((ignores_account hg _ _).bind fun _ => ignores_pure _)

theorem ignores_remove (hg : Ledger.Unread g) (k : TileKey) (image : ImageKey) :
    Ignores (edited g) (remove k image) := by
  refine (ignores_inStore _).bind fun found => ?_
  cases found with
  | none => exact ignores_pure _
  | some e =>
    exact (ignores_inStore _).bind fun _ => (ignores_account hg _ _).bind fun _ =>
      (ignores_dismiss [e]).bind fun _ => ignores_pure _

theorem ignores_removeKeys (hg : Ledger.Unread g) (ks : List TileKey) :
    Ignores (edited g) (removeKeys ks) := by
  refine ignores_mapM (fun k => (ignores_inStore _).bind fun found => ?_) ks
  cases found with
  | none => exact ignores_throw _
  | some e => exact (ignores_account hg _ _).bind fun _ => ignores_pure _

theorem ignores_removeImage (hg : Ledger.Unread g) (image : Identity) :
    Ignores (edited g) (removeImage image) :=
  ignores_get fun _ => shadows_set <| (ignores_removeKeys hg _).bind (fun es =>
    (ignores_dismiss es).bind fun _ => ignores_pure _) _

theorem ignores_flush (hg : Ledger.Unread g) : Ignores (edited g) flush := by
  refine ignores_get fun v => Ignores.bind (ignores_mapM (fun i => ?_) _) (fun parts => ?_) v
  · exact ignores_get fun _ => shadows_set (ignores_removeKeys hg _ _)
  · exact (ignores_dismiss _).bind fun _ => ignores_pure _

theorem ignores_relieve (hg : Ledger.Unread g) (m : Moment) : Ignores (edited g) (relieve m) :=
  (ignores_evict hg m none).bind fun _ => ignores_pure _

theorem ignores_add (hg : Ledger.Idle g) (m : Moment) (owner : Owner) (p : Position)
    (payload : Payload) (cost : Option Binary64) :
    Ignores (edited g) (add m owner p payload cost) :=
  (ignores_newEntry hg m owner p payload cost).bind fun e =>
    (ignores_write hg.toUnread e).bind fun _ =>
      (ignores_restoreBound hg.toUnread m e).bind fun _ => ignores_pure _

theorem ignores_addBatch (hg : Ledger.Idle g) (m : Moment) (owner : Owner)
    (tiles : List (Position × Payload × Option Binary64)) :
    Ignores (edited g) (addBatch m owner tiles) := by
  refine (ignores_mapM (fun _ => ignores_newEntry hg m owner _ _ _) tiles).bind fun es => ?_
  cases es.getLast? with
  | none => exact ignores_pure _
  | some last =>
    have hwrite : ∀ e, Ignores (edited g) (do return (e, ← write e)) := fun e =>
      (ignores_write hg.toUnread e).bind fun _ => ignores_pure _
    exact (ignores_mapM hwrite es).bind fun _ =>
      (ignores_restoreBound hg.toUnread m last).bind fun _ => ignores_pure _

end Unread

theorem overlooks_get? (m : Moment) (k : TileKey) : Overlooks Vault.watched (get? m k) := by
  intro w v
  unfold get?
  rw [result_bind, result_bind, result_get, result_get]
  dsimp only
  rw [show (v.watched w).store = v.store from rfl]
  cases v.store.get? k with
  | none => exact ⟨⟨w.counters.count (.lookup false), w.observers⟩, rfl⟩
  | some e =>
    rw [show (v.watched w).ledger.trackRecency = v.ledger.trackRecency from rfl]
    refine ⟨⟨w.counters.count (.lookup true), w.observers⟩, ?_⟩
    cases v.ledger.trackRecency <;> rfl

theorem overlooks_getAll (m : Moment) (ks : List TileKey) : Overlooks Vault.watched (getAll m ks) :=
  overlooks_mapM (overlooks_get? m) ks

end Sharded

/-! ### Caches -/

namespace Cache

variable (w : Watch)

/-- The cache with another watch. -/
def watched (c : Cache) : Cache := c.editLedger (·.watched w)

@[simp] theorem ledger_watched (c : Cache) : (c.watched w).ledger = c.ledger.watched w := by
  cases c <;> rfl

@[simp] theorem watched_watched (w' : Watch) (c : Cache) :
    (c.watched w).watched w' = c.watched w' := by cases c <;> rfl

@[simp] theorem watched_watch (c : Cache) : c.watched c.ledger.watch = c := by cases c <;> rfl

@[simp] theorem layout_watched (c : Cache) : (c.watched w).layout = c.layout := by cases c <;> rfl

@[simp] theorem shardCount?_watched (c : Cache) : (c.watched w).shardCount? = c.shardCount? := by
  cases c <;> rfl

@[simp] theorem entries_watched (c : Cache) : (c.watched w).entries = c.entries := by
  cases c <;> rfl

@[simp] theorem get?_watched (c : Cache) : (c.watched w).get? = c.get? := by cases c <;> rfl

@[simp] theorem entriesOf_watched (c : Cache) : (c.watched w).entriesOf = c.entriesOf := by
  cases c <;> rfl

@[simp] theorem status_watched (c : Cache) : (c.watched w).status = c.status := by
  cases c <;> rfl

@[simp] theorem sight_watched (c : Cache) : (c.watched w).sight = c.sight := by cases c <;> rfl

/-! ### Changes of the ledger -/

variable {g : Ledger → Ledger}

/-- The cache with a change of its ledger. -/
def edited (g : Ledger → Ledger) (c : Cache) : Cache := c.editLedger g

@[simp] theorem ledger_edited (c : Cache) : (c.edited g).ledger = g c.ledger := by cases c <;> rfl

@[simp] theorem layout_edited (c : Cache) : (c.edited g).layout = c.layout := by cases c <;> rfl

@[simp] theorem shardCount?_edited (c : Cache) : (c.edited g).shardCount? = c.shardCount? := by
  cases c <;> rfl

@[simp] theorem entries_edited (c : Cache) : (c.edited g).entries = c.entries := by
  cases c <;> rfl

@[simp] theorem get?_edited (c : Cache) : (c.edited g).get? = c.get? := by cases c <;> rfl

@[simp] theorem entriesOf_edited (c : Cache) : (c.edited g).entriesOf = c.entriesOf := by
  cases c <;> rfl

@[simp] theorem status_edited (c : Cache) : (c.edited g).status = c.status := by cases c <;> rfl

@[simp] theorem sight_edited (c : Cache) : (c.edited g).sight = c.sight := by cases c <;> rfl

variable {α : Type} {onLinked : Mutation Linked α} {onSharded : Mutation Sharded α}

theorem ignores_byLayout (hl : Ignores (Vault.edited g) onLinked)
    (hs : Ignores (Vault.edited g) onSharded) :
    Ignores (edited g) (byLayout onLinked onSharded) := by
  rintro (v | v)
  · exact congrArg (fun x => (x.1, linked x.2)) (hl v)
  · exact congrArg (fun x => (x.1, sharded x.2)) (hs v)

theorem overlooks_byLayout (hl : Overlooks Vault.watched onLinked)
    (hs : Overlooks Vault.watched onSharded) : Overlooks watched (byLayout onLinked onSharded) := by
  rintro w (v | v)
  · exact (hl w v).imp fun _ h => congrArg (fun x => (x.1, linked x.2)) h
  · exact (hs w v).imp fun _ h => congrArg (fun x => (x.1, sharded x.2)) h

theorem ignores_relieve (hg : Ledger.Unread g) (m : Moment) : Ignores (edited g) (relieve m) :=
  ignores_byLayout (Linked.ignores_relieve hg m) (Sharded.ignores_relieve hg m)

theorem ignores_addBatch (hg : Ledger.Idle g) (m : Moment) (owner : Owner)
    (points : List Position) (payloads : List Payload) (costs : Option (List Binary64)) :
    Ignores (edited g) (addBatch m owner points payloads costs) := by
  unfold addBatch
  cases pairUp points payloads costs with
  | error r => exact ignores_pure _
  | ok tiles =>
    exact (ignores_byLayout (Linked.ignores_addBatch hg m owner tiles)
      (Sharded.ignores_addBatch hg m owner tiles)).map _

theorem editLedger_edited (l : Ledger) (c : Cache) :
    (c.edited g).editLedger (fun _ => g l) = (c.editLedger fun _ => l).edited g := by cases c <;> rfl

theorem ignores_setCapacity (hg : Ledger.Idle g) (m : Moment) (bytes : UInt64) :
    Ignores (edited g) (setCapacity m bytes) := by
  refine ignores_get fun c => ?_
  rw [ledger_edited, hg.setCapacity, hg.capacity]
  cases c.ledger.setCapacity bytes with
  | error r => exact rfl
  | ok l =>
    dsimp only [Except.map]
    rw [editLedger_edited, hg.isOverCapacity]
    exact shadows_set (shadows_ite ((ignores_relieve hg.toUnread m).bind (fun _ => ignores_pure _) _)
      rfl)

theorem ignores_setThreshold (hg : Ledger.Idle g) (t : Binary64) :
    Ignores (edited g) (setThreshold t) := by
  refine ignores_get fun c => ?_
  rw [ledger_edited, hg.setThreshold, hg.threshold]
  cases c.ledger.setThreshold t with
  | error r => exact rfl
  | ok l =>
    dsimp only [Except.map]
    rw [editLedger_edited]
    exact shadows_set rfl

end Cache

/-! ### Requests -/

/-- The answer without the counters that it shows. -/
def Reply.uncounted : Reply → Reply
  | .report r shards => .report { r with counters := {} } shards
  | x => x

/-- What a request ends in, without the counters that it shows. -/
def Reply.outcome (x : Except Fault (Reply × List Notice)) : Except Fault (Reply × List Notice) :=
  x.map fun (reply, notices) => (reply.uncounted, notices)

/-- Outcomes that are the same without counters are the same fault, or answers with the same notices. -/
theorem Reply.eq_of_outcome {x y : Except Fault (Reply × List Notice)} (h : outcome x = outcome y) :
    (∃ f, x = .error f ∧ y = .error f) ∨
      ∃ a b notices, x = .ok (a, notices) ∧ y = .ok (b, notices) ∧ a.uncounted = b.uncounted := by
  rcases x with f | ⟨a, ns⟩ <;> rcases y with f' | ⟨b, ns'⟩ <;>
    simp only [outcome, Except.map, Except.error.injEq, Except.ok.injEq, Prod.mk.injEq, reduceCtorEq] at h
  · exact .inl ⟨f', h ▸ rfl, rfl⟩
  · exact .inr ⟨a, b, ns', h.2 ▸ rfl, rfl, h.1⟩

namespace Request

theorem overlooks_editCounters (f : Counters → Counters) :
    Overlooks Cache.watched (editCounters f) := by
  refine (overlooks_modify fun w c => ⟨⟨f w.counters, w.observers⟩, ?_⟩).bind fun _ => overlooks_pure _
  cases c <;> rfl

/-- The request counts, or is about the counters. -/
def usesCounters {ο ι : Type} : Request ο ι → Bool
  | get .. | getAll .. | enable | disable | reset | report => true
  | _ => false

/-- Any other request ignores them, and whatever else nothing goes by. -/
theorem ignores_perform_edited {g : Ledger → Ledger} (hg : Ledger.Idle g) (m : Moment)
    {q : Request Owner Identity} (hq : q.usesCounters = false) :
    Ignores (Cache.edited g) (q.perform m) := by
  -- An answer may show entries as they are, which it does in all variants alike.
  have hseen : ∀ {β : Type} {k : Cache → β}, (∀ c, k (c.edited g) = k c) →
      Ignores (Cache.edited g) (do let c ← MonadState.get; return k c) := fun hk =>
    ignores_get fun c => congrArg (fun x => (Except.ok x, c.edited g)) (hk c)
  have hw := hg.toUnread
  cases q with
  | get | getAll | enable | disable | reset | report => cases hq
  | add owner p payload cost =>
    exact (Cache.ignores_byLayout (Linked.ignores_add hg m owner p payload cost)
      (Sharded.ignores_add hg m owner p payload cost)).bind fun _ => ignores_pure _
  | addBatch owner points payloads costs =>
    exact (Cache.ignores_addBatch hg m owner points payloads costs).map _
  | tilesOf image => exact hseen fun c => by simp
  | contains image p => exact hseen fun c => by simp
  | remove image p =>
    exact (Cache.ignores_byLayout (Linked.ignores_remove hw _) (Sharded.ignores_remove hw _ _)).bind
      fun x => hseen fun c => by simp
  | removeImage image =>
    exact (Cache.ignores_byLayout (Linked.ignores_removeImage hw image)
      (Sharded.ignores_removeImage hw image)).bind fun _ => ignores_pure _
  | flush =>
    exact (Cache.ignores_byLayout (Linked.ignores_flush hw) (Sharded.ignores_flush hw)).bind fun _ =>
      ignores_pure _
  | relieve => exact (Cache.ignores_relieve hw m).bind fun _ => ignores_pure _
  | setCapacity bytes => exact (Cache.ignores_setCapacity hg m bytes).map _
  | setThreshold t => exact (Cache.ignores_setThreshold hg t).map _
  | list => exact hseen fun c => by simp

theorem ignores_perform (w : Watch) (m : Moment) {q : Request Owner Identity}
    (hq : q.usesCounters = false) : Ignores (Cache.watched w) (q.perform m) :=
  ignores_perform_edited (Ledger.idle_watched w) m hq

theorem overlooks_perform (m : Moment) {q : Request Owner Identity} (hq : q ≠ .report) :
    Overlooks Cache.watched (q.perform m) := by
  have hseen : ∀ {β : Type} {k : Cache → β}, (∀ w c, k (c.watched w) = k c) →
      Overlooks Cache.watched (do let c ← MonadState.get; return k c) := fun hk =>
    overlooks_get (fun w c => congrArg pure (hk w c)) fun _ => overlooks_pure _
  cases q with
  | report => exact absurd rfl hq
  | get image p =>
    exact (Cache.overlooks_byLayout (Linked.overlooks_get? m _) (Sharded.overlooks_get? m _)).bind
      fun found => hseen fun w c => by simp
  | getAll image points =>
    exact (Cache.overlooks_byLayout (Linked.overlooks_getAll m _) (Sharded.overlooks_getAll m _)).bind
      fun found => hseen fun w c => by simp
  | enable | disable | reset => exact overlooks_editCounters _
  | _ => exact overlooks_of_ignores fun w => ignores_perform w m rfl

/-- Whatever watches the cache, a request comes to the same, but for the counters in a report. -/
theorem perform_watched (m : Moment) (q : Request Owner Identity) (w : Watch) (c : Cache) :
    Reply.outcome ((q.perform m).result (c.watched w)).1 = Reply.outcome ((q.perform m).result c).1 ∧
      ∃ w', ((q.perform m).result (c.watched w)).2 = ((q.perform m).result c).2.watched w' := by
  rcases Classical.em (q = .report) with rfl | hq
  · refine ⟨?_, w, rfl⟩
    simp [perform, Reply.outcome, Reply.uncounted, Cache.report, Ledger.report,
      Ledger.watched, Except.map]
  · obtain ⟨w', hw'⟩ := overlooks_perform m hq w c
    rw [hw']
    exact ⟨rfl, w', rfl⟩

end Request

/-! ### Sessions -/

namespace Session

/-- The session with another watch on its cache. -/
def watched (w : Watch) (s : Session) : Session := { s with cache := s.cache.watched w }

@[simp] theorem watched_watched (w w' : Watch) (s : Session) :
    (s.watched w).watched w' = s.watched w' := by simp [watched]

@[simp] theorem watched_watch (s : Session) : s.watched s.cache.ledger.watch = s := by simp [watched]

@[simp] theorem sight_watched (w : Watch) (s : Session) : (s.watched w).sight = s.sight := by
  unfold sight watched
  simp

theorem overlooks_editScene (f : Scene → Scene) : Overlooks watched (editScene f) :=
  overlooks_modify fun w _ => ⟨w, rfl⟩

theorem overlooks_request {r : Request Owner Subject} (hr : r ≠ .report) :
    Overlooks watched (request r) := by
  refine overlooks_get (fun w s => rfl) fun s => ?_
  dsimp only
  rcases hq : r.resolve some s.scene.image? with _ | q
  · exact overlooks_pure _
  · have hreport : q ≠ .report := by
      rintro rfl
      cases r <;> simp [Request.resolve] at hq hr
    exact (Request.overlooks_perform _ hreport).within (fun _ _ => rfl) fun _ _ _ _ => rfl

theorem overlooks_lookup (image : Subject) (p : Position) : Overlooks watched (lookup image p) := by
  refine (overlooks_request (r := .get image p) nofun).bind fun x => ?_
  split <;> exact overlooks_pure _

theorem overlooks_obey {c : Command Owner} (hc : c ≠ .request .report) : Overlooks watched (obey c) := by
  cases c with
  | adopt | advance => exact (overlooks_editScene _).bind fun _ => overlooks_pure _
  | drop | letGo =>
    exact overlooks_get (fun _ _ => rfl) fun _ => (overlooks_editScene _).bind fun _ => overlooks_pure _
  | hold image p as =>
    refine (overlooks_lookup image p).bind fun found => ?_
    split
    · exact (overlooks_editScene _).bind fun _ => overlooks_pure _
    · exact overlooks_pure _
  | keep image p as =>
    refine (overlooks_lookup image p).bind fun found => ?_
    cases found with
    | none => exact overlooks_pure _
    | some seen => exact (overlooks_editScene _).bind fun _ => overlooks_pure _
  | revisit as =>
    refine overlooks_get (fun w s => ?_) fun _ => overlooks_pure _
    rw [sight_watched]
    rfl
  | request r => exact overlooks_request fun h => hc (congrArg _ h)
  | malformed | addEach => exact overlooks_pure _

/-- To change the counters is to change the watch. -/
theorem result_editCounters (f : Counters → Counters) (s : Session) :
    (inCache (Request.editCounters f)).result s = (.ok (.done, []),
      s.watched ⟨f s.cache.ledger.counters, s.cache.ledger.observers⟩) := by
  rcases s with ⟨scene, c | c⟩ <;> rfl

/-- Whatever watches the cache, a command comes to the same, but for the counters in a report. -/
theorem obey_watched (c : Command Owner) (w : Watch) (s : Session) :
    Reply.outcome ((obey c).result (s.watched w)).1 = Reply.outcome ((obey c).result s).1 ∧
      ∃ w', ((obey c).result (s.watched w)).2 = ((obey c).result s).2.watched w' := by
  rcases Classical.em (c = .request .report) with rfl | hc
  · exact ⟨(Request.perform_watched s.scene.moment .report w s.cache).1, w, rfl⟩
  · obtain ⟨w', hw'⟩ := overlooks_obey hc w s
    rw [hw']
    exact ⟨rfl, w', rfl⟩

end Session

end TileStore
