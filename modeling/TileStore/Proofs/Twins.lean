import TileStore.Proofs.Discharge
import TileStore.Proofs.Linked.Timing
import TileStore.Proofs.Tandem

/-!
# Twins

A linked cache and a sharded one with a single shard, which have been asked the same, are twins:
they hold the same entries, their ledgers and registers agree, and the times of the last uses
increase along the recency list. `Twins.victim` is the heart of the matter: as long as all owners
exist and a sample takes in everything, both would evict the same entry next. So they stay twins
through passes, and through everything else that one is asked when the other is.
-/

namespace TileStore

/-! ### Ledgers -/

/-- The same ledger of a cache that keeps track of recency. -/
def Ledger.tracking (l : Ledger) : Ledger := { l with trackRecency := true }

/-- Whether recency is kept track of makes no difference to what is charged. -/
theorem Ledger.result_account_tracking (came went : Option UInt64) (l : Ledger) :
    (account came went).result l.tracking =
      (((account came went).result l).1, ((account came went).result l).2.tracking) := by
  cases came with
  | none =>
    cases went with
    | none => rfl
    | some went =>
      simp only [account, Mutation.result_bind, result_release, Mutation.result_get,
        Mutation.result_set]
      by_cases hmemory : l.memoryUsed < went
      · simp [tracking, hmemory]
      · by_cases hcount : l.tileCount = 0 <;> simp [tracking, hmemory, hcount]
  | some came =>
    cases went with
    | none => rfl
    | some went =>
      rw [result_account_replaced, result_account_replaced, result_release, result_release]
      rfl

theorem Ledger.covers_tracking {l : Ledger} {es : List Entry} :
    l.tracking.Covers es ↔ l.Covers es :=
  ⟨fun h => ⟨h.total_le, h.length_le⟩, fun h => ⟨h.total_le, h.length_le⟩⟩

/-- Ledgers that agree still do when both charge the same entries. -/
theorem Ledger.Recharged.tracking {l l' k' : Ledger} {es fs : List Entry} (h : l.Recharged l')
    (h' : l.tracking.Recharged k') (hb : l'.Balanced es) (hb' : k'.Balanced fs)
    (hp : fs.Perm es) : k' = l'.tracking := by
  rw [h', h, hb'.memoryUsed, hb'.tileCount, hb.memoryUsed, hb.tileCount, total_perm hp,
    hp.length_eq]
  rfl

/-- Vaults whose ledgers agree charge alike. -/
theorem Vault.alike_account {σ τ α β : Type} {v : Vault σ} {w : Vault τ} {came went : Option Entry}
    {f : Unit → Mutation (Vault σ) α} {g : Unit → Mutation (Vault τ) β}
    {R : α → Vault σ → β → Vault τ → Prop} (hl : w.ledger = v.ledger.tracking)
    (h : ∀ l, (f ()).Alike (g ()) { v with ledger := l } { w with ledger := l.tracking } R) :
    (account came went >>= f).Alike (account came went >>= g) v w R := by
  refine Mutation.alike_bind ?_
  unfold Mutation.Alike account
  rw [Mutation.result_within, Mutation.result_within, hl, Ledger.result_account_tracking]
  generalize (Ledger.account (came.map (·.size)) (went.map (·.size))).result v.ledger = x
  rcases x with ⟨_ | _, l⟩
  · trivial
  · exact h l

/-- Notices without the log lines. -/
def Notice.unlogged (notices : List Notice) : List Notice :=
  notices.filter fun
    | .log _ => false
    | _ => true

@[simp] theorem Notice.unlogged_append (ns ms : List Notice) :
    unlogged (ns ++ ms) = unlogged ns ++ unlogged ms := List.filter_append ..

@[simp] theorem Notice.unlogged_log (lines : List LogLine) : unlogged (lines.map .log) = [] := by
  simp [unlogged]

/-! ### Twins -/

/-- A linked cache and a sharded one that have been asked the same. -/
structure Twins (limit : Nat) (v : Linked) (w : Sharded) : Prop where
  left : v.Sound
  right : w.Sound
  timed : v.Timed limit
  single : w.store.shards.size = 1
  tiles : w.tiles = v.tiles
  ledger : w.ledger = v.ledger.tracking
  register : w.register = v.register

namespace Twins

variable {limit : Nat} {v v' : Linked} {w w' : Sharded} {m : Moment} {e : Entry} {k : TileKey}

theorem perm (h : Twins limit v w) : w.entries.Perm v.entries :=
  (h.tiles ▸ h.right.shelf : Shelf v.tiles w.entries).perm h.left.shelf

theorem status_eq (h : Twins limit v w) (e : Entry) : w.status e = v.status e := by
  rw [Vault.status, h.register, Vault.status]

/-- Twins catalogue the same keys for an image. -/
theorem keysOf_perm (h : Twins limit v w) (image : ImageKey) :
    (Shelved.keysOf w.store image).Perm (Shelved.keysOf v.store image) := by
  refine (List.perm_ext_iff_of_nodup (Shelved.nodup_keysOf h.right.valid _)
    (Shelved.nodup_keysOf h.left.valid _)).2 fun k => ?_
  have hget : Shelved.get? w.store = Shelved.get? v.store := h.tiles
  rw [Shelved.mem_keysOf h.right.valid, Shelved.mem_keysOf h.left.valid, hget]

/-- Twins list the same entries of an image. -/
theorem entriesOf_perm (h : Twins limit v w) (image : ImageKey) :
    ((Shelved.keysOf w.store image).filterMap w.tiles).Perm
      ((Shelved.keysOf v.store image).filterMap v.tiles) := by
  rw [h.tiles]
  exact (h.keysOf_perm image).filterMap _

/-- Twins that change in the same way stay twins. -/
theorem next {limit' : Nat} {g : Tiles} (h : Twins limit v w) (hv : v.Becomes g v')
    (hw : w.Becomes g w') (hsize : w'.store.shards.size = w.store.shards.size)
    (hregister : w'.register = v'.register) (ht : v'.Timed limit') : Twins limit' v' w' := by
  have hshelf : Shelf g w'.entries := hw.tiles ▸ hw.sound.shelf
  refine ⟨hv.sound, hw.sound, ht, hsize.trans h.single, hw.tiles.trans hv.tiles.symm, ?_, hregister⟩
  exact hv.recharged.tracking (h.ledger ▸ hw.recharged) hv.sound.balanced hw.sound.balanced
    (hshelf.perm (hv.tiles ▸ hv.sound.shelf))

/-- The entry that a linked cache would evict next is the one that its twin would. -/
theorem victim (h : Twins limit v w) (halive : ∀ e ∈ v.entries, m.alive e.owner)
    (hfew : v.entries.length ≤ ShardedStore.sampleSize) (protect : Option TileKey) :
    w.store.pick? (w.rank m) protect = (v.store.cheapest? protect).bind v.store.entryAt? := by
  have hfiled := h.right.valid.filed
  have hmem : ∀ f, f ∈ w.store.entries ↔ f ∈ v.entries := fun f => h.perm.mem_iff
  rcases hcheapest : v.store.cheapest? protect with _ | i
  · refine Option.eq_none_iff_forall_ne_some.2 fun e he => ?_
    obtain ⟨he, hp⟩ := hfiled.of_pick? he
    exact hp (h.left.valid.eq_protect_of_cheapest? hcheapest e
      ((hmem e).1 (hfiled.mem_entries.2 he)))
  · obtain ⟨r, hi, hp, hleast⟩ := h.left.valid.cheapest?_least hcheapest
    have hr : r.entry ∈ w.store.entries := (hmem _).2 (h.left.valid.mem_entries.2 ⟨i, r, hi, rfl⟩)
    have hentry : v.store.entryAt? i = some r.entry := by
      rw [LinkedStore.entryAt?, hi, Option.map_some]
    rw [Option.bind_some, hentry]
    rcases hpick : w.store.pick? (w.rank m) protect with _ | e
    · exact absurd (h.right.valid.eq_protect_of_pick? hpick _ hr) hp
    · -- each of the two comes no later than the other
      obtain ⟨he, hpe⟩ := hfiled.of_pick? hpick
      obtain ⟨j, r', hj, rfl⟩ := h.left.valid.mem_entries.1
        ((hmem e).1 (hfiled.mem_entries.2 he))
      have hrank := h.right.valid.pick?_least (hfiled.few h.single (h.perm.length_eq ▸ hfew)) hpick
        r.entry hr hp
      have hturn := hleast j r' hj hpe
      have hsame : ∀ f, w.rank m f = v.rank m f := fun f => by
        rw [Vault.rank, h.status_eq, Vault.rank]
      rw [hsame, hsame, h.timed.compare_rank h.left halive hj hi] at hrank
      have heq := Std.LawfulEqOrd.eq_of_compare (Std.OrientedCmp.isLE_antisymm hturn hrank)
      obtain rfl := h.left.valid.schedule.inj hi hj heq
      rw [Option.some.inj (hi.symm.trans hj)]

/-! ### Passes -/

/-- Twins evict the same entry. -/
theorem evictOne {i : Nat} {r : Resident} (h : Twins limit v w)
    (hi : v.store.recency.get? i = some r) :
    (Linked.evictSlot i).Alike (Sharded.evictEntry r.entry) v w fun e v' _ w' =>
      e = r.entry ∧ Twins limit v' w' ∧ v'.entries = without v.entries r.entry.key ∧
        v'.store.schedule.size < v.store.schedule.size := by
  have hget : v.tiles r.entry.key = some r.entry := h.left.valid.get?_key hi
  have hget' : w.tiles r.entry.key = some r.entry := h.tiles ▸ hget
  have hsteps : (Linked.evictSlot i).Alike (Sharded.evictEntry r.entry) v w fun _ v' _ w' =>
      w'.store.shards.size = w.store.shards.size ∧
        v'.register = v.register.markAll .evicted [r.entry] ∧ w'.register = v'.register := by
    unfold Linked.evictSlot Sharded.evictEntry
    refine Mutation.alike_within_left (LinkedStore.removeSlot_meets h.left.valid hi) trivial ?_
    rintro _ s ⟨-, rfl, -⟩
    refine Mutation.alike_within_right (ShardedStore.take_meets w.store _) trivial ?_
    rintro _ _ ⟨-, rfl⟩
    refine Mutation.alike_within_right ((ShardedStore.strike_meets h.right.valid hget' rfl).and
      (ShardedStore.strike_shards _ _ _)) trivial ?_
    rintro _ t ⟨-, hshards⟩
    have hsize := (congrArg Array.size hshards).trans (ShardedStore.size_editShard ..)
    refine Vault.alike_account h.ledger fun l => ?_
    simp only [Mutation.alike_modify_left, Mutation.alike_pure_modify]
    refine ⟨hsize, rfl, ?_⟩
    exact congrArg (Register.mark · r.entry.seq .evicted) h.register
  refine (hsteps.and_meets (Linked.evictSlot_meets h.left hi)
    (Sharded.evictEntry_meets h.right hget')).imp ?_
  rintro _ v' _ w' ⟨⟨hsize, hmarked, hregister⟩, ⟨rfl, hb, -, hschedule, hentries⟩, hb'⟩
  have htimed : v'.Timed limit :=
    h.timed.marked (hentries ▸ List.filter_sublist) hb.recharged hmarked
  exact ⟨rfl, h.next hb (h.tiles ▸ hb') hsize hregister htimed, hentries, hschedule⟩

/-- A search leaves no trace but in the cursor and the hands. -/
theorem advance (h : Twins limit v w) :
    Twins limit v { w with store := w.store.advance } := by
  obtain ⟨hvalid, hget⟩ := h.right.valid.advance
  have hb : w.Becomes v.tiles { w with store := w.store.advance } :=
    h.tiles ▸ .of_store h.right hvalid hget
  exact h.next (.refl h.left) hb w.store.advance_rows.1 h.register h.timed

/-- Following the schedule and sampling lead to the same victims. -/
theorem evictEach {target : UInt64} {protect : Option TileKey} (fuel : Nat) {fuel' : Nat}
    (h : Twins limit v w) (halive : ∀ e ∈ v.entries, m.alive e.owner)
    (hfew : v.entries.length ≤ ShardedStore.sampleSize) (hfuel : v.store.schedule.size ≤ fuel)
    (hfuel' : v.entries.length < fuel') :
    (Linked.evictScheduled target protect fuel).Alike
      (Sharded.evictSampled m target protect fuel') v w fun es v' es' w' =>
        es' = es ∧ Twins limit v' w' := by
  have hused : ∀ {v w}, Twins limit v w → w.ledger.memoryUsed = v.ledger.memoryUsed :=
    fun h => h.ledger ▸ rfl
  induction fuel generalizing v w fuel' with
  | zero =>
    obtain ⟨n, rfl⟩ := Nat.exists_eq_succ_of_ne_zero (Nat.ne_zero_of_lt hfuel')
    have hempty := Linked.entries_eq_nil_of_schedule h.left (Nat.le_zero.1 hfuel)
    have hpick : w.store.pick? (w.rank m) protect = none := by
      refine Option.eq_none_iff_forall_ne_some.2 fun e he => ?_
      have hmem := h.right.valid.filed.mem_entries.2 (h.right.valid.filed.of_pick? he).1
      exact List.not_mem_nil (hempty ▸ h.perm.mem_iff.1 hmem)
    rw [Linked.evictScheduled, Sharded.evictSampled, Mutation.alike_get_right]
    split
    · exact ⟨rfl, h⟩
    · rw [Mutation.alike_set_right, hpick]
      exact ⟨rfl, h.advance⟩
  | succ fuel ih =>
    obtain ⟨n, rfl⟩ := Nat.exists_eq_succ_of_ne_zero (Nat.ne_zero_of_lt hfuel')
    rw [Linked.evictScheduled, Sharded.evictSampled, Mutation.alike_get_left,
      Mutation.alike_get_right, hused h]
    split
    · exact ⟨rfl, h⟩
    · rw [Mutation.alike_set_right, h.victim halive hfew]
      rcases hcheapest : v.store.cheapest? protect with _ | i
      · exact ⟨rfl, h.advance⟩
      · obtain ⟨r, hi, -⟩ := LinkedStore.exists_of_cheapest? hcheapest
        have hentry : (some i).bind v.store.entryAt? = some r.entry := by
          rw [Option.bind_some, LinkedStore.entryAt?, hi, Option.map_some]
        rw [hentry]
        refine Mutation.alike_bind ((h.advance.evictOne hi).imp ?_)
        rintro _ v₁ _ w₁ ⟨rfl, h₁, hentries, hschedule⟩
        have hleft : ∀ e ∈ v₁.entries, e ∈ v.entries := fun e he =>
          List.mem_of_mem_filter (hentries ▸ he)
        have hlength : v₁.entries.length < v.entries.length := by
          rw [hentries, without, List.length_filter_lt_length_iff_exists]
          exact ⟨r.entry, h.left.valid.mem_entries.2 ⟨i, r, hi, rfl⟩, by simp⟩
        refine Mutation.alike_bind ((ih h₁ (fun e he => halive e (hleft e he)) (by omega) (by omega)
          (by omega)).imp ?_)
        rintro es v' _ w' ⟨rfl, h'⟩
        exact ⟨rfl, h'⟩

/-- Passes of twins have the same victims, if all owners exist and a sample takes in everything. -/
theorem evict (h : Twins limit v w) {protect : Option TileKey}
    (halive : ∀ e ∈ v.entries, m.alive e.owner)
    (hfew : v.ledger.target < v.ledger.memoryUsed →
      v.entries.length ≤ ShardedStore.sampleSize) :
    (Linked.evict m protect).Alike (Sharded.evict m protect) v w fun pass v' pass' w' =>
      pass'.victims = pass.victims ∧ Twins limit v' w' := by
  unfold Linked.evict Sharded.evict
  rw [Mutation.alike_get_left, Mutation.alike_get_right]
  have hledger : w.ledger.memoryUsed = v.ledger.memoryUsed ∧ w.ledger.target = v.ledger.target ∧
      w.ledger.tileCount = v.ledger.tileCount := by
    rw [h.ledger]
    exact ⟨rfl, rfl, rfl⟩
  dsimp only
  rw [hledger.1, hledger.2.1, hledger.2.2]
  split
  · exact ⟨rfl, h⟩
  · next htarget =>
    have hfew := hfew (UInt64.not_le.1 htarget)
    have hstale : v.store.staleSlots m Linked.sweepBudget protect = [] := by
      refine List.eq_nil_iff_forall_not_mem.2 fun i hi => ?_
      obtain ⟨r, hr, -⟩ := LinkedStore.exists_of_mem_staleSlots hi
      have halive := halive r.entry (h.left.valid.mem_entries.2 ⟨i, r, hr, rfl⟩)
      have hstale := (List.mem_filter.1 hi).2
      simp [LinkedStore.entryAt?, hr, Entry.isStale, halive] at hstale
    let v₁ : Linked := { v with store := v.store.advanceSweep Linked.sweepBudget }
    have hentries : v₁.entries = v.entries := LinkedStore.entries_advanceSweep _ _
    have h₁ : Twins limit v₁ w := by
      have hb : w.Becomes v.tiles w := h.tiles ▸ .refl h.right
      refine h.next (Linked.becomes_advanceSweep h.left _) hb rfl h.register
        (h.timed.left ?_ rfl rfl fun _ _ => rfl)
      exact hentries ▸ .refl _
    rw [Mutation.alike_set_left, hstale, Linked.evictListed, pure_bind, Mutation.alike_get_left]
    refine Mutation.alike_bind ((h₁.evictEach (m := m) _ (hentries ▸ halive) (hentries ▸ hfew)
      le_rfl ?_).imp ?_)
    · have hlt : v.entries.length < 2 ^ 64 := hfew.trans_lt (by decide)
      rw [hentries, h.left.balanced.tileCount_toNat hlt]
      exact Nat.lt_succ_self _
    · rintro es v' _ w' ⟨rfl, h'⟩
      rw [Mutation.alike_get_left, Mutation.alike_get_right]
      exact ⟨rfl, h'⟩

/-- The pass after a write, if there is one. -/
theorem restoreBound (h : Twins limit v w) (e : Entry)
    (halive : ∀ e ∈ v.entries, m.alive e.owner)
    (hfew : v.ledger.isOverCapacity → v.entries.length ≤ ShardedStore.sampleSize) :
    (Linked.restoreBound m e).Alike (Sharded.restoreBound m e) v w fun pass v' pass' w' =>
      pass'.victims = pass.victims ∧ Twins limit v' w' := by
  unfold Linked.restoreBound Sharded.restoreBound
  have hover : w.ledger.isOverCapacity = v.ledger.isOverCapacity := by
    rw [h.ledger]
    rfl
  rw [Mutation.alike_get_left, Mutation.alike_get_right, hover]
  split
  · next hover =>
    exact Mutation.alike_bind ((h.evict halive fun _ => hfew hover).imp fun _ _ _ _ => id)
  · exact ⟨rfl, h⟩

/-! ### Writes -/

/-- Twins make the same entry. -/
theorem make (h : Twins limit v w) (owner : Owner) (p : Position) (payload : Payload)
    (cost : Option Binary64) :
    (Vault.newEntry m owner p payload cost : Mutation Linked Entry).Alike
      (Vault.newEntry m owner p payload cost : Mutation Sharded Entry) v w fun e v' e' w' =>
        e' = e ∧ e = v.upcoming owner p payload cost ∧ Twins limit v' w' ∧
          v'.entries = v.entries ∧ v'.ledger.capacity = v.ledger.capacity ∧
          v'.register = v.register.enter m.now := by
  rw [Vault.newEntry, Vault.newEntry, Mutation.alike_get_left, Mutation.alike_get_right,
    Mutation.alike_set_left, Mutation.alike_set_right]
  refine Mutation.alike_pure.2 ⟨?_, rfl, ?_, rfl, rfl, rfl⟩
  · rw [h.ledger]
    rfl
  · have hv : v.Numbered 1 { v with
        ledger := { v.ledger with nextSeq := v.ledger.nextSeq + 1 }
        register := v.register.enter m.now } := ⟨rfl, rfl⟩
    have hw : w.Numbered 1 { w with
        ledger := { w.ledger with nextSeq := w.ledger.nextSeq + 1 }
        register := w.register.enter m.now } := ⟨rfl, rfl⟩
    refine ⟨hv.sound h.left, hw.sound h.right, h.timed.entered rfl rfl rfl, h.single, h.tiles,
      ?_, ?_⟩
    · rw [h.ledger]
      rfl
    · exact congrArg (·.enter m.now) h.register

/-- Twins write the same entry, which was made just now. -/
theorem put (h : Twins limit v w) (he : e.Proper) (hnow : limit ≤ m.now)
    (hseq : e.seq < v.register.size) (htime : (v.status e).lastAccess = m.now)
    (hcost : (e.cost.getD .zero).isNegative = false) :
    (Linked.put e).Alike (Sharded.write e) v w fun replaced v' replaced' w' =>
      replaced' = replaced ∧ Twins (m.now + 1) v' w' ∧ v'.entries = usedLast v.entries e ∧
        v'.ledger.capacity = v.ledger.capacity := by
  have hsteps : (Linked.put e).Alike (Sharded.write e) v w fun _ v' _ w' =>
      w'.store.shards.size = w.store.shards.size ∧ w'.register = v'.register ∧
        v'.register.size = v.register.size ∧
        ∀ f, (v'.status f).lastAccess = (v.status f).lastAccess := by
    unfold Linked.put Sharded.write
    refine Mutation.alike_within_left (LinkedStore.insert_meets h.left.valid he) trivial ?_
    rintro _ s ⟨-, rfl, -⟩
    refine Mutation.alike_within_right ((ShardedStore.insert_meets h.right.valid he).and
      (ShardedStore.insert_size _ _)) trivial ?_
    rintro old t ⟨⟨-, hold, -⟩, hsize⟩
    obtain rfl : old = v.store.get? e.key := hold.trans (congrFun h.tiles e.key)
    split
    · simp only [Mutation.alike_modify_left, Mutation.alike_modify_right]
      refine Vault.alike_account h.ledger fun l => ⟨hsize, ?_, ?_, ?_⟩
      · exact congrArg (Register.mark · e.seq .updated) h.register
      · exact Register.size_mark _ _ _
      · exact fun f => Register.lastAccess_mark _ _ _ _
    · exact Vault.alike_account h.ledger fun l => ⟨hsize, h.register, rfl, fun _ => rfl⟩
  refine (hsteps.and_meets (Linked.put_meets h.left he) (Sharded.write_meets h.right he)).imp ?_
  rintro _ v' _ w' ⟨⟨hsize, hregister, hregistered, hstatus⟩, ⟨rfl, hb, hentries⟩, rfl, hb'⟩
  rw [h.tiles] at hb'
  refine ⟨by rw [h.tiles], h.next hb hb' hsize hregister ?_, hentries, hb.recharged.sameBounds.1⟩
  refine h.timed.used hnow hentries ?_ hregistered.ge (hregistered ▸ hseq) hcost
    ((hstatus e).trans htime) fun f _ _ => hstatus f
  rw [hb.recharged, hregistered]
  exact h.timed.nextSeq

/-- Twins cache the same tile, and tell the same of it. -/
theorem add (h : Twins limit v w) (hnow : limit ≤ m.now) (owner : Owner) (p : Position)
    (payload : Payload) (cost : Option Binary64) (halive : ∀ e ∈ v.entries, m.alive e.owner)
    (howner : m.alive owner.number)
    (hfew : let es := usedLast v.entries (v.upcoming owner p payload cost)
      v.ledger.capacity < UInt64.ofNat (total es) → es.length ≤ ShardedStore.sampleSize) :
    (Linked.add m owner p payload cost).Alike (Sharded.add m owner p payload cost) v w
      fun ns v' ns' w' => Notice.unlogged ns' = Notice.unlogged ns ∧ Twins (m.now + 1) v' w' := by
  unfold Linked.add Sharded.add
  simp only [Linked.write_eq, bind_assoc, pure_bind]
  refine Mutation.alike_bind ((h.make owner p payload cost).imp ?_)
  rintro _ v₁ e w₁ ⟨rfl, he, h₁, hentries, hcapacity, hregister⟩
  have hproper : e.Proper := he ▸ Entry.proper_new ..
  have hcost : (e.cost.getD .zero).isNegative = false := he ▸ isNegative_keptCost cost
  have hseq : e.seq = v.register.size := he ▸ h.timed.nextSeq
  rw [← he] at hfew
  refine Mutation.alike_bind ((h₁.put hproper hnow ?_ ?_ hcost).imp ?_)
  · rw [hseq, hregister, Register.size_enter]
    exact Nat.lt_succ_self _
  · rw [Vault.status, hseq, hregister, Register.status_enter, if_pos rfl]
  rintro replaced v₂ _ w₂ ⟨rfl, h₂, hentries₂, hcapacity₂⟩
  rw [hentries] at hentries₂
  refine Mutation.alike_bind ((h₂.restoreBound (m := m) e ?_ ?_).imp ?_)
  · intro f hf
    rw [hentries₂, usedLast, List.mem_append, List.mem_singleton] at hf
    rcases hf with hf | rfl
    · exact halive f (List.mem_of_mem_filter hf)
    · exact he ▸ howner
  · intro hover
    rw [Ledger.isOverCapacity, decide_eq_true_iff, h₂.left.balanced.memoryUsed, hcapacity₂,
      hcapacity, hentries₂] at hover
    exact hentries₂ ▸ hfew hover
  · rintro pass v' pass' w' ⟨hvictims, h'⟩
    refine Mutation.alike_pure.2 ⟨?_, h'⟩
    rw [Linked.Written.notices, hvictims]
    simp

/-! ### Look-ups -/

/-- Twins find the same, and have used it. -/
theorem get? (h : Twins limit v w) (hnow : limit ≤ m.now) (k : TileKey) :
    (Linked.get? m k).Alike (Sharded.get? m k) v w fun found v' found' w' =>
      found' = found ∧ Twins (m.now + 1) v' w' := by
  have hsteps : (Linked.get? m k).Alike (Sharded.get? m k) v w fun found v' _ w' =>
      w'.ledger = v'.ledger.tracking ∧ w'.register = v'.register ∧ w'.store = w.store ∧
        v'.register = found.elim v.register fun e => v.register.touch e.seq m.now := by
    unfold Linked.get? Linked.find Sharded.get?
    simp only [bind_assoc]
    refine Mutation.alike_within_left (LinkedStore.use_meets h.left.valid k) trivial ?_
    rintro found s ⟨-, hfound, -⟩
    have hfound' : w.store.get? k = found := (congrFun h.tiles k).trans hfound.symm
    rw [Mutation.alike_get_right, hfound']
    rcases found with _ | e
    · simp only [pure_bind, Mutation.alike_modify_left, Mutation.alike_set_right]
      refine Mutation.alike_pure.2 ⟨?_, h.register, rfl, rfl⟩
      exact congrArg (·.count (.lookup false)) h.ledger
    · simp only [bind_assoc, pure_bind, Mutation.alike_modify_left, Mutation.alike_set_right]
      have htrack : w.ledger.trackRecency = true := by
        rw [h.ledger]
        rfl
      rw [htrack]
      refine Mutation.alike_pure.2 ⟨?_, ?_, rfl, rfl⟩
      · exact congrArg (·.count (.lookup true)) h.ledger
      · exact congrArg (Register.touch · e.seq m.now) h.register
  have hfinds : (Linked.get? m k).Meets v True _ := Linked.get?_meets m k h.left
  have hfinds' : (Sharded.get? m k).Meets w True _ := Sharded.get?_meets m k h.right
  refine (hsteps.and_meets hfinds hfinds').imp ?_
  rintro _ v' _ w' ⟨⟨hledger, hregister, hstore, htouched⟩, ⟨rfl, hkeeps, hentries⟩, rfl, hkeeps'⟩
  have htimed : v'.Timed (m.now + 1) :=
    h.timed.lookedUp h.left hnow hentries (by rw [hkeeps.ledger]) htouched
  exact ⟨by rw [h.tiles], hkeeps.sound, hkeeps'.sound, htimed, hstore ▸ h.single,
    hkeeps'.tiles.trans (h.tiles.trans hkeeps.tiles.symm), hledger, hregister⟩

/-! ### Removals -/

/-- Twins remove the same. -/
theorem remove (h : Twins limit v w) {image : ImageKey}
    (hi : ∀ e, v.tiles k = some e → e.image = image) :
    (Linked.remove k).Alike (Sharded.remove k image) v w fun answer v' answer' w' =>
      answer' = answer ∧ Twins limit v' w' := by
  have hsteps : (Linked.remove k).Alike (Sharded.remove k image) v w fun _ v' _ w' =>
      w'.store.shards.size = w.store.shards.size ∧ w'.register = v'.register ∧
        v'.register = v.register.markAll .removed (v.tiles k).toList := by
    unfold Linked.remove Sharded.remove
    refine Mutation.alike_within_left (LinkedStore.remove_meets h.left.valid k) trivial ?_
    rintro found s ⟨-, hfound, -⟩
    refine Mutation.alike_within_right (ShardedStore.take_meets w.store k) trivial ?_
    rintro found' _ ⟨hfound', rfl⟩
    obtain rfl : found' = found := hfound'.trans ((congrFun h.tiles k).trans hfound.symm)
    rw [show v.tiles k = found' from hfound.symm]
    rcases found' with _ | e
    · exact ⟨ShardedStore.size_editShard .., h.register, rfl⟩
    · have he : w.store.get? k = some e := hfound'.symm
      unfold Linked.discharge
      simp only [bind_assoc, pure_bind]
      refine Mutation.alike_within_right ((ShardedStore.strike_meets h.right.valid he
        (hi e hfound.symm)).and (ShardedStore.strike_shards _ _ _)) trivial ?_
      rintro _ t ⟨-, hshards⟩
      have hsize := (congrArg Array.size hshards).trans (ShardedStore.size_editShard ..)
      refine Vault.alike_account h.ledger fun l => ?_
      refine Mutation.alike_left (Vault.dismiss_marks _ _) trivial ?_
      rintro _ _ ⟨-, rfl⟩
      refine Mutation.alike_right (Vault.dismiss_marks _ _) trivial ?_
      rintro _ _ ⟨-, rfl⟩
      refine Mutation.alike_pure.2 ⟨hsize, ?_, rfl⟩
      exact congrArg (Register.markAll · .removed [e]) h.register
  refine (hsteps.and_meets (Linked.remove_meets k h.left)
    (Sharded.remove_meets h.right (h.tiles ▸ hi))).imp ?_
  rintro _ v' _ w' ⟨⟨hsize, hregister, hmarked⟩, ⟨rfl, hb, hentries⟩, rfl, hb'⟩
  rw [h.tiles] at hb'
  exact ⟨by rw [h.tiles], h.next hb hb' hsize hregister
    (h.timed.marked (hentries ▸ List.filter_sublist) hb.recharged hmarked)⟩

/-- Twins remove the same tiles of an image, each in its own order. -/
theorem removeImage (h : Twins limit v w) (image : Identity) :
    (Linked.removeImage image).Alike (Sharded.removeImage image) v w fun answer v' answer' w' =>
      (∃ es es', es'.Perm es ∧
        answer = (es.length, Notice.removed es ++ [.log (.imageRemoved image es.length)]) ∧
        answer' = (es'.length, Notice.removed es' ++ [.log (.imageRemoved image es'.length)])) ∧
      Twins limit v' w' := by
  let es := (Shelved.keysOf v.store (.of image)).filterMap v.tiles
  let es' := (Shelved.keysOf w.store (.of image)).filterMap w.tiles
  have hes : es'.Perm es := h.entriesOf_perm _
  have hcovers : w.ledger.Covers es' ↔ v.ledger.Covers es := by
    rw [h.ledger, Ledger.covers_tracking]
    exact ⟨fun hc => hc.perm hes, fun hc => hc.perm hes.symm⟩
  refine ((Mutation.alike_of_meets (Linked.removeImage_covers image h.left)
    (Sharded.removeImage_covers image h.right) hcovers).and_meets
    (Linked.removeImage_meets image h.left) (Sharded.removeImage_meets image h.right)).imp ?_
  rintro _ v' _ w' ⟨⟨⟨rfl, hmarked⟩, rfl, hsize, hmarked'⟩, ⟨_, -, hr, hleft⟩, _, -, hr'⟩
  have hb' := hr'.becomes
  rw [h.tiles, Tiles.dropAll_perm _ (h.keysOf_perm _)] at hb'
  refine ⟨⟨es, es', hes, rfl, rfl⟩, h.next hr.becomes hb' hsize ?_
    (h.timed.marked hleft hr.becomes.recharged hmarked)⟩
  rw [hmarked, hmarked', h.register]
  exact Register.markAll_perm _ _ hes

/-- Twins remove everything, each in its own order. -/
theorem flush (h : Twins limit v w) :
    Linked.flush.Alike Sharded.flush v w fun notices v' notices' w' =>
      (∃ es es', es'.Perm es ∧ notices = Notice.removed es ++ [.log (.flushed es.length)] ∧
        notices' = Notice.removed es' ++ [.log (.flushed es'.length)]) ∧ Twins limit v' w' := by
  have hcovers : w.ledger.Covers w.entries ↔ v.ledger.Covers v.entries := by
    rw [h.ledger, Ledger.covers_tracking]
    exact ⟨fun hc => hc.perm h.perm, fun hc => hc.perm h.perm.symm⟩
  refine ((Mutation.alike_of_meets (Linked.flush_covers v)
    (Sharded.flush_covers h.right h.single) hcovers).and_meets
    (Linked.flush_meets h.left) (Sharded.flush_meets h.right)).imp ?_
  rintro _ v' _ w' ⟨⟨⟨rfl, hmarked⟩, es', hes', rfl, hsize, hmarked'⟩, ⟨_, -, -, hb⟩, _, -, -, hb'⟩
  have hes := hes'.trans h.perm
  have hleft : v'.entries.Sublist v.entries := hb.entries_eq_nil ▸ List.nil_sublist _
  refine ⟨⟨_, es', hes, rfl, rfl⟩, h.next hb hb' (hsize.trans h.single.symm) ?_
    (h.timed.marked hleft hb.recharged hmarked)⟩
  rw [hmarked, hmarked', h.register]
  exact Register.markAll_perm _ _ hes

/-! ### The other requests -/

/-- A pass that spares nothing. -/
theorem relieve (h : Twins limit v w) (halive : ∀ e ∈ v.entries, m.alive e.owner)
    (hfew : v.ledger.target < v.ledger.memoryUsed →
      v.entries.length ≤ ShardedStore.sampleSize) :
    (Linked.relieve m).Alike (Sharded.relieve m) v w fun ns v' ns' w' =>
      Notice.unlogged ns' = Notice.unlogged ns ∧ Twins limit v' w' := by
  unfold Linked.relieve Sharded.relieve
  refine Mutation.alike_bind ((h.evict halive hfew).imp ?_)
  rintro pass v' pass' w' ⟨hvictims, h'⟩
  refine Mutation.alike_pure.2 ⟨?_, h'⟩
  rw [Vault.Pass.notices, Vault.Pass.notices, hvictims]
  simp

/-- Twins whose settings or counters change in the same way stay twins. -/
theorem retuned {l : Ledger} (h : Twins limit v w) (hl : v.ledger.Retuned l) :
    Twins limit { v with ledger := l } { w with ledger := l.tracking } := by
  have hl' : w.ledger.Retuned l.tracking := by
    rw [h.ledger, hl]
    rfl
  refine ⟨⟨h.left.valid, h.left.balanced.retuned hl⟩, ⟨h.right.valid, h.right.balanced.retuned hl'⟩,
    h.timed.left (.refl _) ?_ rfl fun _ _ => rfl, h.single, h.tiles, rfl, h.register⟩
  rw [hl]

end Twins

end TileStore
