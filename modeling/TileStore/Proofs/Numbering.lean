import TileStore.Proofs.Events
import TileStore.Proofs.Run

/-!
# Entries are numbered

Every entry has a number that no other has, and the ledger knows the next one: `Tiles.Serial`. A
request makes entries with the numbers that come next, and what a cache holds was there before or was
made just now, so the numbers stay apart. `Cache.Consistent` is what holds of a cache of one layout
whatever was asked of it, and `trail_consistent` says so for all instants of a run.
-/

namespace TileStore

variable {g g' : Tiles} {e : Entry} {next : Nat}

/-! ### Numbers -/

/-- What is found has different numbers, all below the next one. -/
structure Tiles.Serial (g : Tiles) (next : Nat) : Prop where
  lt : ∀ {k e}, g k = some e → e.seq < next
  inj : ∀ {j k e f}, g j = some e → g k = some f → e.seq = f.seq → e = f

theorem Tiles.serial_empty (next : Nat) : Serial (fun _ => none) next := ⟨nofun, nofun⟩

theorem Shelf.nodup_seq {es : List Entry} (h : Shelf g es) (hg : g.Serial next) :
    (es.map (·.seq)).Nodup :=
  h.nodup.map_on fun e he f hf => hg.inj ((h.mem e).1 he) ((h.mem f).1 hf)

theorem Vault.seq_madeFrom (owner : Owner) (overhead : UInt64) (seq : Nat)
    (tiles : List (Position × Payload × Option Binary64)) :
    (madeFrom owner overhead seq tiles).map (·.seq) = List.range' seq tiles.length := by
  induction tiles generalizing seq with
  | nil => rfl
  | cons t tiles ih => exact congrArg (seq :: ·) (ih (seq + 1))

/-- A request makes the entries whose turn it is. -/
theorem Request.seq_made (l : Ledger) (r : Request Owner Identity) :
    (r.made l).map (·.seq) = List.range' l.nextSeq (r.made l).length := by
  cases r with
  | addBatch owner points payloads costs =>
    rw [made, Vault.seq_madeFrom, Vault.length_madeFrom]
  | _ => rfl

/-- The numbers of what a request makes are the ones that come next. -/
theorem Request.seq_of_made {l : Ledger} {q : Request Owner Identity} {e : Entry}
    (he : e ∈ q.made l) : l.nextSeq ≤ e.seq ∧ e.seq < l.nextSeq + (q.made l).length := by
  have hseq := List.mem_map_of_mem (f := (·.seq)) he
  rwa [q.seq_made, List.mem_range'_1] at hseq

/-- What was there before, and entries that have the numbers that come next, have different numbers. -/
theorem Tiles.Serial.extend {made : List Entry} (h : g.Serial next)
    (hm : made.map (·.seq) = List.range' next made.length)
    (hfound : ∀ {k e}, g' k = some e → g k = some e ∨ e ∈ made) :
    g'.Serial (next + made.length) := by
  have hmade : ∀ {e}, e ∈ made → next ≤ e.seq ∧ e.seq < next + made.length := by
    intro e he
    have hseq := List.mem_map_of_mem (f := (·.seq)) he
    rwa [hm, List.mem_range'_1] at hseq
  have hnew : ∀ {e f}, e ∈ made → f ∈ made → e.seq = f.seq → e = f := fun he hf =>
    List.inj_on_of_nodup_map (hm ▸ List.nodup_range') he hf
  constructor
  · intro k e hk
    rcases hfound hk with hold | he
    · exact Nat.lt_add_right _ (h.lt hold)
    · exact (hmade he).2
  · intro j k e f hj hk heq
    rcases hfound hj with hold | he <;> rcases hfound hk with hold' | hf
    · exact h.inj hold hold' heq
    · have := h.lt hold
      have := (hmade hf).1
      omega
    · have := h.lt hold'
      have := (hmade he).1
      omega
    · exact hnew he hf heq

/-- A request keeps the numbers apart. -/
theorem Recorded.serial {l l' : Ledger} {made : List Entry} {on : Bool} {notices : List Notice}
    (h : Recorded g l made on notices g' l') (hg : g.Serial l.nextSeq)
    (hm : made.map (·.seq) = List.range' l.nextSeq made.length) : g'.Serial l'.nextSeq := by
  rw [h.nextSeq]
  exact hg.extend hm fun hk => h.written ▸ h.story.found hk

namespace Cache

variable {c c' : Cache} {m : Moment} {layout : Layout} {s : Settings} {observers : Nat}
  {q : Request Owner Identity} {x : Reply × List Notice}

/-! ### Layouts -/

theorem layout_byLayout {α : Type} {onLinked : Mutation Linked α} {onSharded : Mutation Sharded α}
    (c : Cache) : ((byLayout onLinked onSharded).result c).2.layout = c.layout := by
  cases c <;> rfl

@[simp] theorem layout_editLedger (c : Cache) (f : Ledger → Ledger) :
    (c.editLedger f).layout = c.layout := by cases c <;> rfl

/-- The cache keeps its layout. -/
def KeepsLayout {α : Type} (f : Mutation Cache α) : Prop :=
  ∀ c, f.Meets c False fun _ c' => c'.layout = c.layout

theorem keepsLayout_byLayout {α : Type} (onLinked : Mutation Linked α)
    (onSharded : Mutation Sharded α) : KeepsLayout (byLayout onLinked onSharded) := by
  intro c
  have hlayout : ((byLayout onLinked onSharded).result c).2.layout = c.layout := layout_byLayout c
  unfold Mutation.Meets
  rcases hx : (byLayout onLinked onSharded).result c with ⟨_ | a, c'⟩
  · exact id
  · rwa [hx] at hlayout

theorem keepsLayout_setCapacity (bytes : UInt64) : KeepsLayout (setCapacity m bytes) := by
  intro c
  unfold setCapacity
  rw [Mutation.meets_bind, Mutation.meets_get]
  rcases c.ledger.setCapacity bytes with r | l
  · exact rfl
  · have hlayout : (c.editLedger fun _ => l).layout = c.layout := layout_editLedger c _
    rw [Mutation.meets_bind, Mutation.meets_set]
    dsimp only
    split
    · exact Mutation.meets_bind.2 <| (keepsLayout_byLayout _ _ _).imp fun _ _ h => h.trans hlayout
    · exact hlayout

theorem keepsLayout_setThreshold (t : Binary64) : KeepsLayout (setThreshold t) := by
  intro c
  unfold setThreshold
  rw [Mutation.meets_bind, Mutation.meets_get]
  rcases c.ledger.setThreshold t with r | l
  · exact rfl
  · exact layout_editLedger c _

/-- No request changes the layout. -/
theorem keepsLayout_perform (q : Request Owner Identity) : KeepsLayout (q.perform m) := by
  intro c
  cases q with
  | add | get | getAll | remove | removeImage | flush | relieve =>
    exact Mutation.meets_bind.2 (keepsLayout_byLayout _ _ c)
  | addBatch owner points payloads costs =>
    refine Mutation.meets_map.2 ?_
    obtain ⟨r, -, hbatch⟩ | ⟨tiles, -, hbatch⟩ :=
      addBatch_eq m owner points payloads costs
    · rw [hbatch]
      exact rfl
    · rw [hbatch]
      exact Mutation.meets_map.2 (keepsLayout_byLayout _ _ c)
  | setCapacity bytes => exact Mutation.meets_map.2 (keepsLayout_setCapacity bytes c)
  | setThreshold t => exact Mutation.meets_map.2 (keepsLayout_setThreshold t c)
  | enable | disable | reset => exact layout_editLedger c _
  | tilesOf | contains | report | list => exact rfl

/-! ### What every cache keeps -/

/-- The cache is sound, has this layout, and numbers its entries. -/
structure Consistent (layout : Layout) (c : Cache) : Prop where
  sound : c.Sound
  layout_eq : c.layout = layout
  serial : Tiles.Serial c.get? c.ledger.nextSeq

/-- What a cache is like when it has been built. -/
theorem fresh_of_build (hb : build s observers = .ok c) :
    c.layout = s.layout ∧ c.ledger = .new s observers ∧ (c.get? = fun _ => none) ∧
      c.entries = [] := by
  have hsound := (start_of_build hb).1
  obtain ⟨-, rfl⟩ := eq_new_of_build hb
  unfold new at hsound ⊢
  cases hs : s.layout with
  | linked =>
    have hnone := LinkedStore.get?_clear {}
    simp only [hs] at hsound
    exact ⟨rfl, rfl, hnone, (hnone ▸ Vault.Sound.shelf hsound : Shelf _ _).eq_nil⟩
  | sharded =>
    have hnone := ShardedStore.get?_new s.shardCount
    simp only [hs] at hsound
    exact ⟨rfl, rfl, hnone, (hnone ▸ Vault.Sound.shelf hsound : Shelf _ _).eq_nil⟩

theorem consistent_of_build (hb : build s observers = .ok c) : c.Consistent s.layout := by
  obtain ⟨hlayout, -, hnone, -⟩ := fresh_of_build hb
  exact ⟨(start_of_build hb).1, hlayout, hnone ▸ Tiles.serial_empty _⟩

theorem Consistent.count (h : c.Consistent layout) (a : Happening) :
    (c.count a).Consistent layout where
  sound := h.sound.editLedger (retuned_count _ a)
  layout_eq := (layout_editLedger c _).trans h.layout_eq
  serial := by
    rw [Cache.count, get?_editLedger, ledger_editLedger]
    exact h.serial

theorem Consistent.perform (h : c.Consistent layout) (hr : (q.perform m).result c = (.ok x, c')) :
    c'.Consistent layout where
  sound := ((Request.perform_meets m q h.sound).of_ok hr).sound
  layout_eq := ((keepsLayout_perform q c).of_ok hr).trans h.layout_eq
  serial := ((Request.perform_recorded m q h.sound).of_ok hr).serial h.serial (q.seq_made _)

theorem Consistent.heeded {asked : Option (Request Owner Identity)} {notices : List Notice}
    (h : c.Consistent layout) (hheeds : c.Heeds m asked notices c') : c'.Consistent layout := by
  cases asked with
  | none => exact hheeds.2 ▸ h
  | some q => exact h.perform hheeds.choose_spec

end Cache

/-- A cache stays consistent all along. -/
theorem trail_consistent (layout : Layout) : Trail fun _ c => c.Consistent layout :=
  ⟨fun a h => h.count a, fun h hheeds => h.heeded hheeds⟩

end TileStore
