import TileStore.Proofs.Binary64
import TileStore.Proofs.Linked.Order
import TileStore.Proofs.Linked.Timing

/-!
# Where eviction passes start

A pass does not always start from a cache as a request leaves it. A request that caches tiles starts
passes half way: a linked cache after each entry that it writes, a sharded one after the last of a
batch. `Linked.Starts` and `Sharded.Starts` say from which states the passes of a request start, and
`Linked.exists_starts` and `Sharded.exists_starts` that there are no other passes: whatever a request
evicts goes in one of these. What a pass relies on holds in all such states: `Vault.Begins`. They are
sound, what is in them was there before or was made by the request, and their sums are exact as long as
there was room.

`Cache.ReachesUsing` is how a cache came about together with the entries that were used, in order. The
list of a linked cache is in the order of the last use of each entry, also where a pass starts half
way: `ReachesUsing.order`, `Linked.Starts.order`.
-/

namespace TileStore

open Vault

variable {m : Moment} {q : Request Owner Identity} {us used : List Entry} {e f : Entry}

/-! ### Entries -/

/-- An entry was made in the way in which all are made. -/
def Entry.Made (e : Entry) : Prop :=
  ∃ owner p payload cost overhead seq, e = .new owner p payload cost overhead seq

theorem Entry.made_new (owner : Owner) (p : Position) (payload : Payload) (cost : Option Binary64)
    (overhead : UInt64) (seq : Nat) : (new owner p payload cost overhead seq).Made :=
  ⟨owner, p, payload, cost, overhead, seq, rfl⟩

theorem Request.made_of_mem_made {l : Ledger} (h : e ∈ q.made l) : e.Made := by
  have hmadeFrom : ∀ {owner overhead seq tiles}, e ∈ madeFrom owner overhead seq tiles → e.Made := by
    intro owner overhead seq tiles he
    induction tiles generalizing seq with
    | nil => cases he
    | cons t tiles ih =>
      rcases List.mem_cons.1 he with rfl | he
      · exact Entry.made_new ..
      · exact ih he
  cases q with
  | add owner p payload cost => exact List.mem_singleton.1 h ▸ Entry.made_new ..
  | addBatch owner points payloads costs =>
    exact hmadeFrom h
  | _ => cases h

/-- What it costs to make a tile again, nothing if that is not known. -/
def Entry.worth (e : Entry) : ℚ := (e.cost.getD .zero).value

theorem Entry.Made.nonneg (h : e.Made) : (e.cost.getD .zero).isNegative = false := by
  obtain ⟨owner, p, payload, cost, overhead, seq, rfl⟩ := h
  exact isNegative_keptCost cost

/-- The costs of entries are in the order of their patterns. -/
theorem Entry.Made.worth_le_iff (he : e.Made) (hf : f.Made) :
    e.worth ≤ f.worth ↔ (e.cost.getD .zero).bits ≤ (f.cost.getD .zero).bits :=
  Binary64.value_le_value_iff he.nonneg hf.nonneg

/-! ### Uses -/

/-- How many uses there were up to the last one of an entry. -/
def lastUse (us : List Entry) (e : Entry) : Nat := us.length - us.reverse.idxOf e

theorem lastUse_le (us : List Entry) (e : Entry) : lastUse us e ≤ us.length := Nat.sub_le _ _

theorem lastUse_concat (us : List Entry) (e f : Entry) :
    lastUse (us ++ [e]) f = if f = e then us.length + 1 else lastUse us f := by
  rw [lastUse, lastUse, List.reverse_concat, List.length_append, List.length_singleton]
  by_cases hf : f = e
  · subst hf
    rw [List.idxOf_cons_self, if_pos rfl, Nat.sub_zero]
  · rw [List.idxOf_cons_ne _ (Ne.symm hf), if_neg hf, Nat.add_sub_add_right]

/-- Without repetitions, uses are in the order of the last one of each entry. -/
theorem pairwise_lastUse_dedup (us : List Entry) :
    us.dedup.Pairwise fun e f => lastUse us e < lastUse us f := by
  induction us using List.reverseRecOn with
  | nil => exact .nil
  | append_singleton us u ih =>
    rw [dedup_concat, List.pairwise_append]
    have hother : ∀ e ∈ us.dedup.filter (· ≠ u), lastUse (us ++ [u]) e = lastUse us e := by
      intro e he
      rw [lastUse_concat, if_neg (by simpa using (List.mem_filter.1 he).2)]
    refine ⟨(ih.filter _).imp_of_mem fun he hf hlt => ?_, List.pairwise_singleton _ _, ?_⟩
    · rwa [hother _ he, hother _ hf]
    · intro e he f hf
      obtain rfl := List.mem_singleton.1 hf
      rw [hother e he, lastUse_concat, if_pos rfl]
      exact Nat.lt_succ_of_le (lastUse_le us e)

/-! ### Histories -/

namespace Cache

variable {ok : Moment → Cache → Request Owner Identity → Prop} {c : Cache}

/-- The caches that can come about while every request is `ok`, with all that was used since they were
built, in order. -/
inductive ReachesUsing (ok : Moment → Cache → Request Owner Identity → Prop) :
    List Entry → Cache → Prop where
  | built {s : Settings} {observers : Nat} {c : Cache} :
    build s observers = .ok c → ReachesUsing ok [] c
  | performed {us : List Entry} {c c' : Cache} {m : Moment} {r : Request Owner Identity}
      {x : Reply × List Notice} : ReachesUsing ok us c → ok m c r →
    (r.perform m).result c = (.ok x, c') → ReachesUsing ok (us ++ c.uses r) c'
  | counted {us : List Entry} {c : Cache} (h : Happening) :
    ReachesUsing ok us c → ReachesUsing ok us (c.count h)

theorem ReachesUsing.reaches (h : ReachesUsing ok us c) : Reaches ok c := by
  induction h with
  | built hb => exact .built hb
  | performed _ hr hx ih => exact .performed ih hr hx
  | counted a _ ih => exact .counted a ih

/-- Every cache that can come about did so with some uses. -/
theorem Reaches.exists_using (h : Reaches ok c) : ∃ us, ReachesUsing ok us c := by
  induction h with
  | built hb => exact ⟨[], .built hb⟩
  | performed _ hr hx ih =>
    obtain ⟨us, hus⟩ := ih
    exact ⟨_, .performed hus hr hx⟩
  | counted a _ ih =>
    obtain ⟨us, hus⟩ := ih
    exact ⟨us, .counted a hus⟩

/-- With room for what it caches, a request is answered, and uses what it uses. -/
theorem ReachesUsing.next (h : ReachesUsing HasRoom us c) (hr : c.HasRoom m q) :
    ReachesUsing HasRoom (us ++ c.uses q) ((q.perform m).result c).2 := by
  obtain ⟨x, c', hx, -⟩ := h.reaches.answers hr
  rw [hx]
  exact .performed h hr hx

theorem Reaches.consistent (h : Reaches ok c) : ∃ layout, c.Consistent layout := by
  induction h with
  | built hb => exact ⟨_, consistent_of_build hb⟩
  | performed _ _ hx ih =>
    obtain ⟨layout, hc⟩ := ih
    exact ⟨layout, hc.perform hx⟩
  | counted a _ ih =>
    obtain ⟨layout, hc⟩ := ih
    exact ⟨layout, hc.count a⟩

/-- What is found in a cache was made in the way in which all entries are made. -/
theorem Reaches.made (h : Reaches ok c) {k : TileKey} (hk : c.get? k = some e) : e.Made := by
  induction h generalizing k with
  | built hb =>
    rw [(fresh_of_build hb).2.2.1] at hk
    cases hk
  | @performed c c' m r x hc _ hx ih =>
    have hrecorded := (Request.perform_recorded m r hc.sound).of_ok hx
    rcases hrecorded.story.found hk with hold | hnew
    · exact ih hold
    · exact Request.made_of_mem_made (hrecorded.written ▸ hnew)
  | counted a _ ih =>
    rw [Cache.count, get?_editLedger] at hk
    exact ih hk

/-- A linked cache lists its entries in the order of the last use of each. -/
theorem ReachesUsing.order (h : ReachesUsing ok us c) (hc : c.layout = .linked) :
    c.entries.Sublist us.dedup := by
  induction h with
  | built hb =>
    rw [(fresh_of_build hb).2.2.2]
    exact List.nil_sublist _
  | @performed us c c' m r x hus hr hx ih =>
    rw [(keepsLayout_perform r c).of_ok hx] at hc
    have hsound := hus.reaches.sound
    cases c with
    | sharded v => cases hc
    | linked v =>
      exact ((uses_meets r hsound).of_ok hx).trans (foldl_usedLast_sublist_dedup (ih rfl) _)
  | @counted us c a _ ih =>
    have hentries : (c.count a).entries = c.entries := by cases c <;> rfl
    rw [hentries]
    exact ih ((layout_editLedger c _).symm.trans hc)

end Cache

/-! ### Requests without passes -/

/-- Whether a request may start passes. -/
def Request.mayEvict {ο ι : Type} : Request ο ι → Bool
  | .add .. | .addBatch .. | .relieve | .setCapacity _ => true
  | _ => false

/-- The other requests evict nothing. -/
theorem Request.spares {c : Cache} (h : c.Sound) (hq : q.mayEvict = false) :
    (q.perform m).Meets c False fun x _ => Notice.victims x.2 = [] := by
  cases q with
  | add | addBatch | relieve | setCapacity => cases hq
  | get image p => exact Mutation.meets_bind.2 (Mutation.meets_of_forall fun _ _ _ => rfl)
  | getAll image points =>
    exact Mutation.meets_bind.2 (Mutation.meets_of_forall fun _ _ _ => rfl)
  | remove image p =>
    exact Mutation.meets_bind.2 ((Cache.remove_meets image p h).mono False.elim fun _ _ hx => hx.2.1)
  | removeImage image =>
    refine Mutation.meets_bind.2 ((Cache.removeImage_meets image h).mono False.elim ?_)
    rintro x c' ⟨es, -, -, hvictims, -⟩
    exact hvictims
  | flush => exact Mutation.meets_bind.2 ((Cache.flush_meets h).mono False.elim fun _ _ hx => hx.1)
  | setThreshold t =>
    refine Mutation.meets_map.2 ?_
    unfold Cache.setThreshold
    rw [Mutation.meets_bind, Mutation.meets_get]
    cases c.ledger.setThreshold t <;> rfl
  | tilesOf | contains | enable | disable | reset | report | list => rfl

/-! ### States that a pass starts from -/

/-- A state that a request came to from `v` before a pass: it is sound, what is in it was in `v` or was
made by the request, and if there was room the sums are exact. -/
structure Vault.Begins {σ : Type} [Shelved σ] (v : Vault σ) (made : List Entry) (room : Prop)
    (w : Vault σ) : Prop where
  sound : w.Sound
  found : ∀ {k e}, w.tiles k = some e → v.tiles k = some e ∨ e ∈ made
  fits : room → Fits w.entries 0

section Begins

variable {σ : Type} [Shelved σ] {v v₁ v' w : Vault σ} {made es : List Entry} {room : Prop} {n : Nat}

omit [Shelved σ] in
theorem Vault.numbered_of_newEntry {owner : Owner} {p : Position} {payload : Payload}
    {cost : Option Binary64} (h : (newEntry m owner p payload cost).result v = (.ok e, v₁)) :
    e = v.upcoming owner p payload cost ∧ v.Numbered 1 v₁ := by
  have hmeets : (newEntry m owner p payload cost).Meets v False _ := newEntry_meets ..
  exact hmeets.of_ok h

omit [Shelved σ] in
theorem Vault.numbered_of_newEntries {owner : Owner}
    {tiles : List (Position × Payload × Option Binary64)}
    (h : (tiles.mapM fun (p, payload, cost) => newEntry m owner p payload cost).result v =
      (.ok es, v₁)) :
    es = madeFrom owner v.ledger.overhead v.ledger.nextSeq tiles ∧ v.Numbered tiles.length v₁ := by
  have hmeets : (tiles.mapM fun (p, payload, cost) => newEntry m owner p payload cost).Meets v
    False _ := newEntries_meets ..
  exact hmeets.of_ok h

/-- The settings or the counters were changed. -/
theorem Vault.begins_retuned {l : Ledger} (hv : v.Sound) (hl : v.ledger.Retuned l) :
    v.Begins [] v.Exact { v with ledger := l } :=
  ⟨⟨hv.valid, hv.balanced.retuned hl⟩, .inl, fun hx => hx.fits⟩

/-- One entry is written. -/
theorem Vault.begins_put (hv : v.Sound) (he : e.Proper) (hb : v.Becomes (v.tiles.put e) w) :
    v.Begins [e] (v.Admits e) w where
  sound := hb.sound
  found {k f} hk := by
    rw [hb.tiles, Tiles.put] at hk
    split at hk
    · exact .inr (List.mem_singleton.2 (Option.some.inj hk).symm)
    · exact .inl hk
  fits ha := hb.fits_put hv he ha

/-- Where a pass starts, entries have different numbers. -/
theorem Vault.Begins.serial {l : Ledger} (h : v.Begins (q.made l) room w)
    (hv : v.tiles.Serial l.nextSeq) : w.tiles.Serial (l.nextSeq + (q.made l).length) :=
  hv.extend (q.seq_made l) h.found

/-- Where a pass starts, all entries were made in the way in which all are made. -/
theorem Vault.Begins.all_made {l : Ledger} (h : v.Begins (q.made l) room w)
    (hv : ∀ {k e}, v.tiles k = some e → e.Made) {k : TileKey} (hk : w.tiles k = some e) : e.Made :=
  (h.found hk).elim hv Request.made_of_mem_made

/-- What is found after some entries have been dealt with was there before or is one of them. -/
theorem Vault.found_of_series {β : Type} {R : Entry → Vault σ → β → Vault σ → Prop} {ys : List β}
    (h : Mutation.Series R es v ys v')
    (hR : ∀ {e w y w' k f}, R e w y w' → w'.tiles k = some f → w.tiles k = some f ∨ f = e)
    {k : TileKey} {f : Entry} (hk : v'.tiles k = some f) : v.tiles k = some f ∨ f ∈ es := by
  induction h with
  | nil => exact .inl hk
  | cons hy _ ih =>
    rcases ih hk with hfound | hmem
    · rcases hR hy hfound with hold | rfl
      · exact .inl hold
      · exact .inr List.mem_cons_self
    · exact .inr (List.mem_cons_of_mem _ hmem)

/-- What a write leaves was there, or was written. -/
theorem Vault.Writes.found {victims : List Entry} (h : v.Writes e victims v') {k : TileKey}
    {f : Entry} (hk : v'.tiles k = some f) : v.tiles k = some f ∨ f = e := by
  obtain ⟨v₁, hb, hr⟩ := h
  rw [(hr.becomes hb.sound).tiles, Tiles.dropAll] at hk
  split at hk
  · cases hk
  · rw [hb.tiles, Tiles.put] at hk
    split at hk
    · exact .inr (Option.some.inj hk).symm
    · exact .inl hk

omit [Shelved σ] in
/-- What is announced of a pass went in it. -/
theorem Vault.notices_evicts (pass : Mutation (Vault σ) Pass) (w : Vault σ) :
    (do return (← pass).notices : Mutation (Vault σ) (List Notice)).Meets w False fun notices _ =>
      ∀ e ∈ Notice.victims notices, ∃ p w', pass.result w = (.ok p, w') ∧ e ∈ p.victims := by
  rw [Mutation.meets_bind]
  refine Mutation.meets_of_forall fun p w' hp => ?_
  exact fun e he => ⟨p, w', hp, by simpa [Pass.notices] using he⟩

omit [Shelved σ] in
/-- What goes to restore the bound went in a pass, and was too much. -/
theorem Vault.restoring_evicts (pass : Mutation (Vault σ) Pass) (e : Entry) (w : Vault σ) :
    (do
      let v ← get
      if v.ledger.isOverCapacity then
        let p ← pass
        return { p with log := v.oversizeWarning e ++ p.log }
      else return {} : Mutation (Vault σ) Pass).Meets w False fun p _ => ∀ f ∈ p.victims,
        ∃ p w', w.ledger.isOverCapacity ∧ pass.result w = (.ok p, w') ∧ f ∈ p.victims := by
  rw [Mutation.meets_bind, Mutation.meets_get]
  split
  · next hover =>
    rw [Mutation.meets_bind]
    refine Mutation.meets_of_forall fun p w' hp => ?_
    exact fun f hf => ⟨p, w', hover, hp, hf⟩
  · exact fun e he => absurd he List.not_mem_nil

end Begins

/-! ### Linked caches -/

namespace Linked

variable {v w : Linked}

/-- A request starts a pass from `w` when it has used these entries. -/
inductive Starts (m : Moment) (v : Linked) :
    Request Owner Identity → List Entry → Linked → Prop where
  | relieve : Starts m v .relieve [] v
  /-- The capacity was lowered below what is in use. -/
  | setCapacity {bytes : UInt64} {l : Ledger} : v.ledger.setCapacity bytes = .ok l →
    l.isOverCapacity → Starts m v (.setCapacity bytes) [] { v with ledger := l }
  /-- A tile was cached that was too much. -/
  | add {owner : Owner} {p : Position} {payload : Payload} {cost : Option Binary64} {e : Entry}
      {replaced : Bool} {v₁ w : Linked} :
    (newEntry m owner p payload cost).result v = (.ok e, v₁) →
    (put e).result v₁ = (.ok replaced, w) → w.ledger.isOverCapacity →
    Starts m v (.add owner p payload cost) [e] w
  /-- A tile of a batch was cached that was too much, after others with their passes. -/
  | addBatch {owner : Owner} {points : List Position} {payloads : List Payload}
      {costs : Option (List Binary64)} {tiles : List (Position × Payload × Option Binary64)}
      {before after : List Entry} {e : Entry} {ws : List Written} {replaced : Bool}
      {v₁ v₂ w : Linked} :
    Aligned points payloads costs tiles →
    (tiles.mapM fun (p, payload, cost) => newEntry m owner p payload cost).result v =
      (.ok (before ++ e :: after), v₁) →
    (before.mapM (write m)).result v₁ = (.ok ws, v₂) →
    (put e).result v₂ = (.ok replaced, w) → w.ledger.isOverCapacity →
    Starts m v (.addBatch owner points payloads costs) (before ++ [e]) w

/-- What is known when the first entries of a batch have been written. -/
theorem batch_begins {owner : Owner} {tiles : List (Position × Payload × Option Binary64)}
    {before after : List Entry} {e : Entry} {ws : List Written} {v₁ v₂ : Linked} (hv : v.Sound)
    (hmake : (tiles.mapM fun (p, payload, cost) => newEntry m owner p payload cost).result v =
      (.ok (before ++ e :: after), v₁))
    (hwrites : (before.mapM (write m)).result v₁ = (.ok ws, v₂)) :
    before ++ e :: after = madeFrom owner v.ledger.overhead v.ledger.nextSeq tiles ∧
      v₁.store = v.store ∧
      Mutation.Series (WritesAs (v.Exact ∧ v.RoomForAll (write m) m owner tiles)) before v₁ ws v₂ ∧
      Writing (write m) (v.Exact ∧ v.RoomForAll (write m) m owner tiles) v.ledger.overhead
        (e :: after) v₂ := by
  obtain ⟨hmade, hn⟩ := numbered_of_newEntries hmake
  have hwriting : Writing (write m) (v.Exact ∧ v.RoomForAll (write m) m owner tiles)
      v.ledger.overhead (before ++ e :: after) v₁ := by
    rw [hmade]
    exact hn.writing hv (hmade ▸ hmake)
  exact ⟨hmade, hn.1, (writes_meets hwriting).of_ok hwrites⟩

theorem Starts.begins (hv : v.Sound) (h : Starts m v q used w) :
    v.Begins (q.made v.ledger) (v.Exact ∧ (Cache.linked v).HasRoom m q) w := by
  cases h with
  | relieve => exact ⟨hv, .inl, fun hs => hs.1.fits⟩
  | setCapacity hl =>
    have hb := begins_retuned hv (Ledger.retuned_of_setCapacity hl)
    exact ⟨hb.sound, hb.found, fun hs => hb.fits hs.1⟩
  | @add owner p payload cost e replaced v₁ w hmake hput =>
    obtain ⟨rfl, hn⟩ := numbered_of_newEntry hmake
    have hproper : (v.upcoming owner p payload cost).Proper := Entry.proper_new ..
    have hb := begins_put (hn.sound hv) hproper ((put_meets (hn.sound hv) hproper).of_ok hput).2.1
    refine ⟨hb.sound, fun hk => ?_, fun hs => hb.fits (hn.admits (hs.1.admits hs.2 rfl))⟩
    have hfound := hb.found hk
    rwa [tiles, hn.1] at hfound
  | @addBatch owner points payloads costs tiles before after e ws replaced v₁ v₂ w htiles hmake
      hwrites hput =>
    obtain ⟨hmade, hstore, hseries, hw⟩ := batch_begins hv hmake hwrites
    have hb := begins_put hw.sound hw.proper ((put_meets hw.sound hw.proper).of_ok hput).2.1
    rw [Request.made_of_aligned htiles, ← hmade]
    refine ⟨hb.sound, fun hk => ?_, fun hs => hb.fits (hw.admits ⟨hs.1, hs.2 tiles htiles⟩)⟩
    rcases hb.found hk with hold | hnew
    · have hfound := found_of_series hseries (fun hx => hx.writes.found) hold
      rw [Vault.tiles, hstore] at hfound
      exact hfound.imp_right (List.mem_append_left _)
    · rw [List.mem_singleton.1 hnew]
      exact .inr (List.mem_append_right _ List.mem_cons_self)

/-- The entries used so far are the first of those that the request uses. -/
theorem Starts.used_prefix (hv : v.Sound) (h : Starts m v q used w) :
    used <+: (Cache.linked v).uses q := by
  cases h with
  | relieve | setCapacity => exact List.nil_prefix
  | add hmake =>
    obtain ⟨rfl, -⟩ := numbered_of_newEntry hmake
    exact List.prefix_rfl
  | @addBatch owner points payloads costs tiles before after e ws replaced v₁ v₂ w htiles hmake
      hwrites =>
    have huses : (Cache.linked v).uses (.addBatch owner points payloads costs) =
        before ++ e :: after :=
      (Request.made_of_aligned htiles _).trans (batch_begins hv hmake hwrites).1.symm
    rw [huses]
    exact (List.prefix_append_right_inj before).2 ⟨after, rfl⟩

/-- Where a pass starts, the list is in the order of the last uses. -/
theorem Starts.order (hv : v.Sound) (h : Starts m v q used w) :
    w.entries.Sublist (used.foldl usedLast v.entries) := by
  cases h with
  | relieve | setCapacity => exact .refl _
  | add hmake hput =>
    obtain ⟨rfl, hn⟩ := numbered_of_newEntry hmake
    have hput := (put_meets (hn.sound hv) (Entry.proper_new ..)).of_ok hput
    rw [hput.2.2, hn.entries_eq]
    exact .refl _
  | @addBatch owner points payloads costs tiles before after e ws replaced v₁ v₂ w htiles hmake
      hwrites hput =>
    obtain ⟨-, hstore, hseries, hw⟩ := batch_begins hv hmake hwrites
    have hentries : v₁.entries = v.entries := congrArg Shelved.entries hstore
    have horder := order_writes hseries
    rw [hentries] at horder
    rw [((put_meets hw.sound hw.proper).of_ok hput).2.2, List.foldl_append]
    exact usedLast_sublist horder e

/-- What goes when an entry is written goes in a pass after it was put. -/
theorem write_evicts (m : Moment) (e : Entry) (v : Linked) :
    (write m e).Meets v False fun x _ => ∀ f ∈ x.pass.victims, ∃ replaced w pass w',
      (put e).result v = (.ok replaced, w) ∧ w.ledger.isOverCapacity ∧
        (evict m (some e.key)).result w = (.ok pass, w') ∧ f ∈ pass.victims := by
  rw [write_eq, Mutation.meets_bind]
  refine Mutation.meets_of_forall fun replaced w hput => ?_
  rw [Mutation.meets_bind]
  refine (restoring_evicts (evict m (some e.key)) e w).imp fun _ _ hevicts f hf => ?_
  obtain ⟨pass, w', hover, hpass, hf⟩ := hevicts f hf
  exact ⟨replaced, w, pass, w', hput, hover, hpass, hf⟩

/-- Whatever a request evicts goes in a pass from such a state. -/
theorem exists_starts (m : Moment) (q : Request Owner Identity) (hv : v.Sound) :
    (q.perform m).Meets (.linked v) False fun x _ => ∀ e ∈ Notice.victims x.2,
      ∃ used w protect pass w', Starts m v q used w ∧
        (evict m protect).result w = (.ok pass, w') ∧ e ∈ pass.victims := by
  by_cases hq : q.mayEvict = false
  · refine (Request.spares (c := .linked v) hv hq).imp fun x _ hx e he => ?_
    rw [hx] at he
    cases he
  cases q with
  | add owner p payload cost =>
    refine Mutation.meets_bind.2 (Cache.meets_byLayout_linked.2 ?_)
    unfold add
    rw [Mutation.meets_bind]
    refine Mutation.meets_of_forall fun e v₁ hmake => ?_
    rw [Mutation.meets_bind]
    refine (write_evicts m e v₁).imp fun x _ hx f hf => ?_
    obtain ⟨replaced, w, pass, w', hput, hover, hpass, hf⟩ := hx f (by
      simpa [Written.notices] using hf)
    exact ⟨[e], w, _, pass, w', .add hmake hput hover, hpass, hf⟩
  | addBatch owner points payloads costs =>
    refine Mutation.meets_map.2 ?_
    obtain ⟨r, -, hbatch⟩ | ⟨tiles, htiles, hbatch⟩ :=
      Cache.addBatch_eq m owner points payloads costs
    · rw [hbatch]
      exact fun e he => absurd he List.not_mem_nil
    · rw [hbatch]
      refine Mutation.meets_map.2 (Cache.meets_byLayout_linked.2 ?_)
      unfold addBatch
      rw [Mutation.meets_bind]
      refine Mutation.meets_of_forall fun es v₁ hmake => ?_
      rw [Mutation.meets_bind]
      refine (Mutation.mapM_splits (write m) es v₁).imp fun xs _ hxs f hf => ?_
      obtain ⟨x, hx, hf⟩ : ∃ x ∈ xs, f ∈ x.pass.victims := by
        simpa [Request.answer, Notice.victims_flatMap, Written.notices] using hf
      obtain ⟨before, e, after, ws, v₂, _, rfl, hwrites, hwrite⟩ := hxs x hx
      have hevicts : (write m e).Meets v₂ False _ := write_evicts m e v₂
      obtain ⟨replaced, w, pass, w', hput, hover, hpass, hf⟩ := hevicts.of_ok hwrite f hf
      exact ⟨_, w, _, pass, w', .addBatch htiles hmake hwrites hput hover, hpass, hf⟩
  | relieve =>
    refine Mutation.meets_bind.2 (Cache.meets_byLayout_linked.2 ?_)
    refine (notices_evicts (evict m none) v).imp fun notices _ hx e he => ?_
    obtain ⟨pass, w', hpass, he⟩ := hx e he
    exact ⟨[], v, none, pass, w', .relieve, hpass, he⟩
  | setCapacity bytes =>
    refine Mutation.meets_map.2 (Mutation.meets_bind.2 (Mutation.meets_get.2 ?_))
    cases hl : (Cache.linked v).ledger.setCapacity bytes with
    | error r => exact fun e he => absurd he List.not_mem_nil
    | ok l =>
      refine Mutation.meets_bind.2 (Mutation.meets_set.2 ?_)
      dsimp only
      split
      · next hover =>
        refine Mutation.meets_bind.2 (Cache.meets_byLayout_linked.2 ?_)
        refine (notices_evicts (evict m none) _).imp fun notices _ hx e he => ?_
        obtain ⟨pass, w', hpass, he⟩ := hx e he
        exact ⟨[], _, none, pass, w', .setCapacity hl hover, hpass, he⟩
      · exact fun e he => absurd he List.not_mem_nil
  | _ => exact absurd rfl hq

end Linked

/-! ### Sharded caches -/

namespace Sharded

variable {v w : Sharded}

/-- A request starts a pass from `w`. -/
inductive Starts (m : Moment) (v : Sharded) : Request Owner Identity → Sharded → Prop where
  | relieve : Starts m v .relieve v
  /-- The capacity was lowered below what is in use. -/
  | setCapacity {bytes : UInt64} {l : Ledger} : v.ledger.setCapacity bytes = .ok l →
    l.isOverCapacity → Starts m v (.setCapacity bytes) { v with ledger := l }
  /-- A tile was cached that was too much. -/
  | add {owner : Owner} {p : Position} {payload : Payload} {cost : Option Binary64} {e : Entry}
      {replaced : Bool} {v₁ w : Sharded} :
    (newEntry m owner p payload cost).result v = (.ok e, v₁) →
    (write e).result v₁ = (.ok replaced, w) → w.ledger.isOverCapacity →
    Starts m v (.add owner p payload cost) w
  /-- All tiles of a batch were cached, which was too much. -/
  | addBatch {owner : Owner} {points : List Position} {payloads : List Payload}
      {costs : Option (List Binary64)} {tiles : List (Position × Payload × Option Binary64)}
      {es : List Entry} {ws : List (Entry × Bool)} {v₁ w : Sharded} :
    Aligned points payloads costs tiles →
    (tiles.mapM fun (p, payload, cost) => newEntry m owner p payload cost).result v =
      (.ok es, v₁) →
    es ≠ [] → (es.mapM fun e => return (e, ← write e)).result v₁ = (.ok ws, w) →
    w.ledger.isOverCapacity → Starts m v (.addBatch owner points payloads costs) w

theorem Starts.begins (hv : v.Sound) (h : Starts m v q w) :
    v.Begins (q.made v.ledger) (v.Exact ∧ (Cache.sharded v).HasRoom m q) w := by
  cases h with
  | relieve => exact ⟨hv, .inl, fun hs => hs.1.fits⟩
  | setCapacity hl =>
    have hb := begins_retuned hv (Ledger.retuned_of_setCapacity hl)
    exact ⟨hb.sound, hb.found, fun hs => hb.fits hs.1⟩
  | @add owner p payload cost e replaced v₁ w hmake hwrite =>
    obtain ⟨rfl, hn⟩ := numbered_of_newEntry hmake
    have hproper : (v.upcoming owner p payload cost).Proper := Entry.proper_new ..
    have hb := begins_put (hn.sound hv) hproper ((write_meets (hn.sound hv) hproper).of_ok hwrite).2
    refine ⟨hb.sound, fun hk => ?_, fun hs => hb.fits (hn.admits (hs.1.admits hs.2 rfl))⟩
    have hfound := hb.found hk
    rwa [tiles, hn.1] at hfound
  | @addBatch owner points payloads costs tiles es ws v₁ w htiles hmake hne hwrites =>
    obtain ⟨rfl, hn⟩ := numbered_of_newEntries hmake
    obtain ⟨hseries, hsound, hexact⟩ := (writes_meets (hn.writing hv hmake)).of_ok hwrites
    rw [Request.made_of_aligned htiles]
    refine ⟨hsound, fun hk => ?_, fun hs => (hexact ⟨hs.1, hs.2 tiles htiles⟩).fits⟩
    have hfound := found_of_series hseries (fun hx hk => ?_) hk
    · rwa [Vault.tiles, hn.1] at hfound
    · rw [hx.becomes.tiles, Tiles.put] at hk
      split at hk
      · exact .inr (Option.some.inj hk).symm
      · exact .inl hk

/-- Whatever a request evicts goes in a pass from such a state. -/
theorem exists_starts (m : Moment) (q : Request Owner Identity) (hv : v.Sound) :
    (q.perform m).Meets (.sharded v) False fun x _ => ∀ e ∈ Notice.victims x.2,
      ∃ w protect pass w', Starts m v q w ∧
        (evict m protect).result w = (.ok pass, w') ∧ e ∈ pass.victims := by
  by_cases hq : q.mayEvict = false
  · refine (Request.spares (c := .sharded v) hv hq).imp fun x _ hx e he => ?_
    rw [hx] at he
    cases he
  cases q with
  | add owner p payload cost =>
    refine Mutation.meets_bind.2 (Cache.meets_byLayout_sharded.2 ?_)
    unfold add
    rw [Mutation.meets_bind]
    refine Mutation.meets_of_forall fun e v₁ hmake => ?_
    rw [Mutation.meets_bind]
    refine Mutation.meets_of_forall fun replaced w hwrite => ?_
    rw [Mutation.meets_bind]
    refine (restoring_evicts (evict m (some e.key)) e w).imp fun pass _ hevicts f hf => ?_
    obtain ⟨pass, w', hover, hpass, hf⟩ := hevicts f (by simpa using hf)
    exact ⟨w, _, pass, w', .add hmake hwrite hover, hpass, hf⟩
  | addBatch owner points payloads costs =>
    refine Mutation.meets_map.2 ?_
    obtain ⟨r, -, hbatch⟩ | ⟨tiles, htiles, hbatch⟩ :=
      Cache.addBatch_eq m owner points payloads costs
    · rw [hbatch]
      exact fun e he => absurd he List.not_mem_nil
    · rw [hbatch]
      refine Mutation.meets_map.2 (Cache.meets_byLayout_sharded.2 ?_)
      unfold addBatch
      rw [Mutation.meets_bind]
      refine Mutation.meets_of_forall fun es v₁ hmake => ?_
      cases hlast : es.getLast? with
      | none => exact fun e he => absurd he List.not_mem_nil
      | some last =>
        have hne : es ≠ [] := by
          rintro rfl
          cases hlast
        dsimp only
        rw [Mutation.meets_bind]
        refine Mutation.meets_of_forall fun ws w hwrites => ?_
        rw [Mutation.meets_bind]
        refine (restoring_evicts (evict m (some last.key)) last w).imp fun pass _ hevicts f hf => ?_
        obtain ⟨pass, w', hover, hpass, hf⟩ := hevicts f (by
          simpa [Request.answer, Notice.victims_flatMap] using hf)
        exact ⟨w, _, pass, w', .addBatch htiles hmake hne hwrites hover, hpass, hf⟩
  | relieve =>
    refine Mutation.meets_bind.2 (Cache.meets_byLayout_sharded.2 ?_)
    refine (notices_evicts (evict m none) v).imp fun notices _ hx e he => ?_
    obtain ⟨pass, w', hpass, he⟩ := hx e he
    exact ⟨v, none, pass, w', .relieve, hpass, he⟩
  | setCapacity bytes =>
    refine Mutation.meets_map.2 (Mutation.meets_bind.2 (Mutation.meets_get.2 ?_))
    cases hl : (Cache.sharded v).ledger.setCapacity bytes with
    | error r => exact fun e he => absurd he List.not_mem_nil
    | ok l =>
      refine Mutation.meets_bind.2 (Mutation.meets_set.2 ?_)
      dsimp only
      split
      · next hover =>
        refine Mutation.meets_bind.2 (Cache.meets_byLayout_sharded.2 ?_)
        refine (notices_evicts (evict m none) _).imp fun notices _ hx e he => ?_
        obtain ⟨pass, w', hpass, he⟩ := hx e he
        exact ⟨_, none, pass, w', .setCapacity hl hover, hpass, he⟩
      · exact fun e he => absurd he List.not_mem_nil
  | _ => exact absurd rfl hq

end Sharded

end TileStore
