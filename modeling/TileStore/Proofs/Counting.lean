import TileStore.Proofs.EventLog
import TileStore.Proofs.Watched

/-!
# What a request counts

Counters are words and happenings come in lists, some of them many at a time. `Counts` are plain numbers,
and `Counters.plus` says what it means to count so many. A request announces what became of entries and
counts just that, whatever its notices look like: `Notice.Announces`. A look-up counts whether it found
something, and it does so at once: `Request.perform_counters`.
-/

namespace TileStore

/-- How often things happened. -/
@[ext]
structure Counts where
  hits : Nat := 0
  misses : Nat := 0
  inserts : Nat := 0
  updates : Nat := 0
  removals : Nat := 0
  evictions : Nat := 0
deriving DecidableEq

/-- How often a happening is one of each kind. -/
def Happening.counts : Happening → Counts
  | lookup true => { hits := 1 }
  | lookup false => { misses := 1 }
  | write true => { updates := 1 }
  | write false => { inserts := 1 }
  | removals n => { removals := n.toNat }
  | evictions n => { evictions := n.toNat }

namespace Counts

instance : Add Counts where
  add m n := {
    hits := m.hits + n.hits
    misses := m.misses + n.misses
    inserts := m.inserts + n.inserts
    updates := m.updates + n.updates
    removals := m.removals + n.removals
    evictions := m.evictions + n.evictions }

/-- Look-ups that found something or not. -/
def ofLookups (found : List Bool) : Counts where
  hits := found.count true
  misses := found.count false

/-- What happened to entries. -/
def ofEvents (xs : List Event) : Counts where
  inserts := (xs.map (·.2)).count .added
  updates := (xs.map (·.2)).count .updated
  removals := (xs.map (·.2)).count .removed
  evictions := (xs.map (·.2)).count .evicted

/-- How much happened. -/
def total (n : Counts) : Nat :=
  n.hits + n.misses + n.inserts + n.updates + n.removals + n.evictions

theorem add_comm (m n : Counts) : m + n = n + m :=
  Counts.ext (Nat.add_comm _ _) (Nat.add_comm _ _) (Nat.add_comm _ _) (Nat.add_comm _ _)
    (Nat.add_comm _ _) (Nat.add_comm _ _)

theorem add_assoc (l m n : Counts) : l + m + n = l + (m + n) :=
  Counts.ext (Nat.add_assoc _ _ _) (Nat.add_assoc _ _ _) (Nat.add_assoc _ _ _) (Nat.add_assoc _ _ _)
    (Nat.add_assoc _ _ _) (Nat.add_assoc _ _ _)

theorem zero_add (n : Counts) : {} + n = n :=
  Counts.ext (Nat.zero_add _) (Nat.zero_add _) (Nat.zero_add _) (Nat.zero_add _) (Nat.zero_add _)
    (Nat.zero_add _)

theorem add_zero (n : Counts) : n + {} = n := (add_comm n {}).trans (zero_add n)

theorem add_shuffle (k l m n o : Counts) : k + (l + m) + (n + o) = k + (l + n + (m + o)) := by
  have h : ∀ a b c d e : Nat, a + (b + c) + (d + e) = a + (b + d + (c + e)) := by omega
  exact Counts.ext (h ..) (h ..) (h ..) (h ..) (h ..) (h ..)

/-- Look-ups are counted apart from what becomes of entries. -/
theorem ofLookups_add (found : List Bool) (n : Counts) : ofLookups found + n =
    { n with hits := found.count true + n.hits, misses := found.count false + n.misses } :=
  Counts.ext rfl rfl (Nat.zero_add _) (Nat.zero_add _) (Nat.zero_add _) (Nat.zero_add _)

theorem ofLookups_append (xs ys : List Bool) :
    ofLookups (xs ++ ys) = ofLookups xs + ofLookups ys :=
  congrArg₂ (fun h m => ({ hits := h, misses := m } : Counts)) List.count_append List.count_append

theorem ofEvents_append (xs ys : List Event) :
    ofEvents (xs ++ ys) = ofEvents xs + ofEvents ys := by
  simp only [ofEvents, List.map_append, List.count_append]
  rfl

end Counts

namespace Counters

/-- The counters after so much happened, if counting is enabled. -/
def plus (c : Counters) (n : Counts) : Counters :=
  if c.enabled then { c with
    hits := c.hits + .ofNat n.hits
    misses := c.misses + .ofNat n.misses
    inserts := c.inserts + .ofNat n.inserts
    updates := c.updates + .ofNat n.updates
    removals := c.removals + .ofNat n.removals
    evictions := c.evictions + .ofNat n.evictions }
  else c

theorem plus_of_disabled {c : Counters} (h : c.enabled = false) (n : Counts) : c.plus n = c := by
  simp [plus, h]

@[simp] theorem enabled_plus (c : Counters) (n : Counts) : (c.plus n).enabled = c.enabled := by
  unfold plus
  split <;> rfl

@[simp] theorem plus_zero (c : Counters) : c.plus {} = c := by simp [plus]

theorem plus_add (c : Counters) (m n : Counts) : c.plus (m + n) = (c.plus m).plus n := by
  rcases h : c.enabled with _ | _
  · rw [plus_of_disabled h, plus_of_disabled h, plus_of_disabled h]
  · have hadd : (m + n : Counts) = ⟨m.hits + n.hits, m.misses + n.misses, m.inserts + n.inserts,
        m.updates + n.updates, m.removals + n.removals, m.evictions + n.evictions⟩ := rfl
    simp [plus, h, hadd, UInt64.ofNat_add, UInt64.add_assoc]

theorem count_lookup (c : Counters) (found : Bool) :
    c.count (.lookup found) = c.plus (.ofLookups [found]) := by
  cases found <;> rcases h : c.enabled with _ | _ <;> simp [count, plus, h, Counts.ofLookups]

theorem count_write (c : Counters) (e : Entry) (replaced : Bool) :
    c.count (.write replaced) = c.plus (.ofEvents [(e, .ofWrite replaced)]) := by
  cases replaced <;> rcases h : c.enabled with _ | _ <;>
    simp [count, plus, h, Counts.ofEvents, Action.ofWrite]

theorem count_gone (c : Counters) (es : List Entry) :
    c.count (.removals (.ofNat es.length)) = c.plus (.ofEvents (es.map (·, .removed))) ∧
      c.count (.evictions (.ofNat es.length)) = c.plus (.ofEvents (es.map (·, .evicted))) := by
  rcases h : c.enabled with _ | _ <;>
    simp [count, plus, h, Counts.ofEvents, List.count_replicate, Function.comp_def, List.map_const']

theorem foldl_lookups (c : Counters) (found : List Bool) :
    (found.map .lookup).foldl count c = c.plus (.ofLookups found) := by
  induction found generalizing c with
  | nil => exact (plus_zero c).symm
  | cons x xs ih =>
    rw [List.map_cons, List.foldl_cons, ih, count_lookup, ← plus_add, ← Counts.ofLookups_append]
    rfl

theorem count_eq_plus (c : Counters) (x : Happening) : c.count x = c.plus x.counts := by
  rcases h : c.enabled with _ | _
  · simp [count, plus, h]
  · rcases x with (_ | _) | (_ | _) | n | n <;> simp [count, plus, h, Happening.counts]

/-- It does not matter what is counted first. -/
theorem foldl_count_plus (c : Counters) (hs : List Happening) (n : Counts) :
    hs.foldl count (c.plus n) = (hs.foldl count c).plus n := by
  induction hs generalizing c with
  | nil => rfl
  | cons h hs ih =>
    have hcomm : (c.plus n).count h = (c.count h).plus n := by
      rw [count_eq_plus, count_eq_plus, ← plus_add, ← plus_add, Counts.add_comm]
    rw [List.foldl_cons, List.foldl_cons, hcomm, ih]

end Counters

/-! ### Notices -/

/-- The notices announce writes, and entries that went in this way, and count just these. -/
inductive Notice.Announces (gone : Action) : List Notice → Prop where
  | nil : Announces gone []
  | log (line : LogLine) {ns : List Notice} : Announces gone ns → Announces gone (.log line :: ns)
  | written (e : Entry) (replaced : Bool) {ns : List Notice} :
    Announces gone ns → Announces gone (written e replaced ++ ns)
  | evicted (es : List Entry) {ns : List Notice} :
    gone = .evicted → Announces gone ns → Announces gone (evicted es ++ ns)
  | removed (es : List Entry) {ns : List Notice} :
    gone = .removed → Announces gone ns → Announces gone (removed es ++ ns)

namespace Notice.Announces

variable {gone : Action} {ns ms : List Notice}

theorem append (h : Announces gone ns) (h' : Announces gone ms) : Announces gone (ns ++ ms) := by
  induction h with
  | nil => exact h'
  | log line _ ih => exact .log line ih
  | written e replaced _ ih =>
    rw [List.append_assoc]
    exact .written e replaced ih
  | evicted es hg _ ih =>
    rw [List.append_assoc]
    exact .evicted es hg ih
  | removed es hg _ ih =>
    rw [List.append_assoc]
    exact .removed es hg ih

theorem of_evicted (es : List Entry) : Announces .evicted (Notice.evicted es) := by
  rw [← List.append_nil (Notice.evicted es)]
  exact .evicted es rfl .nil

theorem of_removed (es : List Entry) : Announces .removed (Notice.removed es) := by
  rw [← List.append_nil (Notice.removed es)]
  exact .removed es rfl .nil

theorem logs (lines : List LogLine) (h : Announces gone ns) :
    Announces gone (lines.map .log ++ ns) := by
  induction lines with
  | nil => exact h
  | cons line lines ih => exact .log line ih

theorem flatMap {α : Type} {f : α → List Notice} (xs : List α) (h : ∀ x, Announces gone (f x)) :
    Announces gone (xs.flatMap f) := by
  induction xs with
  | nil => exact .nil
  | cons x xs ih => exact (h x).append ih

/-- What is counted is what is told. -/
theorem foldl_count (h : Announces gone ns) (c : Counters) :
    (counted ns).foldl Counters.count c = c.plus (.ofEvents (told ns)) := by
  induction h generalizing c with
  | nil => exact (c.plus_zero).symm
  | log line _ ih => exact ih c
  | @written e replaced ns _ ih =>
    rw [told_append, Counts.ofEvents_append, Counters.plus_add, told_written, ← Counters.count_write]
    exact ih _
  | @evicted es ns _ _ ih =>
    have hcounted : counted (Notice.evicted es ++ ns) = .evictions (.ofNat es.length) :: counted ns := by
      simp [counted, Notice.evicted, List.filterMap_append, List.filterMap_map]
    rw [told_append, Counts.ofEvents_append, Counters.plus_add, told_evicted,
      ← (Counters.count_gone c es).2, hcounted]
    exact ih _
  | @removed es ns _ _ ih =>
    have hcounted : counted (Notice.removed es ++ ns) = .removals (.ofNat es.length) :: counted ns := by
      simp [counted, Notice.removed, List.filterMap_append, List.filterMap_map]
    rw [told_append, Counts.ofEvents_append, Counters.plus_add, told_removed,
      ← (Counters.count_gone c es).1, hcounted]
    exact ih _

/-- Entries that went did so in this way. -/
theorem of_mem_told (h : Announces gone ns) {x : Event} (hx : x ∈ told ns) :
    x.2.isWrite = true ∨ x.2 = gone := by
  induction h with
  | nil => exact absurd hx List.not_mem_nil
  | log line _ ih => exact ih hx
  | written e replaced _ ih =>
    rw [told_append, told_written, List.mem_append, List.mem_singleton] at hx
    rcases hx with rfl | hx
    · exact .inl (Action.isWrite_ofWrite replaced)
    · exact ih hx
  | evicted es hg _ ih =>
    rw [told_append, told_evicted, List.mem_append, List.mem_map] at hx
    rcases hx with ⟨e, -, rfl⟩ | hx
    · exact .inr hg.symm
    · exact ih hx
  | removed es hg _ ih =>
    rw [told_append, told_removed, List.mem_append, List.mem_map] at hx
    rcases hx with ⟨e, -, rfl⟩ | hx
    · exact .inr hg.symm
    · exact ih hx

end Notice.Announces

/-! ### What requests announce -/

open Mutation (meets_bind meets_map meets_pure meets_get meets_any)

/-- The notices of a pass announce its victims. -/
theorem Vault.Pass.announces (p : Vault.Pass) : Notice.Announces .evicted p.notices :=
  (Notice.Announces.of_evicted p.victims).logs p.log

theorem Vault.dismiss_announces {σ : Type} (es : List Entry) (v : Vault σ) :
    (Vault.dismiss es).Meets v False fun notices _ => Notice.Announces .removed notices :=
  meets_bind.2 <| (meets_any _ v).imp fun _ _ _ => .of_removed es

namespace Linked

variable {v : Linked} {m : Moment}

theorem Written.announces (w : Written) : Notice.Announces .evicted w.notices :=
  .written w.entry w.replaced (.of_evicted w.pass.victims)

theorem add_announces (owner : Owner) (p : Position) (payload : Payload) (cost : Option Binary64) :
    (add m owner p payload cost).Meets v False fun ns _ => Notice.Announces .evicted ns :=
  meets_bind.2 <| (meets_any _ v).imp fun _ v₁ _ => meets_bind.2 <|
    (meets_any _ v₁).imp fun w _ _ => w.announces.logs _

theorem addBatch_announces (owner : Owner) (tiles : List (Position × Payload × Option Binary64)) :
    (addBatch m owner tiles).Meets v False fun ns _ => Notice.Announces .evicted ns :=
  meets_bind.2 <| (meets_any _ v).imp fun _ v₁ _ => meets_bind.2 <|
    (meets_any _ v₁).imp fun ws _ _ => (Notice.Announces.flatMap ws Written.announces).logs _

theorem remove_announces (k : TileKey) :
    (remove k).Meets v False fun x _ => Notice.Announces .removed x.2 := by
  refine meets_bind.2 <| (meets_any _ v).imp fun found v₁ _ => ?_
  cases found with
  | none => exact .nil
  | some e =>
    exact meets_bind.2 <| (meets_any _ v₁).imp fun e v₂ _ => meets_bind.2 <|
      (Vault.dismiss_announces [e] v₂).imp fun _ _ h => h

theorem removeImage_announces (image : Identity) :
    (removeImage image).Meets v False fun x _ => Notice.Announces .removed x.2 := by
  refine meets_bind.2 <| meets_get.2 <| meets_bind.2 <| (meets_any _ v).imp fun es v₁ _ => ?_
  exact meets_bind.2 <| (Vault.dismiss_announces es v₁).imp fun _ _ h => h.append (.log _ .nil)

theorem flush_announces :
    flush.Meets v False fun ns _ => Notice.Announces .removed ns := by
  refine meets_bind.2 <| meets_get.2 <| meets_bind.2 <| (meets_any _ v).imp fun _ v₁ _ => ?_
  refine meets_bind.2 <| (meets_any _ v₁).imp fun _ v₂ _ => ?_
  exact meets_bind.2 <| (Vault.dismiss_announces _ v₂).imp fun _ _ h => h.append (.log _ .nil)

theorem relieve_announces :
    (relieve m).Meets v False fun ns _ => Notice.Announces .evicted ns :=
  meets_bind.2 <| (meets_any _ v).imp fun pass _ _ => pass.announces

end Linked

namespace Sharded

variable {v : Sharded} {m : Moment}

theorem add_announces (owner : Owner) (p : Position) (payload : Payload) (cost : Option Binary64) :
    (add m owner p payload cost).Meets v False fun ns _ => Notice.Announces .evicted ns := by
  refine meets_bind.2 <| (meets_any _ v).imp fun e v₁ _ => meets_bind.2 <|
    (meets_any _ v₁).imp fun replaced v₂ _ => meets_bind.2 <| (meets_any _ v₂).imp fun pass _ _ => ?_
  exact (Notice.Announces.written e replaced (.of_evicted pass.victims)).logs pass.log

theorem addBatch_announces (owner : Owner) (tiles : List (Position × Payload × Option Binary64)) :
    (addBatch m owner tiles).Meets v False fun ns _ => Notice.Announces .evicted ns := by
  refine meets_bind.2 <| (meets_any _ v).imp fun es v₁ _ => ?_
  cases es.getLast? with
  | none => exact .nil
  | some last =>
    refine meets_bind.2 <| (meets_any _ v₁).imp fun ws v₂ _ => meets_bind.2 <|
      (meets_any _ v₂).imp fun pass _ _ => ?_
    have hwritten : ∀ x : Entry × Bool, Notice.Announces .evicted (Notice.written x.1 x.2) :=
      fun x => .written x.1 x.2 .nil
    exact ((Notice.Announces.flatMap ws hwritten).append (.of_evicted pass.victims)).logs pass.log

theorem remove_announces (k : TileKey) (image : ImageKey) :
    (remove k image).Meets v False fun x _ => Notice.Announces .removed x.2 := by
  refine meets_bind.2 <| (meets_any _ v).imp fun found v₁ _ => ?_
  cases found with
  | none => exact .nil
  | some e =>
    exact meets_bind.2 <| (meets_any _ v₁).imp fun _ v₂ _ => meets_bind.2 <|
      (meets_any _ v₂).imp fun _ v₃ _ => meets_bind.2 <|
        (Vault.dismiss_announces [e] v₃).imp fun _ _ h => h

theorem removeImage_announces (image : Identity) :
    (removeImage image).Meets v False fun x _ => Notice.Announces .removed x.2 := by
  refine meets_bind.2 <| meets_get.2 <| meets_bind.2 <| (meets_any _ v).imp fun _ v₁ _ => ?_
  refine meets_bind.2 <| (meets_any _ v₁).imp fun es v₂ _ => ?_
  exact meets_bind.2 <| (Vault.dismiss_announces es v₂).imp fun _ _ h => h.append (.log _ .nil)

theorem flush_announces :
    flush.Meets v False fun ns _ => Notice.Announces .removed ns := by
  refine meets_bind.2 <| meets_get.2 <| meets_bind.2 <| (meets_any _ v).imp fun parts v₁ _ => ?_
  exact meets_bind.2 <| (Vault.dismiss_announces _ v₁).imp fun _ _ h => h.append (.log _ .nil)

theorem relieve_announces :
    (relieve m).Meets v False fun ns _ => Notice.Announces .evicted ns :=
  meets_bind.2 <| (meets_any _ v).imp fun pass _ _ => pass.announces

end Sharded

/-- How entries go that a request makes go: they are removed on request, or to make room. -/
def Request.goneAs {ο ι : Type} : Request ο ι → Action
  | remove .. | removeImage _ | flush => .removed
  | _ => .evicted

theorem Cache.relieve_announces (m : Moment) (c : Cache) :
    (relieve m).Meets c False fun ns _ => Notice.Announces .evicted ns := by
  cases c with
  | linked v => exact meets_byLayout_linked.2 Linked.relieve_announces
  | sharded v => exact meets_byLayout_sharded.2 Sharded.relieve_announces

/-- Every request announces what it does. -/
theorem Request.perform_announces (m : Moment) (q : Request Owner Identity) (c : Cache) :
    (q.perform m).Meets c False fun x _ => Notice.Announces q.goneAs x.2 := by
  cases q with
  | add owner p payload cost =>
    refine meets_bind.2 ?_
    cases c with
    | linked v => exact Cache.meets_byLayout_linked.2 (Linked.add_announces owner p payload cost)
    | sharded v => exact Cache.meets_byLayout_sharded.2 (Sharded.add_announces owner p payload cost)
  | addBatch owner points payloads costs =>
    refine meets_map.2 ?_
    obtain ⟨r, -, hbatch⟩ | ⟨tiles, -, hbatch⟩ :=
      Cache.addBatch_eq m owner points payloads costs
    · rw [hbatch]
      exact .nil
    · rw [hbatch]
      refine meets_map.2 ?_
      cases c with
      | linked v => exact Cache.meets_byLayout_linked.2 (Linked.addBatch_announces owner tiles)
      | sharded v => exact Cache.meets_byLayout_sharded.2 (Sharded.addBatch_announces owner tiles)
  | get | getAll => exact meets_bind.2 <| (meets_any _ c).imp fun _ _ _ => .nil
  | tilesOf | contains | report | list => exact .nil
  | enable | disable | reset => exact .nil
  | remove image p =>
    refine meets_bind.2 ?_
    cases c with
    | linked v => exact Cache.meets_byLayout_linked.2 (Linked.remove_announces _)
    | sharded v => exact Cache.meets_byLayout_sharded.2 (Sharded.remove_announces _ _)
  | removeImage image =>
    refine meets_bind.2 ?_
    cases c with
    | linked v => exact Cache.meets_byLayout_linked.2 (Linked.removeImage_announces image)
    | sharded v => exact Cache.meets_byLayout_sharded.2 (Sharded.removeImage_announces image)
  | flush =>
    refine meets_bind.2 ?_
    cases c with
    | linked v => exact Cache.meets_byLayout_linked.2 Linked.flush_announces
    | sharded v => exact Cache.meets_byLayout_sharded.2 Sharded.flush_announces
  | relieve => exact meets_bind.2 (Cache.relieve_announces m c)
  | setCapacity bytes =>
    refine meets_map.2 (meets_bind.2 (meets_get.2 ?_))
    cases c.ledger.setCapacity bytes with
    | error r => exact .nil
    | ok l =>
      refine meets_bind.2 (Mutation.meets_set.2 ?_)
      dsimp only
      split
      · exact meets_bind.2 ((Cache.relieve_announces m _).imp fun _ _ h => .log _ h)
      · exact .log _ .nil
  | setThreshold t =>
    refine meets_map.2 (meets_bind.2 (meets_get.2 ?_))
    cases c.ledger.setThreshold t with
    | error r => exact .nil
    | ok l => exact .log _ .nil

/-! ### Counters -/

/-- Whether a look-up finds something at each position. -/
def Request.lookups (g : Tiles) : Request Owner Identity → List Bool
  | .get image p => [(g (.of image p)).isSome]
  | .getAll image points => points.map fun p => (g (.of image p)).isSome
  | _ => []

/-- The look-ups of these keys are counted. -/
def Counters.countLookups (c : Counters) (g : Tiles) (ks : List TileKey) : Counters :=
  c.plus (.ofLookups (ks.map fun k => (g k).isSome))

theorem Counters.countLookups_cons (c : Counters) (g : Tiles) (k : TileKey) (ks : List TileKey) :
    c.countLookups g (k :: ks) = (c.count (.lookup (g k).isSome)).countLookups g ks := by
  simp only [countLookups, ← foldl_lookups, List.map_cons, List.foldl_cons]

namespace Linked

variable {v : Linked} (m : Moment)

/-- Finding an entry does not count it. -/
theorem find_counters (k : TileKey) :
    (find m k).Meets v False fun _ v' => v'.ledger.counters = v.ledger.counters :=
  ((ignores_find (g := (·.watched v.ledger.watch)) m k).leaves (s := v) rfl).imp fun _ _ h =>
    (congrArg (·.ledger.counters) h).symm

theorem get?_counters (k : TileKey) (h : v.Sound) :
    (get? m k).Meets v False fun _ v' => v'.ledger.counters = v.ledger.counters.countLookups v.tiles [k] := by
  refine meets_bind.2 (((find_meets m k h).and (find_counters m k)).imp ?_)
  rintro _ v₁ ⟨⟨rfl, -, -⟩, hc⟩
  rw [Counters.countLookups_cons, ← hc]
  exact (Counters.plus_zero _).symm

theorem getAll_counters (ks : List TileKey) (h : v.Sound) :
    (getAll m ks).Meets v False fun _ v' =>
      v'.ledger.counters = v.ledger.counters.countLookups v.tiles ks := by
  have hfound : (ks.mapM (find m)).Meets v False fun found v' => found = ks.map v.tiles ∧ v.Keeps v' :=
    Vault.lookUps_meets (fun k w hw => (find_meets m k hw).imp fun _ _ hf => ⟨hf.1, hf.2.1⟩) ks h
  have hcounters : (ks.mapM (find m)).Meets v False fun _ v' => v'.ledger.counters = v.ledger.counters :=
    ((Mutation.ignores_mapM (ignores_find (g := (·.watched v.ledger.watch)) m) ks).leaves (s := v)
      rfl).imp fun _ _ h =>
      (congrArg (·.ledger.counters) h).symm
  have hcounted : ∀ (found : List (Option Entry)) (w : Linked),
      (found.foldl (fun w f => w.count (.lookup f.isSome)) w).ledger.counters =
        w.ledger.counters.plus (.ofLookups (found.map (·.isSome))) := by
    intro found
    induction found with
    | nil => exact fun w => (Counters.plus_zero _).symm
    | cons f found ih =>
      intro w
      rw [List.foldl_cons, ih, List.map_cons, ← Counters.foldl_lookups, ← Counters.foldl_lookups]
      rfl
  refine meets_bind.2 ((hfound.and hcounters).imp ?_)
  rintro _ v₁ ⟨⟨rfl, -⟩, hc⟩
  refine meets_bind.2 (Mutation.meets_of_result (Mutation.result_forM_modify _ _ v₁) ?_)
  refine meets_pure.2 ((hcounted _ v₁).trans ?_)
  rw [hc, List.map_map]
  rfl

end Linked

namespace Sharded

variable {v : Sharded} (m : Moment)

theorem get?_counters (k : TileKey) :
    (get? m k).Meets v False fun _ v' => v'.ledger.counters = v.ledger.counters.countLookups v.tiles [k] := by
  refine meets_bind.2 (meets_get.2 ?_)
  rw [Counters.countLookups_cons]
  rcases hk : v.store.get? k with _ | e
  · have hmiss : v.tiles k = none := hk
    rw [hmiss]
    exact (Counters.plus_zero _).symm
  · have hhit : v.tiles k = some e := hk
    rw [hhit]
    refine meets_bind.2 (Mutation.meets_set.2 (meets_pure.2 ?_))
    have htouch : (if v.ledger.trackRecency then v.touch e m.now else v).ledger = v.ledger := by
      split <;> rfl
    exact (congrArg (·.counters.count (.lookup true)) htouch).trans (Counters.plus_zero _).symm

theorem getAll_counters (ks : List TileKey) (h : v.Sound) :
    (getAll m ks).Meets v False fun _ v' =>
      v'.ledger.counters = v.ledger.counters.countLookups v.tiles ks := by
  unfold getAll
  induction ks generalizing v with
  | nil => exact (Counters.plus_zero _).symm
  | cons k ks ih =>
    rw [List.mapM_cons]
    refine meets_bind.2 (((get?_meets m k h).and (get?_counters m k)).imp ?_)
    rintro _ v₁ ⟨⟨-, hkeeps⟩, hc⟩
    refine meets_bind.2 ((ih hkeeps.sound).imp fun _ v₂ h₂ => meets_pure.2 ?_)
    rw [h₂, hc, hkeeps.tiles, Counters.countLookups_cons, Counters.countLookups_cons]
    exact congrArg (fun c : Counters => c.countLookups v.tiles ks) (Counters.plus_zero _)

end Sharded

/-- After a request has done its work, and before its notices are worked off, its look-ups have been
counted and nothing else. -/
theorem Request.perform_counters (m : Moment) {q : Request Owner Identity} {c : Cache}
    (h : c.Sound) (hq : q ≠ .enable ∧ q ≠ .disable ∧ q ≠ .reset) :
    (q.perform m).Meets c False fun _ c' =>
      c'.ledger.counters = c.ledger.counters.plus (.ofLookups (q.lookups c.get?)) := by
  have hignored : q.usesCounters = false → q.lookups c.get? = [] → (q.perform m).Meets c False fun _ c' =>
      c'.ledger.counters = c.ledger.counters.plus (.ofLookups (q.lookups c.get?)) := by
    intro hu hl
    have hleaves := (ignores_perform c.ledger.watch m hu).leaves (Cache.watched_watch c)
    refine hleaves.imp fun _ c' h' => ?_
    have hwatch := congrArg (·.ledger.counters) h'
    rw [hl]
    exact (hwatch.symm.trans (by simp [Ledger.watched, Ledger.watch])).trans (Counters.plus_zero _).symm
  cases q with
  | get image p =>
    refine meets_bind.2 ?_
    cases c with
    | linked v => exact Cache.meets_byLayout_linked.2 (Linked.get?_counters m _ h)
    | sharded v => exact Cache.meets_byLayout_sharded.2 (Sharded.get?_counters m _)
  | getAll image points =>
    have hlookups : ∀ g : Tiles, (points.map (TileKey.of image)).map (fun k => (g k).isSome) =
        (getAll image points).lookups g := fun g => List.map_map
    refine meets_bind.2 ?_
    cases c with
    | linked v =>
      refine Cache.meets_byLayout_linked.2 ((Linked.getAll_counters m _ h).imp fun _ v' h' => ?_)
      rw [← hlookups]
      exact h'
    | sharded v =>
      refine Cache.meets_byLayout_sharded.2 ((Sharded.getAll_counters m _ h).imp fun _ v' h' => ?_)
      rw [← hlookups]
      exact h'
  | enable => exact absurd rfl hq.1
  | disable => exact absurd rfl hq.2.1
  | reset => exact absurd rfl hq.2.2
  | report => exact (Counters.plus_zero _).symm
  | _ => exact hignored rfl rfl

end TileStore
