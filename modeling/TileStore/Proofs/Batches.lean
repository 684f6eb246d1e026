import TileStore.Proofs.Ahead
import TileStore.Proofs.Agreement
import TileStore.Proofs.Counting
import TileStore.Proofs.Lookups

/-!
# Batches

To cache tiles in a batch, or to look up a list of them, comes to the same as to do so one after the other
at the same moment: `batches_unfold`. A batch differs in three ways. It makes all of its entries first,
which does not matter (`WritesAhead.alike`). A sharded cache restores the bound on the memory once, in the
end, so up to the last tile there must be nothing to restore: `FitsUntilLast`. And nothing is counted before
everything is written. But writes do not go by the counters, and what is counted follows from what is told,
so `Request.performs_settle` takes the counting out of any list of requests.
-/

namespace TileStore

open Vault

variable {m : Moment}

/-! ### Notices -/

namespace Notice

theorem told_flatMap {α : Type} (f : α → List Notice) (xs : List α) :
    told (xs.flatMap f) = xs.flatMap fun x => told (f x) := by
  induction xs with
  | nil => rfl
  | cons x xs ih => rw [List.flatMap_cons, told_append, ih, List.flatMap_cons]

/-- The victims are among what is told. -/
theorem victims_eq (ns : List Notice) :
    victims ns = (told ns).filterMap fun x => if x.2 = .evicted then some x.1 else none := by
  unfold victims told
  rw [List.filterMap_filterMap]
  refine List.filterMap_congr fun n _ => ?_
  cases n with
  | tell e a => cases a <;> rfl
  | log | count => rfl

/-- Whoever tells the same, some notices after the others, names the same victims. -/
theorem victims_of_told {α : Type} {ns : List Notice} {f : α → List Notice} {xs : List α}
    (h : told ns = xs.flatMap fun x => told (f x)) :
    victims ns = xs.flatMap fun x => victims (f x) := by
  simp only [victims_eq, h, List.filterMap_flatMap]

end Notice

/-! ### One layout -/

/-- A linked cache does for each tile of a batch what it does for a single one. -/
theorem Linked.addBatch_unfolds {v : Linked} (m : Moment) (owner : Owner)
    (tiles : List (Position × Payload × Option Binary64)) (h : v.Regular) :
    (addBatch m owner tiles).Alike (tiles.mapM fun t => add m owner t.1 t.2.1 t.2.2) v v
      fun ns v' nss w' => w' = v' ∧ Notice.told ns = nss.flatMap Notice.told := by
  let single (w : Written) : List Notice := w.pass.log.map .log ++ w.notices
  have hadd : (fun t : Position × Payload × Option Binary64 => add m owner t.1 t.2.1 t.2.2) =
      fun t => single <$> place (write m) m owner t := by
    funext t
    simp only [add, place, single, map_eq_pure_bind, bind_assoc]
  have hbatch : addBatch m owner tiles =
      (fun ws => (ws.flatMap (·.pass.log)).map .log ++ ws.flatMap Written.notices) <$>
        (do let es ← tiles.mapM fun t => newEntry m owner t.1 t.2.1 t.2.2
            es.mapM (write m)) := by
    simp only [addBatch, map_eq_pure_bind, bind_assoc]
  rw [hadd, hbatch]
  refine Mutation.alike_map_left (((writesAhead m).alike single m owner tiles h).imp ?_)
  rintro ws v' _ _ ⟨rfl, rfl, -⟩
  refine ⟨rfl, ?_⟩
  simp only [single, Notice.told_append, Notice.told_log, Notice.told_flatMap, List.nil_append,
    List.flatMap_map]

namespace Sharded

variable {v : Sharded} {tiles : List (Position × Payload × Option Binary64)}

/-- When some tiles of a batch are written, but not all of them, the memory is not over the capacity. -/
def FitsUntilLast (m : Moment) (owner : Owner)
    (tiles : List (Position × Payload × Option Binary64)) (v : Sharded) : Prop :=
  ∀ n < tiles.length, 0 < n → ∀ ws w,
    ((tiles.take n).mapM (place record m owner)).result v = (.ok ws, w) →
      w.ledger.isOverCapacity = false

/-- Restore the bound after tiles were written, and announce them. -/
def conclude (m : Moment) (ws : List (Entry × Bool)) : Mutation Sharded (List Notice) :=
  match ws.getLast? with
  | none => return []
  | some w => do
    let pass ← restoreBound m w.1
    return pass.log.map .log ++
      (ws.flatMap (fun (e, replaced) => Notice.written e replaced) ++ Notice.evicted pass.victims)

theorem add_eq (m : Moment) (owner : Owner) (tile : Position × Payload × Option Binary64) :
    add m owner tile.1 tile.2.1 tile.2.2 = (do
      let w ← place record m owner tile
      conclude m [w]) := by
  have hone : ∀ w : Entry × Bool, conclude m [w] = (do
      let pass ← restoreBound m w.1
      return pass.log.map .log ++ (Notice.written w.1 w.2 ++ Notice.evicted pass.victims)) := by
    intro w
    simp [conclude]
  simp only [add, place, record, bind_assoc, pure_bind, hone]

theorem records_fst (es : List Entry) (v : Sharded) :
    (es.mapM record).Meets v False fun ws _ => ws.map (·.1) = es := by
  induction es generalizing v with
  | nil => exact rfl
  | cons e es ih =>
    rw [List.mapM_cons, Mutation.meets_bind, record, Mutation.meets_bind]
    refine (Mutation.meets_any _ v).imp fun replaced v₁ _ => ?_
    rw [Mutation.meets_pure, Mutation.meets_bind]
    exact (ih v₁).imp fun ws _ hws => congrArg (e :: ·) hws

/-- A batch may be made and written tile by tile, and the bound be restored in the end. -/
theorem addBatch_places (m : Moment) (owner : Owner)
    (tiles : List (Position × Payload × Option Binary64)) (h : v.Regular) :
    (addBatch m owner tiles).Alike (do
        let ws ← tiles.mapM (place record m owner)
        conclude m ws) v v fun ns v' ns' w' => ns' = ns ∧ w' = v' := by
  unfold addBatch
  refine Mutation.alike_left (newEntries_ahead m owner tiles v) trivial ?_
  rintro _ _ ⟨rfl, rfl⟩
  have hplaces := writesAhead.alike_made id m owner tiles h
  simp only [id_map] at hplaces
  cases hlast : (madeFrom owner v.ledger.overhead v.ledger.nextSeq tiles).getLast? with
  | none =>
    have hlength := length_madeFrom owner v.ledger.overhead v.ledger.nextSeq tiles
    rw [List.getLast?_eq_none_iff.1 hlast] at hlength
    obtain rfl := List.eq_nil_of_length_eq_zero hlength.symm
    exact ⟨rfl, rfl⟩
  | some last =>
    refine Mutation.alike_bind ((hplaces.and_meets (records_fst _ _) (Mutation.meets_any _ _)).imp ?_)
    rintro ws v' _ _ ⟨⟨rfl, rfl, -⟩, hws, -⟩
    rw [List.map_id, conclude]
    rw [← hws, List.getLast?_map, Option.map_eq_some_iff] at hlast
    obtain ⟨w, hw, rfl⟩ := hlast
    rw [hw]
    exact Mutation.alike_self _ _

/-- While the memory is not over the capacity, no pass follows. -/
theorem places_unfold (owner : Owner)
    (hfits : ∀ n ≤ tiles.length, 0 < n → ∀ ws w,
      ((tiles.take n).mapM (place record m owner)).result v = (.ok ws, w) →
        w.ledger.isOverCapacity = false) :
    (tiles.mapM (place record m owner)).Alike (tiles.mapM fun t => add m owner t.1 t.2.1 t.2.2) v v
      fun ws v' nss w' => w' = v' ∧ nss = ws.map fun x => Notice.written x.1 x.2 ++ Notice.evicted [] := by
  induction tiles generalizing v with
  | nil => exact ⟨rfl, rfl⟩
  | cons t tiles ih =>
    have hbound : (place record m owner t).Meets v False fun x w =>
        w.ledger.isOverCapacity = false ∧ (place record m owner t).result v = (.ok x, w) := by
      refine Mutation.meets_of_forall fun x w hx => ⟨hfits 1 (Nat.succ_pos _) Nat.one_pos [x] w ?_, hx⟩
      rw [List.take_succ_cons, List.take_zero, List.mapM_cons, Mutation.result_bind, hx]
      rfl
    rw [List.mapM_cons, List.mapM_cons, add_eq]
    simp only [bind_assoc]
    refine Mutation.alike_bind (((Mutation.alike_self _ v).and_meets hbound hbound).imp ?_)
    rintro _ _ x v₁ ⟨⟨rfl, rfl⟩, ⟨hover, hx⟩, -⟩
    have hrest : (conclude m [x]).Meets v₁ True fun ns w =>
        ns = Notice.written x.1 x.2 ++ Notice.evicted [] ∧ w = v₁ := by
      unfold conclude restoreBound
      simp only [List.getLast?_singleton, Mutation.meets_bind, Mutation.meets_get, hover]
      exact ⟨rfl, rfl⟩
    refine Mutation.alike_right hrest trivial ?_
    rintro _ _ ⟨rfl, rfl⟩
    refine Mutation.alike_bind ((ih fun n hn hpos ws w hws => ?_).imp ?_)
    · refine hfits (n + 1) (Nat.succ_le_succ hn) (Nat.succ_pos n) (x :: ws) w ?_
      rw [List.take_succ_cons, List.mapM_cons, Mutation.result_bind, hx]
      simp only [Mutation.result_bind, hws, Mutation.result_pure]
    · rintro ws v' _ _ ⟨rfl, rfl⟩
      exact ⟨rfl, rfl⟩

/-- While tiles are left the memory is not over the capacity, so the last one alone may set off a pass. -/
theorem places_conclude (m : Moment) (owner : Owner)
    (tiles : List (Position × Payload × Option Binary64)) (hfits : v.FitsUntilLast m owner tiles) :
    (do let ws ← tiles.mapM (place record m owner)
        conclude m ws).Alike
      (tiles.mapM fun (t : Position × Payload × Option Binary64) => add m owner t.1 t.2.1 t.2.2) v v
      fun ns v' nss w' => w' = v' ∧ Notice.told ns = nss.flatMap Notice.told := by
  rcases tiles.eq_nil_or_concat' with rfl | ⟨before, t, rfl⟩
  · exact ⟨rfl, rfl⟩
  rw [List.mapM_append, List.mapM_append, List.mapM_cons, List.mapM_cons, List.mapM_nil,
    List.mapM_nil, add_eq]
  simp only [bind_assoc, pure_bind]
  refine Mutation.alike_bind ((places_unfold owner fun n hn hpos => ?_).imp ?_)
  · have htake := hfits n (by simp; omega) hpos
    rwa [List.take_append_of_le_length hn] at htake
  · rintro ws v₁ _ _ ⟨rfl, rfl⟩
    refine Mutation.alike_bind ((Mutation.alike_self _ _).imp ?_)
    rintro _ _ w v₂ ⟨rfl, rfl⟩
    simp only [conclude, List.getLast?_append, List.getLast?_singleton, Option.some_or, bind_assoc,
      pure_bind]
    refine Mutation.alike_bind ((Mutation.alike_self _ _).imp ?_)
    rintro _ _ pass v' ⟨rfl, rfl⟩
    refine ⟨rfl, ?_⟩
    simp only [Notice.told_append, Notice.told_log, Notice.told_flatMap, Notice.told_evicted,
      List.flatMap_append, List.flatMap_map, List.flatMap_cons, List.flatMap_nil, List.map_nil,
      List.append_nil, List.nil_append, List.append_assoc]

/-- A sharded cache does for each tile of a batch what it does for a single one, if the memory is over
the capacity with the last one at the earliest. -/
theorem addBatch_unfolds (m : Moment) (owner : Owner)
    (tiles : List (Position × Payload × Option Binary64)) (h : v.Regular)
    (hfits : v.FitsUntilLast m owner tiles) :
    (addBatch m owner tiles).Alike (tiles.mapM fun t => add m owner t.1 t.2.1 t.2.2) v v
      fun ns v' nss w' => w' = v' ∧ Notice.told ns = nss.flatMap Notice.told := by
  refine ((addBatch_places m owner tiles h).trans (places_conclude m owner tiles hfits)).imp ?_
  rintro _ _ nss w' ⟨_, _, ⟨rfl, rfl⟩, hconcluded⟩
  exact hconcluded

end Sharded

/-! ### Caches -/

namespace Cache

variable {c : Cache}

/-- The vault is regular. -/
def Regular : Cache → Prop
  | linked v => v.Regular
  | sharded v => v.Regular

theorem Reaches.regular {ok : Moment → Cache → Request Owner Identity → Prop} (h : Reaches ok c) :
    c.Regular := by
  have hsound := h.sound
  have hsize := h.size_register
  obtain ⟨layout, hconsistent⟩ := h.consistent
  have hserial := hconsistent.serial
  cases c with
  | linked v => exact ⟨hsound, hsize, fun e he => hserial.lt ((hsound.shelf.mem e).1 he)⟩
  | sharded v => exact ⟨hsound, hsize, fun e he => hserial.lt ((hsound.shelf.mem e).1 he)⟩

/-- When some tiles of a batch are written to a sharded cache, but not all of them, the memory is not
over the capacity. -/
def FitsUntilLast (m : Moment) (owner : Owner)
    (tiles : List (Position × Payload × Option Binary64)) : Cache → Prop
  | linked _ => True
  | sharded v => v.FitsUntilLast m owner tiles

instance decidableFitsUntilLast (m : Moment) (owner : Owner)
    (tiles : List (Position × Payload × Option Binary64)) :
    (c : Cache) → Decidable (c.FitsUntilLast m owner tiles)
  | linked _ => isTrue trivial
  | sharded _ => inferInstanceAs (Decidable (∀ n < tiles.length, _))

/-- A batch does for each tile what is done for a single one. -/
theorem addBatch_unfolds (m : Moment) (owner : Owner) {points : List Position}
    {payloads : List Payload} {costs : Option (List Binary64)}
    {tiles : List (Position × Payload × Option Binary64)}
    (htiles : Aligned points payloads costs tiles) (h : c.Regular)
    (hfits : c.FitsUntilLast m owner tiles) :
    (addBatch m owner points payloads costs).Alike
      (tiles.mapM fun t => add m owner t.1 t.2.1 t.2.2) c c fun x c' nss d' =>
        d' = c' ∧ ∃ ns, x = .ok ns ∧ Notice.told ns = nss.flatMap Notice.told := by
  unfold addBatch add
  rw [pairUp_of_aligned htiles, mapM_byLayout]
  refine Mutation.alike_map_left ?_
  cases c with
  | linked v =>
    refine alike_linked.2 ((Linked.addBatch_unfolds m owner tiles h).imp ?_)
    rintro ns v' nss _ ⟨rfl, htold⟩
    exact ⟨rfl, ns, rfl, htold⟩
  | sharded v =>
    refine alike_sharded.2 ((Sharded.addBatch_unfolds m owner tiles h hfits).imp ?_)
    rintro ns v' nss _ ⟨rfl, htold⟩
    exact ⟨rfl, ns, rfl, htold⟩

/-! ### Counting -/

/-- The cache after so much was counted. -/
def plus (c : Cache) (n : Counts) : Cache :=
  c.editLedger fun l => { l with counters := l.counters.plus n }

theorem plus_plus (c : Cache) (m n : Counts) : (c.plus m).plus n = c.plus (m + n) := by
  cases c <;> simp only [plus, editLedger, Counters.plus_add]

theorem plus_zero (c : Cache) : c.plus {} = c := by
  cases c <;> simp only [plus, editLedger, Counters.plus_zero]

/-- What is announced is counted. -/
theorem countAll_of_announces {gone : Action} {ns : List Notice} (h : Notice.Announces gone ns)
    (c : Cache) : c.countAll (Notice.counted ns) = c.plus (.ofEvents (Notice.told ns)) := by
  rw [countAll_eq]
  simp only [plus, h.foldl_count]

end Cache

namespace Request

variable {q : Request Owner Identity} {c : Cache}

/-- What a request comes to that is answered in this way, while counting is enabled or not. -/
def upshot (on : Bool) (x : Reply × List Notice) : Upshot where
  reply := x.1
  victims := Notice.victims x.2
  events := if on then Notice.told x.2 else []

/-- A request that ignores the counters may be answered before others are counted. -/
theorem perform_plus (m : Moment) (hq : q.usesCounters = false) (c : Cache) (n : Counts) :
    (q.perform m).Alike (q.perform m) c (c.plus n) fun x c' y d' =>
      y = x ∧ d' = c'.plus n ∧ c'.ledger.counters.enabled = c.ledger.counters.enabled := by
  let w : Watch := ⟨c.ledger.counters.plus n, c.ledger.observers⟩
  have hplus : c.plus n = c.watched w := by cases c <;> rfl
  have hleaves : (q.perform m).Meets c False fun _ c' => c'.watched c.ledger.watch = c' :=
    (ignores_perform c.ledger.watch m hq).leaves (Cache.watched_watch c)
  rw [hplus]
  refine (((Mutation.alike_self _ c).and_meets hleaves hleaves).change_left
    (ignores_perform w m hq c)).symm.imp ?_
  rintro _ c' x _ ⟨_, rfl, ⟨rfl, rfl⟩, hwatch, -⟩
  have hcounters : c'.ledger.counters = c.ledger.counters := by
    rw [← hwatch, Cache.ledger_watched]
    rfl
  refine ⟨rfl, ?_, congrArg (·.enabled) hcounters⟩
  rw [← hwatch]
  cases c' <;> rfl

/-- To settle a request is to answer it and to count what it announces. -/
theorem perform_settle (m : Moment) (hq : q.usesCounters = false) (c : Cache) (n : Counts) :
    (q.perform m).Alike (q.settle m) c (c.plus n) fun x c' y d' =>
      y = upshot c.ledger.counters.enabled x ∧ d' = c'.plus (n + .ofEvents (Notice.told x.2)) ∧
        c'.ledger.counters.enabled = c.ledger.counters.enabled := by
  unfold settle
  refine Mutation.alike_bind_right (((perform_plus m hq c n).and_meets (perform_announces m q c)
    (Mutation.meets_any _ _)).imp ?_)
  rintro _ c' x _ ⟨⟨rfl, rfl, henabled⟩, hannounces, -⟩
  simp only [Mutation.alike_modify_right, Mutation.alike_get_right, Mutation.alike_pure]
  rw [Cache.countAll_of_announces hannounces, Cache.plus_plus]
  have hcounted : (c'.plus (n + .ofEvents (Notice.told x.2))).ledger.counters.enabled =
      c.ledger.counters.enabled := by
    rw [Cache.plus, Cache.ledger_editLedger, Counters.enabled_plus, henabled]
  refine ⟨?_, rfl, henabled⟩
  rw [upshot, hcounted]

/-- Requests may be answered one after the other before anything is counted. -/
theorem performs_settle {α : Type} (m : Moment) {q : α → Request Owner Identity}
    (hq : ∀ x, (q x).usesCounters = false) (xs : List α) (c : Cache) (n : Counts) :
    (xs.mapM fun x => (q x).perform m).Alike (xs.mapM fun x => (q x).settle m) c (c.plus n)
      fun ys c' us d' => us = ys.map (upshot c.ledger.counters.enabled) ∧
        d' = c'.plus (n + .ofEvents (ys.flatMap fun y => Notice.told y.2)) := by
  induction xs generalizing c n with
  | nil => exact ⟨rfl, congrArg c.plus (Counts.add_zero n).symm⟩
  | cons x xs ih =>
    rw [List.mapM_cons, List.mapM_cons]
    refine Mutation.alike_bind ((perform_settle m (hq x) c n).imp ?_)
    rintro y c' _ _ ⟨rfl, rfl, henabled⟩
    refine Mutation.alike_bind ((ih c' _).imp ?_)
    rintro ys c'' _ _ ⟨rfl, rfl⟩
    rw [henabled, Mutation.alike_pure, List.flatMap_cons, Counts.ofEvents_append, Counts.add_assoc]
    exact ⟨rfl, rfl⟩

end Request

/-! ### Batches and what they unfold to -/

/-- A batch comes to what single requests come to, one after the other. -/
structure Upshot.Unfolds (x : Upshot) (ys : List Upshot) : Prop where
  accepted : x.reply = .accepted
  done : ∀ y ∈ ys, y.reply = .done
  victims : x.victims = ys.flatMap (·.victims)
  events : x.events = ys.flatMap (·.events)

namespace Request

variable {c : Cache}

/-- A batch comes to the same as its tiles one after the other, and leaves the same cache. -/
theorem addBatch_unfolds (m : Moment) (owner : Owner) {points : List Position}
    {payloads : List Payload} {costs : Option (List Binary64)}
    {tiles : List (Position × Payload × Option Binary64)}
    (htiles : Aligned points payloads costs tiles) (h : c.Regular)
    (hfits : c.FitsUntilLast m owner tiles) :
    ((addBatch owner points payloads costs).settle m).Alike
      (tiles.mapM fun t => (add owner t.1 t.2.1 t.2.2).settle m) c c fun x c' ys d' =>
        d' = c' ∧ x.Unfolds ys := by
  have hperform : ((addBatch owner points payloads costs).perform m).Alike
      (tiles.mapM fun t => (add owner t.1 t.2.1 t.2.2).perform m) c c fun x c' ys d' =>
        d' = c' ∧ x.1 = .accepted ∧ (∀ y ∈ ys, y.1 = .done) ∧
          Notice.told x.2 = ys.flatMap fun y => Notice.told y.2 := by
    have hadd : (fun t : Position × Payload × Option Binary64 =>
        (add owner t.1 t.2.1 t.2.2).perform m) =
        fun t => (Reply.done, ·) <$> Cache.add m owner t.1 t.2.1 t.2.2 := by
      simp only [perform, map_eq_pure_bind]
    rw [hadd, Mutation.mapM_map]
    refine Mutation.alike_map (((Cache.addBatch_unfolds m owner htiles h hfits)).imp ?_)
    rintro _ c' nss _ ⟨rfl, ns, rfl, htold⟩
    refine ⟨rfl, rfl, ?_, ?_⟩
    · simp
    · rw [List.flatMap_map]
      exact htold
  have hbatch := perform_settle (q := addBatch owner points payloads costs) m rfl c {}
  have hsingle := performs_settle (q := fun t : Position × Payload × Option Binary64 =>
    add owner t.1 t.2.1 t.2.2) m (fun _ => rfl) tiles c {}
  rw [Cache.plus_zero] at hbatch hsingle
  refine ((hbatch.symm.trans hperform).trans hsingle).imp ?_
  rintro _ _ _ _ ⟨ys, d', ⟨x, c', ⟨rfl, rfl, -⟩, rfl, haccepted, hdone, htold⟩, rfl, rfl⟩
  refine ⟨by rw [htold], haccepted, ?_, ?_, ?_⟩
  · intro u hu
    obtain ⟨y, hy, rfl⟩ := List.mem_map.1 hu
    exact hdone y hy
  · rw [List.flatMap_map]
    exact Notice.victims_of_told htold
  · rw [List.flatMap_map]
    cases hon : c.ledger.counters.enabled with
    | true => exact htold
    | false => simp [upshot]

end Request

/-- A batch, and a list of look-ups, come to the same as single requests one after the other at the same
moment, while observers do not call back, and the cache is left the same to the last detail. The single
requests of a batch are for what stands in one place of its lists. For batches that are written to a
sharded cache, the memory must not be over the capacity while tiles are left. With room for what is
written, a batch does not fail, and look-ups never do. -/
theorem batches_unfold {ok : Moment → Cache → Request Owner Identity → Prop} {c : Cache}
    (h : Cache.Reaches ok c) (m : Moment) :
    (∀ owner points payloads (costs : Option (List Binary64)), payloads.length = points.length →
      (∀ cs ∈ costs, cs.length = points.length) → ∃ tiles, Aligned points payloads costs tiles ∧
      (c.FitsUntilLast m owner tiles →
        ((Request.addBatch owner points payloads costs).settle m).Alike
          (tiles.mapM fun t => (Request.add owner t.1 t.2.1 t.2.2).settle m) c c
          (fun x c' ys d' => d' = c' ∧ x.Unfolds ys)) ∧
      (c.Exact → c.HasRoom m (.addBatch owner points payloads costs) → ∃ x c',
        ((Request.addBatch owner points payloads costs).settle m).result c = (.ok x, c'))) ∧
    ∀ image points, ∃ seen c',
      ((Request.getAll image points).settle m).result c = (.ok ⟨.entries seen, [], []⟩, c') ∧
      (points.mapM fun p => (Request.get image p).settle m : Mutation Cache (List Upshot)).result c =
        (.ok (seen.map fun s => ⟨.entry s, [], []⟩), c') := by
  constructor
  · intro owner points payloads costs hpayloads hcosts
    obtain ⟨tiles, htiles⟩ := exists_aligned_iff.2 ⟨hpayloads, hcosts⟩
    refine ⟨tiles, htiles, Request.addBatch_unfolds m owner htiles h.regular, fun hexact hroom => ?_⟩
    have hanswered := Request.perform_meets m (.addBatch owner points payloads costs) h.sound
    have hsettled : ((Request.addBatch owner points payloads costs).settle m).Meets c
        (c.Exact ∧ c.HasRoom m (.addBatch owner points payloads costs)) fun _ _ => True :=
      Mutation.meets_bind.2 (hanswered.imp fun _ _ _ => trivial)
    obtain ⟨x, c', hx, -⟩ := hsettled.exists_ok ⟨hexact, hroom⟩
    exact ⟨x, c', hx⟩
  · intro image points
    have hanswered : ((Request.getAll image points).settle m).Meets c True fun _ _ => True :=
      Mutation.meets_bind.2 (Mutation.meets_bind.2 <|
        (Cache.lookupAll_meets image points h.sound).imp fun _ _ _ => trivial)
    obtain ⟨_, c', _, _, hall, heach, rfl, seen, rfl, rfl⟩ :=
      (Request.getAll_unfolds m image points c).exists_ok hanswered trivial
    exact ⟨seen, _, hall, heach⟩

/-- Batches of six and of five tiles of different sizes and costs, in which the third one replaces the
first. The fifth sets off a pass that takes the two cheapest, the fourth and then the second; in a sharded
cache it has to be the last one. -/
theorem batches_unfold_repeated :
    let m : Moment := ⟨0, fun _ => true⟩
    let owner : Owner := ⟨0, .hashed 1⟩
    let tile (x : Int32) (bytes : UInt64) (cost : Binary64) : Position × Payload × Binary64 :=
      (⟨x, 0⟩, ⟨⟨8, bytes, 1⟩, 0⟩, cost)
    let six := [tile 0 100 ⟨0x4014000000000000⟩, tile 1 101 ⟨0x4008000000000000⟩,
      tile 0 102 ⟨0x4010000000000000⟩, tile 2 103 ⟨0x3ff0000000000000⟩,
      tile 3 104 ⟨0x4000000000000000⟩, tile 4 105 ⟨0x4018000000000000⟩]
    let batch (ts : List (Position × Payload × Binary64)) : Request Owner Identity :=
      .addBatch owner (ts.map (·.1)) (ts.map (·.2.1)) (some (ts.map (·.2.2)))
    let singles (ts : List (Position × Payload × Binary64)) : Mutation Cache (List Upshot) :=
      ts.mapM fun t => (Request.add owner t.1 t.2.1 (some t.2.2)).settle m
    let s : Settings := { capacity := 1100, diagnostics := true }
    let unfolds (layout : Layout) (ts : List (Position × Payload × Binary64)) (victims : List Nat) :
        Prop :=
      ∃ c x ys c', Cache.build { s with layout := layout } 1 = .ok c ∧
        ((batch ts).settle m).result c = (.ok x, c') ∧ (singles ts).result c = (.ok ys, c') ∧
        x.Unfolds ys ∧ x.victims.map (·.seq) = victims ∧ x.events.length = ts.length + victims.length
    unfolds .linked six [3, 1] ∧ unfolds .sharded (six.take 5) [3, 1] := by
  intro m owner tile six batch singles s unfolds
  let tiles (ts : List (Position × Payload × Binary64)) : List (Position × Payload × Option Binary64) :=
    ts.map fun t => (t.1, t.2.1, some t.2.2)
  have haligned : ∀ ts, Aligned (ts.map (·.1)) (ts.map (·.2.1)) (some (ts.map (·.2.2))) (tiles ts) := by
    intro ts
    refine ⟨List.map_map, List.map_map, ?_⟩
    rw [eachCost, Option.elim_some, List.map_map, List.map_map]
    rfl
  have hunfolds : ∀ {layout c ts victims}, Cache.build { s with layout := layout } 1 = .ok c →
      c.FitsUntilLast m owner (tiles ts) → c.HasRoom m (batch ts) →
      ((((batch ts).settle m).result c).1.toOption.map fun x =>
        (x.victims.map (·.seq), x.events.length)) = some (victims, ts.length + victims.length) →
      unfolds layout ts victims := by
    intro layout c ts victims hc hfits hroom hx
    have hreach : Cache.Reaches Cache.HasRoom c := .built hc
    obtain ⟨tiles', htiles', halike, hanswers⟩ := (batches_unfold hreach m).1 owner _ _ _
      (haligned ts).length_payloads (haligned ts).length_costs
    obtain rfl := (haligned ts).unique htiles'
    obtain ⟨x, c', hbatch⟩ := hanswers hreach.exact hroom
    have hsettled : ((batch ts).settle m).Meets c True fun _ _ => True :=
      Mutation.meets_of_result hbatch trivial
    obtain ⟨x, _, ys, c₂, hall, heach, rfl, hys⟩ := (halike hfits).exists_ok hsettled trivial
    have hsingles : (singles ts).result c = (.ok ys, c₂) := by
      rw [← heach, List.mapM_map]
      rfl
    rw [hall] at hx
    obtain ⟨hvictims, hevents⟩ := Prod.mk.inj (Option.some.inj hx)
    exact ⟨c, x, ys, c₂, hc, hall, hsingles, hys, hvictims, hevents⟩
  constructor
  · exact hunfolds rfl trivial (by decide +kernel) (by decide +kernel)
  · exact hunfolds rfl (by decide +kernel) (by decide +kernel) (by decide +kernel)

end TileStore
