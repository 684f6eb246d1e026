import TileStore.Proofs.Linked.Ranks
import TileStore.Proofs.Lookups
import TileStore.Proofs.Sharded.Victims

/-!
# Look-ups without a trace

A sharded cache that keeps no track of recency forgets its look-ups, but for counting them. So two
histories that differ in nothing else come to the same: `lookups_without_trace`. They are both compared
with the history in which nothing is looked up. `Cache.unlooked` is a cache without the counts of its
look-ups. Such a cache is left alone by a look-up, `Request.lookup_settles`, and every other request does
to caches that agree but for these counts what it does to one, `Request.settle_unlooked`.

As entries are not used again, their times are the times at which they were made. While the clock does not
go back, they are in the order of the numbers of the entries, `Register.Ascending`. Then the order in which
a pass takes entries, for which the times decide before the numbers, is the order without the times.
-/

namespace TileStore

open Vault Mutation

variable {m : Moment} {q : Request Owner Identity} {now limit : Nat} {us : List Entry}

/-! ### But for the counts of look-ups -/

/-- The counters without those of look-ups. -/
def Counters.unlooked (c : Counters) : Counters := { c with hits := 0, misses := 0 }

/-- The ledger without the counts of look-ups. -/
def Ledger.unlooked (l : Ledger) : Ledger := { l with counters := l.counters.unlooked }

/-- The cache without the counts of its look-ups. -/
def Cache.unlooked (c : Cache) : Cache := c.edited Ledger.unlooked

/-- The answer without the counts of look-ups that it shows. -/
def Reply.unlooked : Reply → Reply
  | .report r shards => .report { r with counters := r.counters.unlooked } shards
  | x => x

/-- What a request comes to, but for the counts of look-ups. -/
def Upshot.unlooked (x : Upshot) : Upshot := { x with reply := x.reply.unlooked }

theorem Ledger.idle_unlooked : Idle unlooked :=
  ⟨⟨fun _ _ _ => rfl, fun _ => rfl, fun _ => rfl⟩, fun _ => rfl, fun _ => rfl, fun _ _ => rfl,
    fun _ _ => rfl, fun _ _ => rfl⟩

namespace Counters

theorem unlooked_count (c : Counters) (x : Happening) :
    (c.count x).unlooked = (c.unlooked.count x).unlooked := by
  obtain ⟨on, hits, misses, inserts, updates, removals, evictions⟩ := c
  cases on with
  | false => rfl
  | true => rcases x with (_ | _) | (_ | _) | n | n <;> rfl

theorem unlooked_count_lookup (c : Counters) (hit : Bool) :
    (c.count (.lookup hit)).unlooked = c.unlooked := by
  obtain ⟨on, hits, misses, inserts, updates, removals, evictions⟩ := c
  cases on <;> cases hit <;> rfl

end Counters

namespace Cache

variable {c d : Cache}

theorem unlooked_count (c : Cache) (x : Happening) :
    (c.count x).unlooked = (c.unlooked.count x).unlooked := by
  have hcounters := Counters.unlooked_count c.ledger.counters x
  cases c with
  | linked v => exact congrArg (fun n => linked { v with ledger.counters := n }) hcounters
  | sharded v => exact congrArg (fun n => sharded { v with ledger.counters := n }) hcounters

/-- Counting the same keeps caches alike. -/
theorem unlooked_countAll (h : d.unlooked = c.unlooked) (xs : List Happening) :
    (d.countAll xs).unlooked = (c.countAll xs).unlooked := by
  induction xs generalizing c d with
  | nil => exact h
  | cons x xs ih =>
    refine ih ?_
    rw [unlooked_count, h, ← unlooked_count]

theorem notesLookups_unlooked (c : Cache) : c.unlooked.notesLookups = c.notesLookups := by
  cases c <;> rfl

theorem enabled_unlooked (c : Cache) :
    c.unlooked.ledger.counters.enabled = c.ledger.counters.enabled := by cases c <;> rfl

theorem report_unlooked (c : Cache) :
    c.unlooked.report = { c.report with counters := c.report.counters.unlooked } := by
  cases c <;> rfl

end Cache

/-! ### Requests that are not look-ups -/

/-- What a mutation ignores may differ from the start. -/
theorem Mutation.Ignores.alike {σ α : Type} {t : σ → σ} {f : Mutation σ α} {s s' : σ}
    (h : Ignores t f) (hs : t s' = t s) :
    f.Alike f s s' fun a s₁ b s₁' => b = a ∧ t s₁' = t s₁ := by
  have hleft : f.result (t s) = _ := h s
  have hright : f.result (t s') = _ := h s'
  rw [hs, hleft] at hright
  unfold Alike
  rcases hx : f.result s with ⟨_ | a, s₁⟩ <;> rcases hy : f.result s' with ⟨_ | b, s₁'⟩ <;>
    rw [hx, hy] at hright
  · trivial
  · cases congrArg Prod.fst hright
  · cases congrArg Prod.fst hright
  · exact ⟨(Except.ok.inj (congrArg Prod.fst hright)).symm, (congrArg Prod.snd hright).symm⟩

namespace Request

variable {c d : Cache}

/-- The request looks something up. -/
def isLookup {ο ι : Type} : Request ο ι → Bool
  | get .. | getAll .. => true
  | _ => false

theorem ignores_editCounters {f : Counters → Counters}
    (hf : ∀ n : Counters, f n.unlooked = (f n).unlooked) :
    Ignores Cache.unlooked (editCounters f) := by
  refine (ignores_modify fun c => ?_).bind fun _ => ignores_pure _
  cases c with
  | linked v =>
    exact congrArg (fun n => Cache.linked { v with ledger.counters := n }) (hf v.ledger.counters)
  | sharded v =>
    exact congrArg (fun n => Cache.sharded { v with ledger.counters := n }) (hf v.ledger.counters)

/-- Caches that agree but for the counts of look-ups give the same answers, but for these counts. -/
theorem perform_unlooked (m : Moment) (hq : q.isLookup = false) (h : d.unlooked = c.unlooked) :
    (q.perform m).Alike (q.perform m) c d fun x c' y d' =>
      (y.1.unlooked = x.1.unlooked ∧ y.2 = x.2) ∧ d'.unlooked = c'.unlooked := by
  have hignored : Ignores Cache.unlooked (q.perform m) →
      (q.perform m).Alike (q.perform m) c d fun x c' y d' =>
        (y.1.unlooked = x.1.unlooked ∧ y.2 = x.2) ∧ d'.unlooked = c'.unlooked := by
    intro hignores
    refine (hignores.alike h).imp ?_
    rintro x c' _ d' ⟨rfl, h'⟩
    exact ⟨⟨rfl, rfl⟩, h'⟩
  cases q with
  | get | getAll => cases hq
  | enable | disable | reset => exact hignored (ignores_editCounters fun _ => rfl)
  | report =>
    have hreport := congrArg Cache.report h
    have hshards := congrArg Cache.shardCount? h
    rw [Cache.report_unlooked, Cache.report_unlooked] at hreport
    rw [Cache.unlooked, Cache.unlooked, Cache.shardCount?_edited, Cache.shardCount?_edited] at hshards
    exact ⟨⟨congrArg₂ Reply.report hreport hshards, rfl⟩, h⟩
  | _ => exact hignored (ignores_perform_edited Ledger.idle_unlooked m rfl)

theorem settle_unlooked (m : Moment) (hq : q.isLookup = false) (h : d.unlooked = c.unlooked) :
    (q.settle m).Alike (q.settle m) c d fun x c' y d' =>
      y.unlooked = x.unlooked ∧ d'.unlooked = c'.unlooked := by
  refine alike_bind ((perform_unlooked m hq h).imp ?_)
  rintro ⟨reply, _⟩ c' ⟨reply', ns⟩ d' ⟨⟨hreply, rfl⟩, h'⟩
  have hcounted := Cache.unlooked_countAll h' (Notice.counted ns)
  have henabled := congrArg (·.ledger.counters.enabled) hcounted
  rw [Cache.enabled_unlooked, Cache.enabled_unlooked] at henabled
  rw [alike_modify_left, alike_modify_right, alike_get_left, alike_get_right, henabled]
  exact alike_pure.2 ⟨congrArg (Upshot.mk · _ _) hreply, hcounted⟩

end Request

/-! ### Whether look-ups are noted -/

theorem Sharded.getAll_trackRecency (m : Moment) (ks : List TileKey) (v : Sharded) :
    (getAll m ks).Meets v False fun _ v' => v'.ledger.trackRecency = v.ledger.trackRecency := by
  refine (meets_mapM (R := fun _ _ _ _ => True)
    (fun _ w => w.ledger.trackRecency = v.ledger.trackRecency) ?_ ks v rfl).imp fun _ _ h => h.2
  intro k ks w hw
  exact (get?_register m k w).imp fun _ _ h => ⟨trivial, h.1.trans hw⟩

namespace Request

variable {c : Cache}

theorem perform_notesLookups (m : Moment) (q : Request Owner Identity) (c : Cache) :
    (q.perform m).Meets c False fun _ c' => c'.notesLookups = c.notesLookups := by
  have hedited : ∀ f : Ledger → Ledger, (∀ l, (f l).trackRecency = l.trackRecency) →
      (c.editLedger f).notesLookups = c.notesLookups := by
    intro f hf
    cases c with
    | linked v => rfl
    | sharded v => exact hf v.ledger
  -- What is not a look-up does not go by what is set, and so leaves it as it is.
  have hignored : q.usesCounters = false →
      (q.perform m).Meets c False fun _ c' => c'.notesLookups = c.notesLookups := by
    intro hu
    let g (l : Ledger) : Ledger := { l with trackRecency := c.ledger.trackRecency }
    have hidle : Ledger.Idle g :=
      ⟨⟨fun _ _ _ => rfl, fun _ => rfl, fun _ => rfl⟩, fun _ => rfl, fun _ => rfl, fun _ _ => rfl,
        fun _ _ => rfl, fun _ _ => rfl⟩
    have hself : c.edited g = c := by cases c <;> rfl
    refine (((ignores_perform_edited hidle m hu).leaves hself).and
      (Cache.keepsLayout_perform q c)).imp ?_
    rintro _ c' ⟨hset, hlayout⟩
    have htrack := congrArg (·.ledger.trackRecency) hset
    cases c with
    | linked v =>
      cases c' with
      | linked w => rfl
      | sharded w => cases hlayout
    | sharded v =>
      cases c' with
      | linked w => cases hlayout
      | sharded w => exact htrack.symm
  cases q with
  | get image p =>
    exact meets_bind.2 ((Cache.lookup_register m image p c).imp fun _ _ h => h.1)
  | getAll image points =>
    refine meets_bind.2 ?_
    cases c with
    | linked v => exact Cache.meets_byLayout_linked.2 (meets_of_forall fun _ _ _ => rfl)
    | sharded v =>
      exact Cache.meets_byLayout_sharded.2 ((Sharded.getAll_trackRecency m _ v).imp fun _ _ h => h)
  | enable | disable | reset => exact hedited _ fun _ => rfl
  | report => exact rfl
  | _ => exact hignored rfl

end Request

/-! ### Look-ups -/

namespace Sharded

variable {v : Sharded}

/-- Without track of recency a look-up is counted, and that is all. -/
theorem get?_unlooked (m : Moment) (k : TileKey) (h : v.ledger.trackRecency = false) :
    (get? m k).Meets v True fun _ v' => v'.edited Ledger.unlooked = v.edited Ledger.unlooked := by
  have hcounted : ∀ hit, (v.count (.lookup hit)).edited Ledger.unlooked =
      v.edited Ledger.unlooked := fun hit =>
    congrArg (fun n => { v with ledger.counters := n })
      (Counters.unlooked_count_lookup v.ledger.counters hit)
  unfold get?
  rw [meets_bind, meets_get, h]
  cases v.store.get? k with
  | none => exact hcounted false
  | some e => exact hcounted true

theorem getAll_unlooked (m : Moment) (ks : List TileKey) (h : v.ledger.trackRecency = false) :
    (getAll m ks).Meets v True fun _ v' =>
      v'.edited Ledger.unlooked = v.edited Ledger.unlooked := by
  refine (meets_mapM (R := fun _ _ _ _ => True)
    (fun _ w => w.edited Ledger.unlooked = v.edited Ledger.unlooked) ?_ ks v rfl).imp fun _ _ h => h.2
  intro k ks w hw
  have htrack : w.ledger.trackRecency = false := (congrArg (·.ledger.trackRecency) hw).trans h
  exact (get?_unlooked m k htrack).imp fun _ _ h => ⟨trivial, h.trans hw⟩

end Sharded

namespace Request

variable {c : Cache}

/-- Where look-ups are not noted, they are settled and leave nothing but their counts. -/
theorem lookup_settles (m : Moment) (hq : q.isLookup = true) (hc : c.notesLookups = false) :
    (q.settle m).Meets c True fun _ c' => c'.unlooked = c.unlooked := by
  have hperform : (q.perform m).Meets c True fun x c' => x.2 = [] ∧ c'.unlooked = c.unlooked := by
    cases c with
    | linked v => cases hc
    | sharded v =>
      cases q with
      | get image p =>
        exact meets_bind.2 (Cache.meets_byLayout_sharded.2 ((Sharded.get?_unlooked m _ hc).imp
          fun _ _ h => ⟨rfl, congrArg Cache.sharded h⟩))
      | getAll image points =>
        exact meets_bind.2 (Cache.meets_byLayout_sharded.2 ((Sharded.getAll_unlooked m _ hc).imp
          fun _ _ h => ⟨rfl, congrArg Cache.sharded h⟩))
      | _ => cases hq
  refine meets_bind.2 (hperform.imp ?_)
  rintro ⟨reply, _⟩ c' ⟨rfl, h⟩
  exact h

/-- A request does not change whether look-ups are noted. -/
theorem settle_notesLookups (m : Moment) (q : Request Owner Identity) (c : Cache) :
    (q.settle m).Meets c False fun _ c' => c'.notesLookups = c.notesLookups := by
  refine meets_bind.2 ((perform_notesLookups m q c).imp ?_)
  rintro ⟨reply, ns⟩ c' h
  refine meets_bind.2 (meets_modify.2 ?_)
  rw [Cache.countAll_eq]
  cases c' <;> exact h

end Request

/-! ### Histories -/

/-- The requests of a history that are not look-ups. -/
def Request.others (hs : List (Moment × Request Owner Identity)) :
    List (Moment × Request Owner Identity) := hs.filter (!·.2.isLookup)

/-- What these come to in a history, but for the counts of look-ups. -/
def Upshot.others (hs : List (Moment × Request Owner Identity)) (xs : List Upshot) : List Upshot :=
  ((hs.zip xs).filter (!·.1.2.isLookup)).map (·.2.unlooked)

/-- Nothing of a history depends on its look-ups. -/
theorem Cache.alike_others {c d : Cache} (hs : List (Moment × Request Owner Identity))
    (h : d.unlooked = c.unlooked) (hc : c.notesLookups = false) :
    (hs.mapM fun p => p.2.settle p.1 : Mutation Cache (List Upshot)).Alike
      ((Request.others hs).mapM fun p => p.2.settle p.1 : Mutation Cache (List Upshot)) c d
      fun xs c' ys d' => Upshot.others hs xs = ys.map Upshot.unlooked ∧
        d'.unlooked = c'.unlooked := by
  induction hs generalizing c d with
  | nil => exact ⟨rfl, h⟩
  | cons p hs ih =>
    rw [List.mapM_cons]
    rcases hp : p.2.isLookup with _ | _
    · have hothers : Request.others (p :: hs) = p :: Request.others hs := by
        simp [Request.others, hp]
      rw [hothers, List.mapM_cons]
      refine alike_bind (((Request.settle_unlooked p.1 hp h).and_meets
        (Request.settle_notesLookups p.1 p.2 c) (meets_any _ d)).imp ?_)
      rintro x c₁ y d₁ ⟨⟨hx, h₁⟩, hnotes, -⟩
      refine alike_bind ((ih h₁ (hnotes.trans hc)).imp ?_)
      rintro xs c' ys d' ⟨hxs, h'⟩
      refine alike_pure.2 ⟨?_, h'⟩
      rw [List.map_cons, ← hxs, hx]
      simp [Upshot.others, hp]
    · have hothers : Request.others (p :: hs) = Request.others hs := by
        simp [Request.others, hp]
      rw [hothers]
      refine alike_left (Request.lookup_settles p.1 hp hc) trivial fun x c₁ h₁ => ?_
      have hnotes : c₁.notesLookups = false := by
        rw [← notesLookups_unlooked, h₁, notesLookups_unlooked, hc]
      refine alike_bind_left ((ih (h.trans h₁.symm) hnotes).imp ?_)
      rintro xs c' ys d' ⟨hxs, h'⟩
      refine alike_pure.2 ⟨?_, h'⟩
      rw [← hxs]
      simp [Upshot.others, hp]

/-! ### Times in the order of numbers -/

namespace Register

variable {n : Nat} {r r' : Register}

/-- What was made later has no earlier time, and no time lies ahead. -/
structure Ascending (now : Nat) (r : Register) : Prop where
  le_now : ∀ i, (r.status i).lastAccess ≤ now
  mono : ∀ {i j}, i ≤ j → j < r.size → (r.status i).lastAccess ≤ (r.status j).lastAccess

theorem ascending_of_size (h : r.size = 0) : r.Ascending 0 where
  le_now i := (lastAccess_of_size_le (h ▸ Nat.zero_le i)).le
  mono _ hj := by omega

/-- Entries are made, not before, and none is used again. -/
theorem Ascending.after (h : r.Ascending limit) (hnow : limit ≤ now)
    (hdates : Dates now n (List.range' r.size n) r r') : r'.Ascending now := by
  have hle : ∀ i, (r'.status i).lastAccess ≤ now := by
    intro i
    rw [hdates.lastAccess]
    split
    · exact max_le ((h.le_now i).trans hnow) le_rfl
    · exact (h.le_now i).trans hnow
  refine ⟨hle, fun {i j} hij hj => ?_⟩
  rw [hdates.size] at hj
  by_cases hmade : r.size ≤ j
  · refine (hle i).trans ?_
    rw [hdates.lastAccess j, if_pos (List.mem_range'_1.2 ⟨hmade, hj⟩)]
    exact le_max_right _ _
  · have hold : ∀ k, k ≤ j → k ∉ List.range' r.size n := by
      intro k hk hmem
      have := (List.mem_range'_1.1 hmem).1
      omega
    rw [hdates.lastAccess, hdates.lastAccess, if_neg (hold i hij), if_neg (hold j le_rfl)]
    exact h.mono hij (Nat.lt_of_not_le hmade)

end Register

/-- Where look-ups are not noted, times are in the order of numbers as long as the clock does not go
back. -/
theorem Cache.ReachesInTime.ascending {ok : Moment → Cache → Request Owner Identity → Prop}
    {c : Cache} (h : ReachesInTime ok now us c) (hc : c.notesLookups = false) :
    c.register.Ascending now := by
  induction h with
  | built hb => exact Register.ascending_of_size (size_register_of_build hb)
  | @performed now us c c' m r x hreach hnow hr hx ih =>
    have hreaches := hreach.toUsing.reaches
    have hnotes : c.notesLookups = false :=
      ((Request.perform_notesLookups m r c).of_ok hx).symm.trans hc
    obtain ⟨layout, hconsistent⟩ := hreaches.consistent
    have hdates := (perform_dates r hreaches.sound hreaches.size_register fun hk =>
      hreaches.size_register ▸ hconsistent.serial.lt hk).of_ok hx
    have hmade : c.noted r = r.made c.ledger := by simp [noted, hnotes]
    rw [hmade, Request.seq_made, ← hreaches.size_register] at hdates
    exact (ih hnotes).after hnow hdates
  | @counted now us c a hreach ih =>
    have hregister : (c.count a).register = c.register := register_editLedger c _
    rw [hregister]
    refine ih (Eq.trans ?_ hc)
    cases c <;> rfl

/-! ### Precedence without times -/

/-- One entry comes before another, whenever they were used: what has no owner any more before what has
one, then what costs less, then what was made first. -/
def Entry.Precedes (m : Moment) (e f : Entry) : Prop :=
  (e.isStale m ∧ ¬f.isStale m) ∨ (e.isStale m = f.isStale m ∧
    (e.worth < f.worth ∨ (e.worth = f.worth ∧ e.seq < f.seq)))

/-- If times are in the order of numbers, precedence does not go by them. -/
theorem Vault.precedes_iff {σ : Type} {v : Vault σ} {e f : Entry} (h : v.register.Ascending now)
    (he : e.seq < v.register.size) (hf : f.seq < v.register.size) :
    v.Precedes m e f ↔ e.Precedes m f := by
  have htime : (v.status e).lastAccess < (v.status f).lastAccess ∨
      ((v.status e).lastAccess = (v.status f).lastAccess ∧ e.seq < f.seq) ↔ e.seq < f.seq := by
    constructor
    · rintro (hlt | ⟨-, hlt⟩)
      · refine Nat.lt_of_not_le fun hle => ?_
        exact Nat.not_lt.2 (h.mono hle he) hlt
      · exact hlt
    · intro hlt
      exact (Nat.lt_or_eq_of_le (h.mono hlt.le hf)).imp_right (⟨·, hlt⟩)
  rw [Vault.Precedes, htime, Entry.Precedes]

/-- Where look-ups are not noted, a pass over few entries takes them in the order without times. -/
theorem Sharded.evicts_in_order {ok : Moment → Cache → Request Owner Identity → Prop} {v w : Sharded}
    (hv : Cache.ReachesInTime ok now us (.sharded v)) (hnotes : v.ledger.trackRecency = false)
    (hnow : now ≤ m.now) (hw : Starts m v q w) (hfew : w.store.Few) (protect : Option TileKey) :
    ∃ ranking : List Entry, ranking.Perm (exposed protect w.entries) ∧
      ranking.Pairwise (Entry.Precedes m) ∧
      (evict m protect).Meets w (v.Exact ∧ (Cache.sharded v).HasRoom m q) fun pass w' =>
        Shortest w.ledger.target w.ledger.memoryUsed ranking pass.victims ∧
          w.entries.Perm (pass.victims ++ w'.entries) := by
  have hreaches := hv.toUsing.reaches
  have hsize : v.register.size = v.ledger.nextSeq := hreaches.size_register
  obtain ⟨layout, hconsistent⟩ := hreaches.consistent
  have hb := hw.begins hreaches.sound
  have hserial := hb.serial hconsistent.serial
  have hmade : ∀ {e}, e ∈ w.entries → e.Made := fun he =>
    hb.all_made hreaches.made ((hb.sound.shelf.mem _).1 he)
  have hdates := hw.dates hsize
  have hlt : ∀ {e}, e ∈ w.entries → e.seq < w.register.size := by
    intro e he
    rw [hdates.size, hsize]
    exact hserial.lt ((hb.sound.shelf.mem e).1 he)
  have hascending : w.register.Ascending m.now := by
    rw [Request.seq_made, ← hsize] at hdates
    exact (hv.ascending hnotes).after hnow hdates
  obtain ⟨ranking, hline⟩ := exists_ranking hb.sound hserial m protect
  have hmem : ∀ {e}, e ∈ ranking → e ∈ w.entries := fun he =>
    (mem_exposed.1 (hline.perm.mem_iff.1 he)).1
  refine ⟨ranking, hline.perm, ?_, ?_⟩
  · have hordered := precedes_of_inLine (fun he => hmade (mem_exposed.1 he).1) hline
    exact hordered.imp_of_mem fun he hf =>
      (precedes_iff hascending (hlt (hmem he)) (hlt (hmem hf))).1
  · refine ((Sharded.evict_meets m protect hb.sound).mono hb.fits fun _ _ h => h).and
      (evict_takes hb.sound hfew hline) |>.imp ?_
    rintro pass w' ⟨hrelieves, htakes⟩
    exact ⟨htakes, hrelieves.evicts.perm hb.sound⟩

/-- Two sharded caches were built with the same settings, to keep no track of recency. They are asked the
same at the same moments, but for any look-ups in between, while observers do not call back. Then the other
requests come to the same: they have the same answers, evict the same entries in the same order and tell
observers the same. In the end the caches are the same but for the counts of hits and misses: they hold the
same, noted the same of each entry ever made, and charge the same. Since the histories are any, this is so
after each of these requests. While there is room for what is cached, no request fails.

The last part is about any cache that keeps no track of recency, and came about while the clock did not go
back. Whatever starts a pass, while no more than four shards hold something and none more than eight
entries, what may go has an order without times, and goes in this order until no more is in use than the
target allows. -/
theorem lookups_without_trace {s : Settings} {observers : Nat} {c d : Cache}
    (hc : Cache.build s observers = .ok c) (hd : Cache.build s observers = .ok d)
    (hlayout : s.layout = .sharded) (htrack : s.trackRecency = false) :
    (∀ hs hs' : List (Moment × Request Owner Identity), Request.others hs' = Request.others hs →
      (hs.mapM fun p => p.2.settle p.1 : Mutation Cache (List Upshot)).Alike
        (hs'.mapM fun p => p.2.settle p.1 : Mutation Cache (List Upshot)) c d fun xs c' ys d' =>
          Upshot.others hs' ys = Upshot.others hs xs ∧ d'.unlooked = c'.unlooked ∧
          d'.entries = c'.entries ∧ d'.get? = c'.get? ∧ (∀ e, d'.status e = c'.status e) ∧
          { d'.report with counters := d'.report.counters.unlooked } =
            { c'.report with counters := c'.report.counters.unlooked }) ∧
    (∀ hs : List (Moment × Request Owner Identity),
      Mutation.Along (fun p c => c.HasRoom p.1 p.2) (fun p => p.2.settle p.1) hs c →
      ∃ xs c', (hs.mapM fun p => p.2.settle p.1 : Mutation Cache (List Upshot)).result c =
        (.ok xs, c')) ∧
    ∀ {ok : Moment → Cache → Request Owner Identity → Prop} {now : Nat} {us : List Entry}
      {v w : Sharded} {m : Moment} {q : Request Owner Identity},
      Cache.ReachesInTime ok now us (.sharded v) → v.ledger.trackRecency = false → now ≤ m.now →
      Sharded.Starts m v q w → w.store.Few → ∀ protect, ∃ ranking : List Entry,
        ranking.Perm (exposed protect w.entries) ∧ ranking.Pairwise (Entry.Precedes m) ∧
        (∀ pass w', (Sharded.evict m protect).result w = (.ok pass, w') →
          Shortest w.ledger.target w.ledger.memoryUsed ranking pass.victims ∧
            w.entries.Perm (pass.victims ++ w'.entries)) ∧
        (Cache.Reaches Cache.HasRoom (.sharded v) → Cache.HasRoom m (.sharded v) q →
          ∃ pass w', (Sharded.evict m protect).result w = (.ok pass, w')) := by
  obtain rfl : c = d := Except.ok.inj (hc.symm.trans hd)
  have hnotes : c.notesLookups = false := by
    obtain ⟨-, rfl⟩ := Cache.eq_new_of_build hc
    unfold Cache.new
    rw [hlayout]
    exact htrack
  refine ⟨fun hs hs' hothers => ?_, fun hs => (Cache.Reaches.built hc).settle_all, ?_⟩
  · have hfirst := Cache.alike_others hs (Eq.refl c.unlooked) hnotes
    have hsecond := Cache.alike_others hs' (Eq.refl c.unlooked) hnotes
    rw [hothers] at hsecond
    -- both are compared with the history in which nothing is looked up
    refine ((hfirst.trans ((alike_self _ c).trans hsecond.symm)).imp ?_)
    rintro xs c' ys d' ⟨_, _, ⟨hxs, hleft⟩, _, _, ⟨rfl, rfl⟩, hys, hright⟩
    have hsame : d'.unlooked = c'.unlooked := hright.symm.trans hleft
    have hstatus := congrArg Cache.status hsame
    have hreport := congrArg Cache.report hsame
    rw [Cache.unlooked, Cache.unlooked, Cache.status_edited, Cache.status_edited] at hstatus
    rw [Cache.report_unlooked, Cache.report_unlooked] at hreport
    refine ⟨hys.trans hxs.symm, hsame, ?_, ?_, congrFun hstatus, hreport⟩
    · rw [← Cache.entries_edited (g := Ledger.unlooked) d', ← Cache.entries_edited c']
      exact congrArg Cache.entries hsame
    · rw [← Cache.get?_edited (g := Ledger.unlooked) d', ← Cache.get?_edited c']
      exact congrArg Cache.get? hsame
  · intro ok now us v w m q hv htrack hnow hw hfew protect
    obtain ⟨ranking, hperm, hordered, hpass⟩ := Sharded.evicts_in_order hv htrack hnow hw hfew protect
    refine ⟨ranking, hperm, hordered, fun pass w' hresult => hpass.of_ok hresult, fun hroom hr => ?_⟩
    obtain ⟨pass, w', hresult, -⟩ := hpass.exists_ok ⟨hroom.exact, hr⟩
    exact ⟨pass, w', hresult⟩

/-- Four tiles are cached, and the first one is looked up or not. Either way the fifth one makes the first
two go; and before that, a pass would have taken the first one. -/
theorem lookups_without_trace_first_goes :
    let s : Settings := { capacity := 1500, trackRecency := false }
    let moment (now : Nat) : Moment := ⟨now, fun _ => true⟩
    let add (x : Int32) : Request Owner Identity := .add ⟨0, .hashed 1⟩ ⟨x, 0⟩ ⟨⟨8, 100, 1⟩, 0⟩ none
    let four := [(moment 1, add 0), (moment 2, add 1), (moment 3, add 2), (moment 4, add 3)]
    let looked : List (Moment × Request Owner Identity) := [(moment 5, .get (.hashed 1) ⟨0, 0⟩)]
    let hs := four ++ [(moment 6, add 4)]
    let hs' := four ++ looked ++ [(moment 6, add 4)]
    let c := Cache.new s 0
    let next (c : Cache) (p : Moment × Request Owner Identity) := ((p.2.perform p.1).result c).2
    Cache.build s 0 = .ok c ∧ Request.others hs' = Request.others hs ∧
    (∃ xs c' ys d',
      (hs.mapM fun p => p.2.settle p.1 : Mutation Cache (List Upshot)).result c = (.ok xs, c') ∧
      (hs'.mapM fun p => p.2.settle p.1 : Mutation Cache (List Upshot)).result c = (.ok ys, d') ∧
      xs.map (·.victims.map (·.seq)) = [[], [], [], [], [0, 1]] ∧
      Upshot.others hs' ys = Upshot.others hs xs ∧ d'.entries = c'.entries) ∧
    ∃ v ranking pass w, (four ++ looked).foldl next c = .sharded v ∧
      ranking.Perm (exposed none v.entries) ∧ ranking.Pairwise (Entry.Precedes (moment 7)) ∧
      (Sharded.evict (moment 7) none).result v = (.ok pass, w) ∧ pass.victims <+: ranking ∧
      pass.victims.map (·.seq) = [0] := by
  intro s moment add four looked hs hs' c next
  have hc : Cache.build s 0 = .ok c := rfl
  have hothers : Request.others hs' = Request.others hs := rfl
  obtain ⟨halike, hsettled, hpass⟩ := lookups_without_trace hc hc rfl rfl
  refine ⟨hc, hothers, ?_, ?_⟩
  · obtain ⟨xs, c', hxs⟩ := hsettled hs (by decide +kernel)
    obtain ⟨ys, d', hys⟩ := hsettled hs' (by decide +kernel)
    have hvictims : ((hs.mapM fun p => p.2.settle p.1 : Mutation Cache (List Upshot)).result
        c).1.toOption.map (·.map (·.victims.map (·.seq))) = some [[], [], [], [], [0, 1]] := by
      decide +kernel
    have hsame := halike hs hs' hothers
    unfold Mutation.Alike at hsame
    rw [hxs, hys] at hsame
    rw [hxs] at hvictims
    exact ⟨xs, c', ys, d', hxs, hys, Option.some.inj hvictims, hsame.1, hsame.2.2.1⟩
  · let c₅ := (four ++ looked).foldl next c
    obtain ⟨us, hus⟩ : ∃ us, Cache.ReachesInTime Cache.HasRoom 5 us c₅ := by
      have hnew : Cache.ReachesInTime Cache.HasRoom 0 [] c := .built hc
      refine ⟨_, .next (m := moment 5) (.next (m := moment 4) (.next (m := moment 3)
        (.next (m := moment 2) (.next (m := moment 1) hnew ?_ ?_) ?_ ?_) ?_ ?_) ?_ ?_) ?_ ?_⟩ <;>
        decide +kernel
    have hlayout : c₅.layout = .sharded := by decide +kernel
    have htrack : c₅.ledger.trackRecency = false := by decide +kernel
    have hfour : c₅.entries.length ≤ 4 := by decide +kernel
    have hvictims : ((Cache.evict (moment 7) none).result c₅).1.toOption.map (·.victims.map (·.seq)) =
        some [0] := by decide +kernel
    change ∃ v ranking pass w, c₅ = .sharded v ∧ _
    clear_value c₅
    cases c₅ with
    | linked v => cases hlayout
    | sharded v =>
      have hsound : v.Sound := hus.toUsing.reaches.sound
      have hfew : v.store.Few := hsound.valid.filed.few_of_four hfour
      obtain ⟨ranking, hperm, hordered, htakes, hanswers⟩ :=
        hpass hus htrack (m := moment 7) (by decide) .relieve hfew none
      obtain ⟨pass, w, hresult⟩ := hanswers hus.toUsing.reaches trivial
      have hpass : ((Cache.evict (moment 7) none).result (.sharded v)).1 = .ok pass :=
        congrArg Prod.fst hresult
      rw [hpass] at hvictims
      exact ⟨v, ranking, pass, w, rfl, hperm, hordered, hresult, (htakes pass w hresult).1.first,
        Option.some.inj hvictims⟩

end TileStore
