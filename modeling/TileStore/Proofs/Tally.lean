import TileStore.Proofs.Agenda
import TileStore.Proofs.Counting
import TileStore.Proofs.Refinement

/-!
# Counters are exact

What is asked of a cache along a run says what its counters should show: a `Tally` of what happened
since the last reset while counting was enabled. The counters show it, `counters_exact`, if
observers do not call back. If they do, notices of an outer command are worked off after those of
the inner ones, and may find the switch in another position than their own command did; but if
counting is enabled all along, only the order differs, and the counters are as exact when all is
done. Then every entry that was inserted is still cached, or was removed or evicted once.

The proof is by what remains to be counted: at every point of a run the counters come to the tally
so far once the agenda is worked off, `Tallied`.
-/

namespace TileStore

/-! ### What happens at an instant -/

namespace Instant

/-- Whether each look-up that is asked finds something. -/
def lookups (i : Instant) : List Bool := i.asked.elim [] (·.lookups i.session.cache.get?)

/-- How much happens. -/
def happenings (i : Instant) : Counts := .ofLookups i.lookups + .ofEvents i.events

/-- The instant leaves the switch and the counts alone. -/
def Steady (i : Instant) : Prop := i.asked ≠ some .disable ∧ i.asked ≠ some .reset

instance (i : Instant) : Decidable i.Steady :=
  decidable_of_iff ((i.asked matches some .disable | some .reset) = false) <| by
    obtain ⟨s, _ | q⟩ := i
    · simp [Steady]
    · cases q <;> simp [Steady]

end Instant

/-- What should have been counted. -/
structure Tally where
  enabled : Bool
  counts : Counts := {}

namespace Tally

/-- The tally after one more instant. -/
def after (t : Tally) (i : Instant) : Tally :=
  match i.asked with
  | none => t
  | some .enable => { t with enabled := true }
  | some .disable => { t with enabled := false }
  | some .reset => { t with counts := {} }
  | some _ => if t.enabled then { t with counts := t.counts + i.happenings } else t

/-- The tally of these instants. -/
def of (enabled : Bool) (is : List Instant) : Tally := is.foldl after ⟨enabled, {}⟩

/-- The counters that show it. -/
def words (t : Tally) : Counters where
  enabled := t.enabled
  hits := .ofNat t.counts.hits
  misses := .ofNat t.counts.misses
  inserts := .ofNat t.counts.inserts
  updates := .ofNat t.counts.updates
  removals := .ofNat t.counts.removals
  evictions := .ofNat t.counts.evictions

end Tally

/-- What the counters show. -/
def Counters.counts (c : Counters) : Counts where
  hits := c.hits.toNat
  misses := c.misses.toNat
  inserts := c.inserts.toNat
  updates := c.updates.toNat
  removals := c.removals.toNat
  evictions := c.evictions.toNat

namespace Tally

variable {t : Tally} {i : Instant} {is : List Instant} {on : Bool}

/-- Counters that show a tally show it exactly while it is small. -/
theorem counts_words (h : t.counts.total < 2 ^ 64) : t.words.counts = t.counts := by
  have hsmall : ∀ {n}, n ≤ t.counts.total → (UInt64.ofNat n).toNat = n := fun hn =>
    UInt64.toNat_ofNat_of_lt' (Nat.lt_of_le_of_lt hn h)
  unfold Counts.total at hsmall
  refine Counts.ext (hsmall ?_) (hsmall ?_) (hsmall ?_) (hsmall ?_) (hsmall ?_) (hsmall ?_) <;> omega

theorem words_plus (t : Tally) (n : Counts) :
    t.words.plus n = (if t.enabled then { t with counts := t.counts + n } else t).words := by
  rcases h : t.enabled with _ | _
  · exact Counters.plus_of_disabled h n
  · have hadd : (t.counts + n : Counts) = ⟨t.counts.hits + n.hits, t.counts.misses + n.misses,
        t.counts.inserts + n.inserts, t.counts.updates + n.updates, t.counts.removals + n.removals,
        t.counts.evictions + n.evictions⟩ := rfl
    simp [Counters.plus, words, h, hadd, UInt64.ofNat_add]

theorem of_append (on : Bool) (is : List Instant) (i : Instant) :
    of on (is ++ [i]) = (of on is).after i :=
  List.foldl_concat _ _ _ _

theorem after_of_asked_none (h : i.asked = none) : t.after i = t := by
  unfold after
  rw [h]

theorem after_of_asked {q : Request Owner Identity} (h : i.asked = some q)
    (hq : q ≠ .enable ∧ q ≠ .disable ∧ q ≠ .reset) :
    t.after i = if t.enabled then { t with counts := t.counts + i.happenings } else t := by
  unfold after
  rw [h]
  cases q with
  | enable => exact absurd rfl hq.1
  | disable => exact absurd rfl hq.2.1
  | reset => exact absurd rfl hq.2.2
  | _ => rfl

end Tally

/-! ### What is counted at an instant -/

section Counted

variable {s : Session} {q : Request Owner Identity} {notices : List Notice} {c' : Cache}

/-- Once its notices are worked off, what a request does has been counted. -/
theorem Cache.Heeds.counted (h : s.cache.Sound)
    (hheeds : s.cache.Heeds s.scene.moment (some q) notices c')
    (hq : q ≠ .enable ∧ q ≠ .disable ∧ q ≠ .reset) :
    (Notice.counted notices).foldl Counters.count c'.ledger.counters =
      s.cache.ledger.counters.plus (Instant.happenings ⟨s, some q⟩) := by
  obtain ⟨reply, hr⟩ := hheeds
  have hannounces := (Request.perform_announces s.scene.moment q s.cache).of_ok hr
  have hcounters := (Request.perform_counters s.scene.moment h hq).of_ok hr
  rw [hannounces.foldl_count, hcounters, Instant.happenings, Instant.events_eq hr, Counters.plus_add]
  rfl

/-- A request about the counters changes them and leaves no notices. -/
theorem Request.editCounters_heeds {c : Cache} {f : Counters → Counters} {x : Reply × List Notice}
    (hr : (editCounters f).result c = (.ok x, c')) :
    x.2 = [] ∧ c'.ledger.counters = f c.ledger.counters := by
  have hmeets : (editCounters f).Meets c False fun x c' =>
      x.2 = [] ∧ c'.ledger.counters = f c.ledger.counters := by
    refine Mutation.meets_bind.2 (Mutation.meets_modify.2 (Mutation.meets_pure.2 ⟨rfl, ?_⟩))
    rw [Cache.ledger_editLedger]
  exact hmeets.of_ok hr

end Counted

/-! ### What remains to be counted -/

/-- The happenings on an agenda. -/
def Agenda.counted (agenda : Agenda) : List Happening :=
  agenda.flatten.filterMap fun
    | .notice (.count h) => some h
    | _ => none

theorem Agenda.counted_notices (ns : List Notice) (outer : Agenda) :
    counted (ns.map .notice :: outer) = Notice.counted ns ++ counted outer := by
  unfold counted Notice.counted
  rw [List.flatten_cons, List.filterMap_append, List.filterMap_map]
  congr 1
  refine List.filterMap_congr fun n _ => ?_
  cases n <;> rfl

/-- Observers do not call back, or counting is enabled all along. -/
def Orderly {ρ : Type} (audience : Audience ρ) (on : Bool) (is : List Instant) : Prop :=
  audience.Quiet ∨ on = true ∧ ∀ i ∈ is, i.Steady

/-- Once the agenda is worked off, the counters show the tally. If observers are quiet, there is but
one level. -/
structure Tallied {ρ : Type} (audience : Audience ρ) (layout : Layout) (on : Bool)
    (past : List Instant) (agenda : Agenda) (c : Cache) : Prop where
  consistent : c.Consistent layout
  quiet : audience.Quiet → agenda.tail = []
  counters : Orderly audience on past →
    agenda.counted.foldl Counters.count c.ledger.counters = (Tally.of on past).words

section Upholds

variable {ρ : Type} {audience : Audience ρ} {layout : Layout} {on : Bool} {past : List Instant}
  {agenda agenda' outer : Agenda} {c c' : Cache} {s : Session} {notices : List Notice}

theorem Orderly.left {i : Instant} (h : Orderly audience on (past ++ [i])) :
    Orderly audience on past :=
  h.imp_right fun ⟨hon, hsteady⟩ => ⟨hon, fun j hj => hsteady j (List.mem_append_left _ hj)⟩

theorem Counters.enabled_foldl_count (c : Counters) (hs : List Happening) :
    (hs.foldl count c).enabled = c.enabled := by
  induction hs generalizing c with
  | nil => rfl
  | cons h hs ih => exact (ih _).trans (enabled_count c h)

/-- While nothing disables counting it stays enabled. -/
theorem Tally.enabled_of_steady {is : List Instant} {t : Tally} (ht : t.enabled = true)
    (h : ∀ i ∈ is, i.Steady) : (is.foldl after t).enabled = true := by
  induction is generalizing t with
  | nil => exact ht
  | cons i is ih =>
    refine ih ?_ fun j hj => h j (List.mem_cons_of_mem i hj)
    have hi := h i List.mem_cons_self
    unfold after
    split
    · exact ht
    · rfl
    · next hasked => exact absurd hasked hi.1
    · exact ht
    · split <;> exact ht

/-- A request about the counters changes them and the tally alike while nothing is left to be
counted, or it changes neither. -/
theorem Tallied.switched {i : Instant} {f : Counters → Counters} {t : Tally}
    (h : Tallied audience layout on past ([] :: outer) c)
    (horderly : Orderly audience on (past ++ [i]))
    (hc : notices = [] ∧ c'.ledger.counters = f c.ledger.counters)
    (hwords : t.words = f (Tally.of on past).words)
    (hsteady : on = true ∧ (∀ j ∈ past ++ [i], j.Steady) →
      f c.ledger.counters = c.ledger.counters ∧ t = Tally.of on past) :
    (Agenda.counted outer).foldl Counters.count
      ((Notice.counted notices).foldl Counters.count c'.ledger.counters) = t.words := by
  have hcounters := h.counters horderly.left
  obtain ⟨rfl, hc⟩ := hc
  rcases horderly with hquiet | hs
  · obtain rfl : outer = [] := h.quiet hquiet
    rw [hwords, ← hcounters]
    exact hc
  · obtain ⟨hsame, rfl⟩ := hsteady hs
    rw [← hcounters, ← hsame, ← hc]
    rfl

/-- While counting stays enabled, so it is in the cache. -/
theorem Tallied.enabled_of_steady (h : Tallied audience layout on past agenda c) (hon : on = true)
    (hsteady : ∀ i ∈ past, i.Steady) :
    c.ledger.counters.enabled = true ∧ (Tally.of on past).enabled = true := by
  have htally : (Tally.of on past).enabled = true := Tally.enabled_of_steady hon hsteady
  have henabled := congrArg Counters.enabled (h.counters (.inr ⟨hon, hsteady⟩))
  rw [Counters.enabled_foldl_count] at henabled
  exact ⟨henabled.trans htally, htally⟩

/-- Something is asked at a level at which nothing is left to do. -/
theorem Tallied.asked {asked : Option (Request Owner Identity)}
    (h : Tallied audience layout on past ([] :: outer) s.cache)
    (hheeds : s.cache.Heeds s.scene.moment asked notices c') :
    Tallied audience layout on (past ++ [⟨s, asked⟩]) (notices.map .notice :: outer) c' := by
  refine ⟨h.consistent.heeded hheeds, h.quiet, fun horderly => ?_⟩
  have hcounters : (Agenda.counted outer).foldl Counters.count s.cache.ledger.counters =
      (Tally.of on past).words := h.counters horderly.left
  rw [Agenda.counted_notices, List.foldl_append, Tally.of_append]
  rcases asked with _ | q
  · obtain ⟨rfl, rfl⟩ := hheeds
    rw [Tally.after_of_asked_none rfl]
    exact hcounters
  · have hlast : (⟨s, some q⟩ : Instant) ∈ past ++ [⟨s, some q⟩] :=
      List.mem_append_right _ List.mem_cons_self
    have hother : q ≠ .enable ∧ q ≠ .disable ∧ q ≠ .reset →
        (Agenda.counted outer).foldl Counters.count
          ((Notice.counted notices).foldl Counters.count c'.ledger.counters) =
        ((Tally.of on past).after ⟨s, some q⟩).words := by
      intro hq
      rw [hheeds.counted h.consistent.sound hq, Counters.foldl_count_plus, hcounters,
        Tally.after_of_asked rfl hq, Tally.words_plus]
    obtain ⟨reply, hr⟩ := hheeds
    cases q with
    | enable =>
      refine h.switched (f := (·.enable)) horderly (Request.editCounters_heeds hr) rfl
        fun ⟨hon, hsteady⟩ => ?_
      obtain ⟨hcache, htally⟩ := h.enabled_of_steady hon fun i hi => hsteady i (List.mem_append_left _ hi)
      exact ⟨congrArg (fun b => { s.cache.ledger.counters with enabled := b }) hcache.symm,
        congrArg (fun b => { Tally.of on past with enabled := b }) htally.symm⟩
    | disable =>
      exact h.switched (f := (·.disable)) horderly (Request.editCounters_heeds hr) rfl
        fun ⟨_, hsteady⟩ => absurd rfl (hsteady _ hlast).1
    | reset =>
      exact h.switched (f := (·.reset)) horderly (Request.editCounters_heeds hr) rfl
        fun ⟨_, hsteady⟩ => absurd rfl (hsteady _ hlast).2
    | _ => exact hother ⟨nofun, nofun, nofun⟩

/-- What is done beside counting makes no difference. -/
theorem Tallied.congr (h : Tallied audience layout on past agenda c)
    (hc : agenda'.counted = agenda.counted) (ht : agenda.tail = [] → agenda'.tail = []) :
    Tallied audience layout on past agenda' c :=
  ⟨h.consistent, fun hq => ht (h.quiet hq), fun horderly => hc ▸ h.counters horderly⟩

theorem Tallied.idle (h : Tallied audience layout on past agenda s.cache) :
    Tallied audience layout on (past ++ [⟨s, none⟩]) agenda s.cache := by
  refine ⟨h.consistent, h.quiet, fun horderly => ?_⟩
  rw [Tally.of_append, Tally.after_of_asked_none rfl]
  exact h.counters horderly.left

theorem upholds_tallied (audience : Audience ρ) (layout : Layout) (on : Bool) :
    Upholds audience fun past agenda c _ => Tallied audience layout on past agenda c where
  asked h hheeds := h.asked hheeds
  log h := h.congr rfl id
  count {past x own outer c j} h := by
    refine ⟨h.consistent.count x, h.quiet, fun horderly => ?_⟩
    rw [Cache.count, Cache.ledger_editLedger]
    exact h.counters horderly
  untold h _ := h.congr rfl id
  told h _ := h.congr rfl id
  visited h := h.idle.congr rfl id
  opened {past o os e a own outer s j cs} h hreact := by
    have hnot : ¬audience.Quiet := fun hq => by simp [hq _ _] at hreact
    exact ⟨h.consistent, fun hq => absurd hq hnot, h.idle.counters⟩
  closed {past own outer c j} h := by
    refine ⟨h.consistent, fun hq => ?_, h.counters⟩
    cases h.quiet hq
  reacted _ h := h
  finished h := h.congr rfl id

end Upholds

/-! ### What became of all entries -/

theorem Request.proper_made (l : Ledger) (q : Request Owner Identity) : ∀ e ∈ q.made l, e.Proper := by
  cases q with
  | add owner p payload cost =>
    intro e he
    rw [List.mem_singleton.1 he]
    exact Entry.proper_new owner p payload cost l.overhead l.nextSeq
  | addBatch owner points payloads costs =>
    exact fun _ he => (Vault.of_mem_madeFrom he).1
  | _ => exact fun _ he => absurd he List.not_mem_nil

/-- Entries that were written are counted as inserts and updates. -/
theorem length_writtenIn (xs : List Event) :
    (writtenIn xs).length = (Counts.ofEvents xs).inserts + (Counts.ofEvents xs).updates := by
  induction xs with
  | nil => rfl
  | cons x xs ih =>
    obtain ⟨e, a⟩ := x
    rw [writtenIn_cons]
    cases a <;> simp [Action.isWrite, Counts.ofEvents] at ih ⊢ <;> omega

/-- Whatever is inserted is there in the end, or has gone once. -/
theorem Tiles.Story.balance {g g' : Tiles} {xs : List Event} {es : List Entry} (h : g.Story xs g')
    (hs : Shelf g es) (hp : ∀ e ∈ writtenIn xs, e.Proper) :
    ∃ es', Shelf g' es' ∧ es'.length + (Counts.ofEvents xs).removals + (Counts.ofEvents xs).evictions =
      es.length + (Counts.ofEvents xs).inserts := by
  induction h generalizing es with
  | nil g => exact ⟨es, hs, rfl⟩
  | @cons g g₁ g' x xs hx _ ih =>
    have hrest : ∀ e ∈ writtenIn xs, e.Proper := fun e he => hp e <| by
      rw [writtenIn_cons]
      split
      · exact List.mem_cons_of_mem _ he
      · exact he
    cases hx with
    | write e =>
      have hproper : e.Proper := hp e (by simp [writtenIn_cons])
      have hsplit := (hs.perm_split e.key).length_eq
      obtain ⟨es', hs', hbalance⟩ := ih (hs.put hproper) hrest
      refine ⟨es', hs', ?_⟩
      rcases hk : g e.key with _ | f <;> rw [hk] at hsplit <;>
        simp [Counts.ofEvents, Action.ofWrite] at hsplit hbalance ⊢ <;> omega
    | @gone e a ha hk =>
      have hsplit := (hs.perm_split e.key).length_eq
      obtain ⟨es', hs', hbalance⟩ := ih (hs.drop e.key) hrest
      refine ⟨es', hs', ?_⟩
      rw [hk] at hsplit
      cases a with
      | added | updated => cases ha
      | removed | evicted => simp [Counts.ofEvents] at hsplit hbalance ⊢; omega

/-- The events of a run tell all that became of entries. -/
structure Chronicled (layout : Layout) (past : List Instant) (c : Cache) : Prop where
  consistent : c.Consistent layout
  story : Tiles.Story (fun _ => none) (past.flatMap Instant.events) c.get?
  proper : ∀ e ∈ writtenIn (past.flatMap Instant.events), e.Proper
  nextSeq : c.ledger.nextSeq = (writtenIn (past.flatMap Instant.events)).length

theorem trail_chronicled (layout : Layout) : Trail (Chronicled layout) where
  counted x h := by
    refine ⟨h.consistent.count x, ?_, h.proper, ?_⟩
    · rw [Cache.get?_count]
      exact h.story
    · rw [Cache.count, Cache.ledger_editLedger]
      exact h.nextSeq
  heeded {past s asked notices c'} h hheeds := by
    rcases asked with _ | q
    · obtain ⟨-, rfl⟩ := hheeds
      have hevents : (past ++ [(⟨s, none⟩ : Instant)]).flatMap Instant.events =
          past.flatMap Instant.events := by simp [Instant.events]
      exact ⟨h.consistent, hevents ▸ h.story, hevents ▸ h.proper, hevents ▸ h.nextSeq⟩
    · have hconsistent := h.consistent.heeded hheeds
      obtain ⟨reply, hr⟩ := hheeds
      obtain ⟨hstory, hwritten, hnext, -, -⟩ :=
        (Request.perform_recorded s.scene.moment q h.consistent.sound).of_ok hr
      have hevents : (past ++ [(⟨s, some q⟩ : Instant)]).flatMap Instant.events =
          past.flatMap Instant.events ++ Notice.told notices := by
        rw [List.flatMap_append, List.flatMap_singleton, Instant.events_eq hr]
      refine ⟨hconsistent, hevents ▸ h.story.append hstory, fun e he => ?_, ?_⟩
      · rw [hevents, writtenIn_append, hwritten, List.mem_append] at he
        exact he.elim (h.proper e) (Request.proper_made _ q e)
      · rw [hevents, writtenIn_append, hwritten, List.length_append, hnext, h.nextSeq]

/-- Whatever was inserted is cached, or has gone once. -/
theorem Chronicled.balance {layout : Layout} {past : List Instant} {c : Cache}
    (h : Chronicled layout past c) :
    let n := Counts.ofEvents (past.flatMap Instant.events)
    n.inserts = c.entries.length + n.removals + n.evictions := by
  intro n
  have hnone : Shelf (fun _ => none) [] :=
    ⟨fun _ => iff_of_false List.not_mem_nil nofun, nofun, nofun, .nil⟩
  obtain ⟨es, hshelf, hbalance⟩ := h.story.balance hnone h.proper
  have hlength := (hshelf.perm (Cache.Sound.shelf h.consistent.sound)).length_eq
  rw [List.length_nil, Nat.zero_add] at hbalance
  rw [← hlength]
  exact hbalance.symm

/-- While counting stays enabled, everything is counted. -/
theorem Tally.counts_of_steady {is : List Instant} {t : Tally} (ht : t.enabled = true)
    (h : ∀ i ∈ is, i.Steady) : (is.foldl after t).counts =
      t.counts + (.ofLookups (is.flatMap Instant.lookups) + .ofEvents (is.flatMap Instant.events)) := by
  induction is generalizing t with
  | nil => rfl
  | cons i is ih =>
    have hi := h i List.mem_cons_self
    have hrest : ∀ j ∈ is, j.Steady := fun j hj => h j (List.mem_cons_of_mem i hj)
    have hafter : (t.after i).enabled = true :=
      enabled_of_steady ht fun j (hj : j ∈ [i]) => List.mem_singleton.1 hj ▸ hi
    have hcounts : (t.after i).counts = t.counts + i.happenings := by
      rcases hasked : i.asked with _ | q
      · rw [after_of_asked_none hasked, Instant.happenings, Instant.lookups, Instant.events, hasked]
        rfl
      · rcases Classical.em (q = .enable) with rfl | henable
        · unfold after
          rw [Instant.happenings, Instant.lookups, Instant.events, hasked]
          rfl
        · have hquery : q ≠ .enable ∧ q ≠ .disable ∧ q ≠ .reset :=
            ⟨henable, fun h => hi.1 (h ▸ hasked), fun h => hi.2 (h ▸ hasked)⟩
          rw [after_of_asked hasked hquery, if_pos ht]
    rw [List.foldl_cons, ih hafter hrest, hcounts, Instant.happenings, List.flatMap_cons,
      List.flatMap_cons, Counts.ofLookups_append, Counts.ofEvents_append, Counts.add_shuffle]

/-- If everything was counted, the counters account for all entries that were ever made. -/
theorem Chronicled.conserved {layout : Layout} {is : List Instant} {c : Cache} {on : Bool}
    (h : Chronicled layout is c) (hon : on = true) (hsteady : ∀ i ∈ is, i.Steady)
    (hwords : c.ledger.counters = (Tally.of on is).words) :
    let l := c.ledger
    l.counters.inserts = l.tileCount + l.counters.removals + l.counters.evictions ∧
      ((Tally.of on is).counts.total < 2 ^ 64 →
        l.counters.inserts.toNat =
          l.tileCount.toNat + l.counters.removals.toNat + l.counters.evictions.toNat ∧
        l.counters.inserts.toNat + l.counters.updates.toNat = l.nextSeq) := by
  intro l
  set tally := Tally.of on is
  have hcounts : tally.counts =
      .ofLookups (is.flatMap Instant.lookups) + .ofEvents (is.flatMap Instant.events) :=
    (Tally.counts_of_steady hon hsteady).trans (Counts.zero_add _)
  rw [Counts.ofLookups_add] at hcounts
  have hbalance : tally.counts.inserts =
      c.entries.length + tally.counts.removals + tally.counts.evictions := by
    rw [hcounts]
    exact h.balance
  have hnext : l.nextSeq = tally.counts.inserts + tally.counts.updates := by
    rw [hcounts]
    exact h.nextSeq.trans (length_writtenIn _)
  have htiles : l.tileCount = .ofNat c.entries.length :=
    (Cache.Sound.balanced h.consistent.sound).tileCount
  constructor
  · rw [hwords, htiles]
    change UInt64.ofNat tally.counts.inserts = _
    rw [hbalance, UInt64.ofNat_add, UInt64.ofNat_add]
    rfl
  · intro hsmall
    have hexact : l.counters.counts = tally.counts := by
      rw [hwords]
      exact Tally.counts_words hsmall
    have hfew : c.entries.length < 2 ^ 64 := by
      unfold Counts.total at hsmall
      omega
    have htilesExact : l.tileCount.toNat = c.entries.length := by
      rw [htiles, UInt64.toNat_ofNat_of_lt' hfew]
    rw [← hexact] at hbalance hnext
    exact ⟨htilesExact ▸ hbalance, hnext.symm⟩

/-- The events of an instant tell what is done then, and entries go as the request has it. -/
theorem Request.perform_events {s : Session} (q : Request Owner Identity) (h : s.cache.Sound) :
    let xs := Instant.events ⟨s, some q⟩
    (q.perform s.scene.moment).Meets s.cache False fun _ c' =>
      Tiles.Story s.cache.get? xs c'.get? ∧ writtenIn xs = q.made s.cache.ledger ∧
        ∀ x ∈ xs, x.2.isWrite = true ∨ x.2 = q.goneAs := by
  have hrecorded := perform_recorded s.scene.moment q h
  have hannounces := perform_announces s.scene.moment q s.cache
  refine (hrecorded.and hannounces).and_result.mono id ?_
  rintro ⟨reply, notices⟩ c' ⟨⟨hrec, hann⟩, hr⟩
  rw [Instant.events_eq hr]
  exact ⟨hrec.story, hrec.written, fun x => hann.of_mem_told⟩

/-! ### Runs -/

theorem chronicled_of_build {s : Settings} {observers : Nat} {c : Cache}
    (hb : Cache.build s observers = .ok c) : Chronicled s.layout [] c := by
  obtain ⟨-, hledger, hempty, -⟩ := Cache.fresh_of_build hb
  refine ⟨Cache.consistent_of_build hb, hempty ▸ .nil _, nofun, ?_⟩
  rw [hledger]
  rfl

theorem tallied_of_build {ρ : Type} (audience : Audience ρ) {s : Settings} {observers : Nat}
    {c : Cache} (hb : Cache.build s observers = .ok c) :
    Tallied audience s.layout s.diagnostics [] [[]] c := by
  obtain ⟨-, hledger, -, -⟩ := Cache.fresh_of_build hb
  refine ⟨Cache.consistent_of_build hb, fun _ => rfl, fun _ => ?_⟩
  change c.ledger.counters = _
  rw [hledger]
  rfl

/-- In every run of a cache that was built, what is asked at an instant and answered tells the story
of what it does to the tiles: of each entry that it makes, whether it replaced another one when it
was written, and of each that goes, whether it was removed on request or evicted.

If observers do not call back, the counters come to the tally of these events and of the look-ups,
since the last reset and while counting was enabled, and they show it exactly as long as words can.
If counting is enabled from the start and always, this is so even if observers do call back. Then
everything that was inserted is cached, or was removed or evicted once, and of all entries ever made
the others were replaced. -/
theorem counters_exact {ρ : Type} {s : Settings} {observers : Nat} {c : Cache}
    (hb : Cache.build s observers = .ok c) (scene : Scene) (audience : Audience ρ)
    (allowance depth : Nat) (cs : Script) :
    let r : Run ρ := { session := ⟨scene, c⟩, allowance := allowance }
    let r' := Run.carryOut audience depth cs r
    let is := Run.met audience depth cs r
    let always := s.diagnostics = true ∧ ∀ i ∈ is, i.Steady
    let tally := Tally.of s.diagnostics is
    let l := r'.session.cache.ledger
    (∀ i ∈ is, ∀ q, i.asked = some q →
      (q.perform i.session.scene.moment).Meets i.session.cache False fun _ c' =>
        Tiles.Story i.session.cache.get? i.events c'.get? ∧
          writtenIn i.events = q.made i.session.cache.ledger ∧
          ∀ x ∈ i.events, x.2.isWrite = true ∨ x.2 = q.goneAs) ∧
    (r'.fault = none → ((∀ journal v, audience.react journal v = none) ∨ always) →
      l.counters = tally.words ∧ (tally.counts.total < 2 ^ 64 → l.counters.counts = tally.counts)) ∧
    (r'.fault = none → always →
      l.counters.inserts = l.tileCount + l.counters.removals + l.counters.evictions ∧
      (tally.counts.total < 2 ^ 64 →
        l.counters.inserts.toNat =
          l.tileCount.toNat + l.counters.removals.toNat + l.counters.evictions.toNat ∧
        l.counters.inserts.toNat + l.counters.updates.toNat = l.nextSeq)) := by
  intro r r' is always tally l
  have hfollows : Run.Follows audience (Chronicled s.layout) (fun _ => False) [] r is r' :=
    Run.follows_carryOut (trail_chronicled s.layout) (fun _ _ => id) (fun _ _ _ => False.elim) depth []
      cs r fun _ => chronicled_of_build hb
  have hcounted : Run.Stands (fun past agenda c _ => Tallied audience s.layout s.diagnostics past agenda c)
      (fun _ _ => True) is [[]] r' :=
    Run.stands_carryOut (upholds_tallied audience s.layout s.diagnostics) (fun _ => trivial)
      (fun _ => trivial) depth [] [] cs r
      (Run.stands_of (fun _ => trivial) (tallied_of_build audience hb))
  have hwords : r'.fault = none → (audience.Quiet ∨ always) → l.counters = tally.words :=
    fun hf horderly => (hcounted.holds hf).counters horderly
  refine ⟨fun i hi q hasked => ?_, fun hf horderly => ?_, fun hf halways => ?_⟩
  · obtain ⟨before, after, hsplit⟩ := List.append_of_mem hi
    have hsound := ((hsplit ▸ hfollows.throughout).before).consistent.sound
    obtain ⟨session, _⟩ := i
    obtain rfl : _ = some q := hasked
    exact Request.perform_events q hsound
  · refine ⟨hwords hf horderly, fun hsmall => ?_⟩
    rw [hwords hf horderly]
    exact Tally.counts_words hsmall
  · exact (hfollows.on hf).conserved halways.1 halways.2 (hwords hf (.inr halways))

/-- Two tiles are cached together, and whoever hears of one takes the other out before it is
announced. -/
theorem counters_exact_called_back :
    let s : Settings := { layout := .linked, diagnostics := true }
    let scene : Scene := { owners := ({} : Std.TreeMap String Owner).insert "a" ⟨0, .hashed 1⟩ }
    let audience : Audience Unit := {
      view _ _ := ()
      react _ _ := some [.request (.remove (.given (.hashed 1)) ⟨1, 0⟩)] }
    let payload : Payload := ⟨⟨8, 100, 1⟩, 0⟩
    let cs : Script := [.request (.addBatch "a" [.origin, ⟨1, 0⟩] [payload, payload] none)]
    let r : Run Unit := { session := ⟨scene, Cache.new s 1⟩, allowance := 1 }
    let l := (Run.carryOut audience 1 cs r).session.cache.ledger
    Cache.build s 1 = .ok (Cache.new s 1) ∧ (Run.carryOut audience 1 cs r).fault = none ∧
      (∀ i ∈ Run.met audience 1 cs r, i.Steady) ∧
      l.counters.counts = { inserts := 2, removals := 1 } ∧
      l.counters.inserts = l.tileCount + l.counters.removals + l.counters.evictions := by
  intro s scene audience payload cs r l
  have hbuild : Cache.build s 1 = .ok (Cache.new s 1) := rfl
  have hfault : (Run.carryOut audience 1 cs r).fault = none := by decide +kernel
  have hsteady : ∀ i ∈ Run.met audience 1 cs r, i.Steady := by decide +kernel
  have htally : (Tally.of true (Run.met audience 1 cs r)).counts = { inserts := 2, removals := 1 } := by
    decide +kernel
  have h := counters_exact hbuild scene audience 1 1 cs
  have hcounts := (h.2.1 hfault (.inr ⟨rfl, hsteady⟩)).2
  have hconserved := (h.2.2 hfault ⟨rfl, hsteady⟩).1
  refine ⟨hbuild, hfault, hsteady, ?_, ?_⟩
  · have hsmall : (Tally.of true (Run.met audience 1 cs r)).counts.total < 2 ^ 64 := by
      rw [htally]
      decide
    with_reducible exact (hcounts hsmall).trans htally
  · with_reducible exact hconserved

end TileStore
