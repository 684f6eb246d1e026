import TileStore.Proofs.Fate
import TileStore.Proofs.Sharded.Untracked
import TileStore.Proofs.Tally
import Mathlib.Order.Bounds.Basic

/-!
# The life cycle of entries

Every entry that a cache ever makes can be looked at from then on, whether it is cached or not: what
it is of never changes, and its status says when it was last used and what last happened to it.
`life_cycle` says what that is at every instant of a run, also while observers call back. The time is
that of the latest use, and does not go back even if the clock does. The action is how the entry was
written until it is removed or evicted, and then says which of the two; if another entry takes its
place, the action stays as it is. An entry that has left does not come back, and its action does not
change any more.

The proof is by what a run has told so far, `Recounted`: the status of each number is what the
instants up to now come to.
-/

namespace TileStore

variable {q : Request Owner Identity} {e f : Entry} {i : Instant} {past is : List Instant}
  {layout : Layout} {noting : Bool} {c c' : Cache}

/-! ### What is made and found -/

/-- What the look-ups of a request find. -/
def Request.found (g : Tiles) : Request Owner Identity → List Entry
  | .get image p => (g (.of image p)).toList
  | .getAll image points => points.filterMap fun p => g (.of image p)
  | _ => []

theorem Request.get?_of_mem_found {g : Tiles} (h : e ∈ q.found g) : ∃ k, g k = some e := by
  cases q with
  | get image p => exact ⟨_, by simpa [found] using h⟩
  | getAll image points =>
    obtain ⟨p, -, hp⟩ := List.mem_filterMap.1 h
    exact ⟨_, hp⟩
  | _ => cases h

/-- What is noted as used is what is made, and what is found if that is noted. -/
theorem Cache.noted_eq (c : Cache) (q : Request Owner Identity) :
    c.noted q = q.made c.ledger ++ if c.notesLookups then q.found c.get? else [] := by
  unfold noted
  cases q <;> simp [uses, Request.made, Request.found]

namespace Instant

/-- The time of the instant, as the clock has it. -/
def now (i : Instant) : Nat := i.session.scene.moment.now

/-- The entries that are made by what is asked. -/
def made (i : Instant) : List Entry := i.asked.elim [] (·.made i.session.cache.ledger)

/-- The entries that are looked up and found. -/
def found (i : Instant) : List Entry := i.asked.elim [] (·.found i.session.cache.get?)

/-- The entries that are used, where it may be that look-ups are not noted. -/
def dates (noting : Bool) (i : Instant) : List Entry := i.made ++ if noting then i.found else []

theorem mem_dates : e ∈ i.dates noting ↔ e ∈ i.made ∨ noting = true ∧ e ∈ i.found := by
  cases noting <;> simp [dates]

/-- The entry is cached at the instant, or is made or told of by what is asked then. -/
def Shows (i : Instant) (e : Entry) : Prop :=
  (∃ k, i.session.cache.get? k = some e) ∨ e ∈ i.made ∨ ∃ a, (e, a) ∈ i.events

/-- The latest time of some instants. -/
def latest (p : Instant → Prop) [DecidablePred p] (past : List Instant) : Nat :=
  past.foldl (fun t i => if p i then max t i.now else t) 0

theorem latest_concat (p : Instant → Prop) [DecidablePred p] (past : List Instant) (i : Instant) :
    latest p (past ++ [i]) = if p i then max (latest p past) i.now else latest p past :=
  List.foldl_append

theorem le_latest (p : Instant → Prop) [DecidablePred p] (hi : i ∈ past) (hp : p i) :
    i.now ≤ latest p past := by
  induction past using List.reverseRecOn with
  | nil => cases hi
  | append_singleton past j ih =>
    rw [latest_concat]
    rcases List.mem_append.1 hi with hi | hi
    · have hle := ih hi
      split <;> omega
    · obtain rfl := List.mem_singleton.1 hi
      rw [if_pos hp]
      exact Nat.le_max_right _ _

theorem latest_eq (p : Instant → Prop) [DecidablePred p] (past : List Instant) :
    latest p past = 0 ∨ ∃ i ∈ past, p i ∧ i.now = latest p past := by
  induction past using List.reverseRecOn with
  | nil => exact .inl rfl
  | append_singleton past j ih =>
    have hold : latest p past = 0 ∨ ∃ i ∈ past ++ [j], p i ∧ i.now = latest p past :=
      ih.imp_right fun ⟨i, hi, h⟩ => ⟨i, List.mem_append_left _ hi, h⟩
    rw [latest_concat]
    split
    · next hp =>
      rcases Nat.le_total j.now (latest p past) with hle | hle
      · rwa [Nat.max_eq_left hle]
      · rw [Nat.max_eq_right hle]
        exact .inr ⟨j, List.mem_append_right _ (List.mem_singleton_self j), hp, rfl⟩
    · exact hold

theorem isGreatest_latest {p : Instant → Prop} [DecidablePred p] (h : ∃ i ∈ past, p i) :
    IsGreatest {t | ∃ i ∈ past, p i ∧ i.now = t} (latest p past) := by
  constructor
  · rcases latest_eq p past with hzero | hlatest
    · obtain ⟨i, hi, hp⟩ := h
      exact ⟨i, hi, hp, Nat.le_antisymm (le_latest p hi hp) (hzero ▸ Nat.zero_le _)⟩
    · exact hlatest
  · rintro t ⟨i, hi, hp, rfl⟩
    exact le_latest p hi hp

end Instant

/-! ### What a run comes to -/

/-- What the instants up to now come to, and the statuses of all entries by it. -/
structure Recounted (layout : Layout) (noting : Bool) (past : List Instant) (c : Cache) : Prop where
  chronicled : Chronicled layout past c
  written : writtenIn (past.flatMap Instant.events) = past.flatMap Instant.made
  numbered : (past.flatMap Instant.made).map (·.seq) = List.range c.ledger.nextSeq
  size : c.register.size = c.ledger.nextSeq
  notes : c.notesLookups = noting
  dated : ∀ i ∈ past, ∀ e ∈ i.dates noting, e ∈ past.flatMap Instant.made
  lastAccess : ∀ seq, (c.register.status seq).lastAccess =
    Instant.latest (fun i => seq ∈ (i.dates noting).map (·.seq)) past
  action : ∀ seq < c.register.size, (c.register.status seq).action =
    (past.flatMap Instant.events).foldl (Action.noted seq) .added

namespace Recounted

variable {s : Session} {x : Reply × List Notice}

/-- What is found has been made. -/
theorem made_of_get (h : Recounted layout noting past c) {k : TileKey} (hk : c.get? k = some e) :
    e ∈ past.flatMap Instant.made :=
  h.written ▸ (h.chronicled.story.found hk).resolve_left nofun

/-- What is told of has been made. -/
theorem made_of_told (h : Recounted layout noting past c) {y : Event}
    (hy : y ∈ past.flatMap Instant.events) : y.1 ∈ past.flatMap Instant.made :=
  h.written ▸ (h.chronicled.story.found_of_mem hy).resolve_left nofun

theorem seq_lt (h : Recounted layout noting past c) (he : e ∈ past.flatMap Instant.made) :
    e.seq < c.ledger.nextSeq := by
  have hseq := List.mem_map_of_mem (f := (·.seq)) he
  rwa [h.numbered, List.mem_range] at hseq

/-- Entries are known by their numbers. -/
theorem eq_of_seq (h : Recounted layout noting past c) (he : e ∈ past.flatMap Instant.made)
    (hf : f ∈ past.flatMap Instant.made) (hseq : e.seq = f.seq) : e = f :=
  List.inj_on_of_nodup_map (h.numbered ▸ List.nodup_range) he hf hseq

theorem count (h : Recounted layout noting past c) (a : Happening) :
    Recounted layout noting past (c.count a) := by
  have hregister : (c.count a).register = c.register := Cache.register_editLedger c _
  have hnext : (c.count a).ledger.nextSeq = c.ledger.nextSeq := by
    rw [Cache.count, Cache.ledger_editLedger]
    rfl
  have hnotes : (c.count a).notesLookups = c.notesLookups := by cases c <;> rfl
  exact ⟨(trail_chronicled layout).counted a h.chronicled, h.written, hnext ▸ h.numbered,
    by rw [hregister, hnext, h.size], hnotes.trans h.notes, h.dated, hregister ▸ h.lastAccess,
    hregister ▸ h.action⟩

/-- Nothing is asked. -/
theorem idle (h : Recounted layout noting past s.cache) :
    Recounted layout noting (past ++ [⟨s, none⟩]) s.cache := by
  have hmade : (past ++ [(⟨s, none⟩ : Instant)]).flatMap Instant.made =
      past.flatMap Instant.made := by simp [Instant.made]
  have hevents : (past ++ [(⟨s, none⟩ : Instant)]).flatMap Instant.events =
      past.flatMap Instant.events := by simp [Instant.events]
  have hdates : Instant.dates noting ⟨s, none⟩ = [] := by simp [Instant.dates, Instant.made,
    Instant.found]
  refine ⟨(trail_chronicled layout).heeded h.chronicled ⟨rfl, rfl⟩, hevents ▸ hmade ▸ h.written,
    hmade ▸ h.numbered, h.size, h.notes, ?_, fun seq => ?_, hevents ▸ h.action⟩
  · intro i hi e he
    rw [hmade]
    rcases List.mem_append.1 hi with hi | hi
    · exact h.dated i hi e he
    · rw [List.mem_singleton.1 hi, hdates] at he
      cases he
  · rw [h.lastAccess seq, Instant.latest_concat, if_neg]
    rw [hdates]
    exact List.not_mem_nil

/-- Nothing has been told of what is not made yet. -/
theorem untold (h : Recounted layout noting past c) {seq : Nat} (hseq : c.ledger.nextSeq ≤ seq) :
    ∀ x ∈ past.flatMap Instant.events, x.1.seq ≠ seq := by
  intro x hx
  have hlt := h.seq_lt (h.made_of_told hx)
  omega

/-- The numbers of what is made next are the ones that come next. -/
theorem numbered_concat (h : Recounted layout noting past i.session.cache) :
    ((past ++ [i]).flatMap Instant.made).map (·.seq) =
      List.range (i.session.cache.ledger.nextSeq + i.made.length) := by
  have hmade : i.made.map (·.seq) =
      List.range' i.session.cache.ledger.nextSeq i.made.length := by
    obtain ⟨s, _ | q⟩ := i
    · rfl
    · exact q.seq_made _
  rw [List.flatMap_append, List.flatMap_singleton, List.map_append, h.numbered, hmade,
    List.range_eq_range', List.range_eq_range', ← List.range'_append_1, Nat.zero_add]

/-- A request is answered. -/
theorem asked (h : Recounted layout noting past s.cache)
    (hr : (q.perform s.scene.moment).result s.cache = (.ok x, c')) :
    Recounted layout noting (past ++ [⟨s, some q⟩]) c' := by
  let i : Instant := ⟨s, some q⟩
  have hconsistent := h.chronicled.consistent
  have hlt : ∀ {k e}, s.cache.get? k = some e → e.seq < s.cache.register.size := fun hk =>
    h.size ▸ hconsistent.serial.lt hk
  have hrecorded := (Request.perform_recorded s.scene.moment q hconsistent.sound).of_ok hr
  have hdates := (Cache.perform_dates q hconsistent.sound h.size hlt).of_ok hr
  have hmarked := (Request.perform_marked s.scene.moment q hconsistent.sound).of_ok hr
  have hnotes := (Request.perform_notesLookups s.scene.moment q s.cache).of_ok hr
  have hmade : (past ++ [i]).flatMap Instant.made =
      past.flatMap Instant.made ++ q.made s.cache.ledger := by
    rw [List.flatMap_append, List.flatMap_singleton]
    rfl
  have hevents : (past ++ [i]).flatMap Instant.events =
      past.flatMap Instant.events ++ Notice.told x.2 := by
    rw [List.flatMap_append, List.flatMap_singleton, Instant.events_eq hr]
  have hnoted : s.cache.noted q = i.dates noting := by
    rw [Cache.noted_eq, h.notes]
    rfl
  refine ⟨(trail_chronicled layout).heeded h.chronicled ⟨x.1, hr⟩, ?_, ?_, ?_, hnotes.trans h.notes,
    ?_, fun seq => ?_, fun seq hseq => ?_⟩
  · rw [hevents, hmade, writtenIn_append, h.written, hrecorded.written]
  · rw [hrecorded.nextSeq]
    exact numbered_concat (i := i) h
  · rw [hdates.size, h.size, hrecorded.nextSeq]
  · intro j hj e he
    rw [hmade, List.mem_append]
    rcases List.mem_append.1 hj with hj | hj
    · exact .inl (h.dated j hj e he)
    · rw [List.mem_singleton.1 hj, Instant.mem_dates] at he
      refine he.symm.imp (fun hfound => ?_) id
      obtain ⟨k, hk⟩ := Request.get?_of_mem_found hfound.2
      exact h.made_of_get hk
  · rw [hdates.lastAccess, hnoted, h.lastAccess, Instant.latest_concat]
    rfl
  · rw [hmarked.action seq hseq, hevents, List.foldl_append]
    congr 1
    by_cases hold : seq < s.cache.register.size
    · exact h.action seq hold
    · rw [Register.action_of_size_le (by omega),
        Action.foldl_noted_of_ne (h.untold (by rw [← h.size]; omega))]

end Recounted

theorem trail_recounted (layout : Layout) (noting : Bool) : Trail (Recounted layout noting) where
  counted a h := h.count a
  heeded {past s asked notices c'} h hheeds := by
    cases asked with
    | none =>
      obtain ⟨-, rfl⟩ := hheeds
      exact h.idle
    | some q =>
      obtain ⟨reply, hr⟩ := hheeds
      exact h.asked hr

/-- Whether a cache with these settings notes when it finds something. -/
def Settings.notesLookups (s : Settings) : Bool := decide (s.layout = .linked) || s.trackRecency

theorem recounted_of_build {s : Settings} {observers : Nat}
    (hb : Cache.build s observers = .ok c) : Recounted s.layout s.notesLookups [] c := by
  obtain ⟨hlayout, hledger, -, -⟩ := Cache.fresh_of_build hb
  have hsize := Cache.size_register_of_build hb
  have hnext : c.ledger.nextSeq = 0 := by
    rw [hledger]
    rfl
  refine ⟨chronicled_of_build hb, rfl, ?_, hsize.trans hnext.symm, ?_,
    fun i hi => absurd hi List.not_mem_nil, fun seq => ?_, fun seq hseq => ?_⟩
  · rw [hnext]
    rfl
  · cases c with
    | linked v =>
      rw [Settings.notesLookups, ← hlayout]
      rfl
    | sharded v =>
      change v.ledger = _ at hledger
      rw [Settings.notesLookups, ← hlayout, Cache.notesLookups, hledger]
      rfl
  · exact Register.lastAccess_of_size_le (hsize ▸ Nat.zero_le seq)
  · omega

/-! ### Entries -/

/-- How an entry goes by a request: it is removed, or evicted in a pass that the request starts. -/
inductive Cache.Departs (m : Moment) (q : Request Owner Identity) (e : Entry) :
    Cache → Action → Prop where
  | removed {c : Cache} : q.goneAs = .removed → Departs m q e c .removed
  | linked {v w w' : Linked} {used : List Entry} {protect : Option TileKey} {pass : Vault.Pass} :
    Linked.Starts m v q used w → (Linked.evict m protect).result w = (.ok pass, w') →
    e ∈ pass.victims → Departs m q e (.linked v) .evicted
  | sharded {v w w' : Sharded} {protect : Option TileKey} {pass : Vault.Pass} :
    Sharded.Starts m v q w → (Sharded.evict m protect).result w = (.ok pass, w') →
    e ∈ pass.victims → Departs m q e (.sharded v) .evicted

namespace Cache

/-- How every entry that was made in the past is seen now, whether it is cached or not: it was last
used when it was made or found, if that is noted, whichever time is the latest, and it is marked as
its life has it. -/
structure Lived (noting : Bool) (past : List Instant) (c : Cache) : Prop where
  found : ∀ {k e}, c.get? k = some e → e.key = k ∧ e ∈ past.flatMap Instant.made
  lastAccess : ∀ e ∈ past.flatMap Instant.made,
    IsGreatest {t | ∃ i ∈ past, (e ∈ i.made ∨ noting = true ∧ e ∈ i.found) ∧ i.now = t}
      (c.status e).lastAccess
  action : ∀ e ∈ past.flatMap Instant.made,
    Life e (past.flatMap Instant.events) (decide (c.get? e.key = some e)) (c.status e).action

/-- How some entries are seen in a later state: the last use is not earlier, and what has left stays
away and is marked as it was. -/
structure Onward (es : List Entry) (c c' : Cache) : Prop where
  lastAccess : ∀ e ∈ es, (c.status e).lastAccess ≤ (c'.status e).lastAccess
  left : ∀ e ∈ es, c.get? e.key ≠ some e →
    c'.get? e.key ≠ some e ∧ (c'.status e).action = (c.status e).action

end Cache

namespace Recounted

theorem lived (h : Recounted layout noting past c) : c.Lived noting past where
  found hk := ⟨(Cache.Sound.shelf h.chronicled.consistent.sound).key hk, h.made_of_get hk⟩
  lastAccess e he := by
    have hdates : ∀ i ∈ past, e.seq ∈ (i.dates noting).map (·.seq) ↔
        e ∈ i.made ∨ noting = true ∧ e ∈ i.found := by
      intro i hi
      rw [← Instant.mem_dates, List.mem_map]
      constructor
      · rintro ⟨f, hf, hseq⟩
        rwa [← h.eq_of_seq (h.dated i hi f hf) he hseq]
      · exact fun he => ⟨e, he, rfl⟩
    have hset : {t | ∃ i ∈ past, (e ∈ i.made ∨ noting = true ∧ e ∈ i.found) ∧ i.now = t} =
        {t | ∃ i ∈ past, e.seq ∈ (i.dates noting).map (·.seq) ∧ i.now = t} := by
      ext t
      exact exists_congr fun i => and_congr_right fun hi => and_congr_left' (hdates i hi).symm
    rw [hset, Cache.status_eq, h.lastAccess]
    obtain ⟨i, hi, hmade⟩ := List.mem_flatMap.1 he
    exact Instant.isGreatest_latest ⟨i, hi, (hdates i hi).2 (.inl hmade)⟩
  action e he := by
    rw [Cache.status_eq, h.action e.seq (h.size ▸ h.seq_lt he)]
    refine h.chronicled.story.life ?_ (h.written ▸ he)
    rw [h.written, h.numbered]
    exact List.nodup_range

/-- What happens later. -/
theorem onward {more : List Instant} (h : Recounted layout noting past c)
    (h' : Recounted layout noting (past ++ more) c') :
    c.Onward (past.flatMap Instant.made) c' where
  lastAccess e he := by
    have he' : e ∈ (past ++ more).flatMap Instant.made := by
      rw [List.flatMap_append]
      exact List.mem_append_left _ he
    refine (h.lived.lastAccess e he).mono (h'.lived.lastAccess e he') ?_
    rintro t ⟨i, hi, ht⟩
    exact ⟨i, List.mem_append_left _ hi, ht⟩
  left e he hgone := by
    have hstory := h'.chronicled.story
    rw [List.flatMap_append] at hstory
    obtain ⟨g, hbefore, hstory⟩ := hstory.of_append
    obtain rfl := hbefore.unique h.chronicled.story
    have hn : ∀ {k f}, c.get? k = some f → f.seq ≠ e.seq := by
      intro k f hk hseq
      obtain rfl := h.eq_of_seq (h.made_of_get hk) he hseq
      exact hgone ((h.lived.found hk).1 ▸ hk)
    have hnew : ∀ f ∈ writtenIn (more.flatMap Instant.events), f.seq ≠ e.seq := by
      have hnodup : ((writtenIn ((past ++ more).flatMap Instant.events)).map (·.seq)).Nodup := by
        rw [h'.written, h'.numbered]
        exact List.nodup_range
      rw [List.flatMap_append, writtenIn_append, h.written, List.map_append] at hnodup
      intro f hf hseq
      exact (List.nodup_append.1 hnodup).2.2 _ (List.mem_map_of_mem he) _ (List.mem_map_of_mem hf)
        hseq.symm
    obtain ⟨hend, hnone⟩ := hstory.left hn hnew
    refine ⟨fun hk => hend hk rfl, ?_⟩
    have hlt := h.seq_lt he
    have hle : c.ledger.nextSeq ≤ c'.ledger.nextSeq := by
      have hlength := congrArg List.length h'.numbered
      have hlength' := congrArg List.length h.numbered
      rw [List.length_map, List.length_range] at hlength hlength'
      rw [List.flatMap_append, List.length_append] at hlength
      omega
    rw [Cache.status_eq, Cache.status_eq, h.action _ (by rw [h.size]; exact hlt),
      h'.action _ (by rw [h'.size]; omega), List.flatMap_append, List.foldl_append,
      Action.foldl_noted_of_ne hnone]

end Recounted

/-! ### Departures -/

theorem Notice.mem_victims {ns : List Notice} : e ∈ victims ns ↔ (e, .evicted) ∈ told ns := by
  unfold victims told
  simp only [List.mem_filterMap]
  refine exists_congr fun n => and_congr_right fun _ => ?_
  rcases n with line | a | ⟨f, a⟩
  · simp
  · simp
  · cases a <;> simp

theorem Request.goneAs_eq (q : Request Owner Identity) :
    q.goneAs = .removed ∨ q.goneAs = .evicted := by
  cases q <;> simp [goneAs]

/-- Whatever goes by a request is removed by one that removes, or evicted in a pass. -/
theorem Request.perform_departs (m : Moment) (q : Request Owner Identity) (h : c.Sound) :
    (q.perform m).Meets c False fun x _ => ∀ y ∈ Notice.told x.2,
      y.2.isWrite = true ∨ Cache.Departs m q y.1 c y.2 := by
  have hannounces := perform_announces m q c
  have hevicted : (q.perform m).Meets c False fun x _ => ∀ e ∈ Notice.victims x.2,
      Cache.Departs m q e c .evicted := by
    cases c with
    | linked v =>
      refine (Linked.exists_starts m q h).imp fun x _ hx e he => ?_
      obtain ⟨used, w, protect, pass, w', hstarts, hpass, he⟩ := hx e he
      exact .linked hstarts hpass he
    | sharded v =>
      refine (Sharded.exists_starts m q h).imp fun x _ hx e he => ?_
      obtain ⟨w, protect, pass, w', hstarts, hpass, he⟩ := hx e he
      exact .sharded hstarts hpass he
  refine (hannounces.and hevicted).imp ?_
  rintro x c' ⟨hann, hev⟩ ⟨e, a⟩ hy
  refine (hann.of_mem_told hy).imp_right fun ha => ?_
  obtain rfl : a = q.goneAs := ha
  rcases q.goneAs_eq with hgone | hgone
  · rw [hgone]
    exact .removed hgone
  · rw [hgone] at hy ⊢
    exact hev e (Notice.mem_victims.2 hy)

/-- What is seen at an instant has been made by then. -/
theorem Recounted.made_of_shows (h : Recounted layout noting past i.session.cache)
    (hi : i.Shows e) : e ∈ (past ++ [i]).flatMap Instant.made := by
  rcases hi with ⟨k, hk⟩ | hmade | ⟨a, hevent⟩
  · rw [List.flatMap_append]
    exact List.mem_append_left _ (h.made_of_get hk)
  · rw [List.flatMap_append, List.flatMap_singleton]
    exact List.mem_append_right _ hmade
  · obtain ⟨s, _ | q⟩ := i
    · cases hevent
    rcases hr : (q.perform s.scene.moment).result s.cache with ⟨fault | x, c'⟩
    · simp [Instant.events, hr] at hevent
    · refine (h.asked hr).made_of_told (y := (e, a)) ?_
      rw [List.flatMap_append, List.flatMap_singleton]
      exact List.mem_append_right _ hevent

/-- Entries that are seen along the way and have the same number are the same. -/
theorem Throughout.eq_of_shows (h : Throughout (Recounted layout noting) [] is) {i j : Instant}
    (hi : i ∈ is) (hj : j ∈ is) (he : i.Shows e) (hf : j.Shows f) (hseq : e.seq = f.seq) :
    e = f := by
  have hmade : ∀ {i e}, i ∈ is → i.Shows e → e ∈ is.flatMap Instant.made := by
    intro i e hi he
    obtain ⟨before, after, rfl⟩ := List.append_of_mem hi
    have hbefore := h.before.made_of_shows he
    rw [List.nil_append] at hbefore
    rw [List.append_cons, List.flatMap_append]
    exact List.mem_append_left _ hbefore
  have hnodup : ((is.flatMap Instant.made).map (·.seq)).Nodup := by
    rcases is.eq_nil_or_concat with rfl | ⟨before, last, rfl⟩
    · exact .nil
    · rw [List.concat_eq_append] at h ⊢
      have hlast := h.before
      rw [List.nil_append] at hlast
      rw [hlast.numbered_concat]
      exact List.nodup_range
  exact List.inj_on_of_nodup_map hnodup (hmade hi he) (hmade hj hf) hseq

/-! ### Runs -/

/-- In every run of a cache that was built, whatever observers call back with, the status of each
entry that was ever made tells of its life, at every instant and at the end, and goes on from each
instant to every later one and to the end. A number stands for the same entry all along. What is told
at an instant is what is done then, and what goes is removed on request or evicted in a pass. -/
theorem life_cycle {ρ : Type} {s : Settings} {observers : Nat} {c : Cache}
    (hb : Cache.build s observers = .ok c) (scene : Scene) (audience : Audience ρ)
    (allowance depth : Nat) (cs : Script) :
    let r : Run ρ := { session := ⟨scene, c⟩, allowance := allowance }
    let r' := Run.carryOut audience depth cs r
    let is := Run.met audience depth cs r
    (∀ before i after, is = before ++ i :: after →
      i.session.cache.Lived s.notesLookups before ∧
      (∀ j ∈ after, i.session.cache.Onward (before.flatMap Instant.made) j.session.cache) ∧
      (r'.fault = none →
        i.session.cache.Onward (before.flatMap Instant.made) r'.session.cache)) ∧
    (r'.fault = none → r'.session.cache.Lived s.notesLookups is) ∧
    (∀ i ∈ is, ∀ j ∈ is, ∀ e f, i.Shows e → j.Shows f → e.seq = f.seq → e = f) ∧
    ∀ i ∈ is, ∀ q, i.asked = some q →
      (q.perform i.session.scene.moment).Meets i.session.cache False fun _ c' =>
        Tiles.Story i.session.cache.get? i.events c'.get? ∧ writtenIn i.events = i.made ∧
          ∀ x ∈ i.events, x.2.isWrite = true ∨
            Cache.Departs i.session.scene.moment q x.1 i.session.cache x.2 := by
  intro r r' is
  have hfollows : Run.Follows audience (Recounted s.layout s.notesLookups) (fun _ => False) [] r is
      r' :=
    Run.follows_carryOut (trail_recounted s.layout s.notesLookups) (fun _ _ => id)
      (fun _ _ _ => False.elim) depth [] cs r fun _ => recounted_of_build hb
  have hthroughout := hfollows.throughout
  have hbefore : ∀ before i after, is = before ++ i :: after →
      Recounted s.layout s.notesLookups before i.session.cache := by
    intro before i after hsplit
    rw [hsplit] at hthroughout
    exact hthroughout.before
  refine ⟨fun before i after hsplit => ?_, fun hf => (hfollows.on hf).lived,
    fun i hi j hj e f => hthroughout.eq_of_shows hi hj, fun i hi q hasked => ?_⟩
  · have hnow := hbefore before i after hsplit
    refine ⟨hnow.lived, fun j hj => ?_, fun hf => hnow.onward (hsplit ▸ hfollows.on hf)⟩
    obtain ⟨mid, rest, rfl⟩ := List.append_of_mem hj
    exact hnow.onward (hbefore (before ++ i :: mid) j rest (hsplit.trans (by simp)))
  · obtain ⟨before, after, hsplit⟩ := List.append_of_mem hi
    have hsound := (hbefore before i after hsplit).chronicled.consistent.sound
    obtain ⟨session, _⟩ := i
    obtain rfl : _ = some q := hasked
    refine ((Request.perform_events q hsound).and
      (Request.perform_departs session.scene.moment q hsound)).and_result.imp ?_
    rintro ⟨reply, notices⟩ c' ⟨⟨⟨hstory, hwritten, -⟩, hdeparts⟩, hr⟩
    rw [← Instant.events_eq hr] at hdeparts
    exact ⟨hstory, hwritten, hdeparts⟩

/-- Two tiles are cached together, and whoever hears of the first takes the other out before that is
announced. Then the clock is set back and the first is looked up. -/
theorem life_cycle_called_back :
    let s : Settings := { layout := .linked, diagnostics := true }
    let scene : Scene := { owners := ({} : Std.TreeMap String Owner).insert "a" ⟨0, .hashed 1⟩ }
    let audience : Audience Unit := {
      view _ _ := ()
      react _ _ := some [.request (.remove (.given (.hashed 1)) ⟨1, 0⟩)] }
    let payload : Payload := ⟨⟨8, 100, 1⟩, 0⟩
    let cs : Script := [.advance 5000,
      .request (.addBatch "a" [.origin, ⟨1, 0⟩] [payload, payload] none),
      .advance (-3000), .request (.get (.given (.hashed 1)) .origin)]
    let r : Run Unit := { session := ⟨scene, Cache.new s 1⟩, allowance := 1 }
    let is := Run.met audience 1 cs r
    let c := (Run.carryOut audience 1 cs r).session.cache
    let first : Entry := .new ⟨0, .hashed 1⟩ .origin payload none s.overhead 0
    let second : Entry := .new ⟨0, .hashed 1⟩ ⟨1, 0⟩ payload none s.overhead 1
    Cache.build s 1 = .ok (Cache.new s 1) ∧ (Run.carryOut audience 1 cs r).fault = none ∧
      is.flatMap Instant.made = [first, second] ∧
      c.status first = ⟨5, .added⟩ ∧ (c.status second).action = .removed ∧
      IsGreatest {t | ∃ i ∈ is, (first ∈ i.made ∨ first ∈ i.found) ∧ i.now = t} 5 ∧
      Life first (is.flatMap Instant.events) true .added ∧
      Life second (is.flatMap Instant.events) false .removed := by
  intro s scene audience payload cs r is c first second
  have hbuild : Cache.build s 1 = .ok (Cache.new s 1) := rfl
  have hfault : (Run.carryOut audience 1 cs r).fault = none := by decide +kernel
  have hmade : is.flatMap Instant.made = [first, second] := by decide +kernel
  have hfirst : c.status first = ⟨5, .added⟩ := by decide +kernel
  have hsecond : (c.status second).action = .removed := by decide +kernel
  have hcached : c.get? first.key = some first ∧ c.get? second.key = none := by decide +kernel
  have hcycle := life_cycle hbuild scene audience 1 1 cs
  have hend := hcycle.2.1 hfault
  have hlived : c.Lived s.notesLookups is := by with_reducible exact hend
  have hnotes : s.notesLookups = true := rfl
  have hlast := hlived.lastAccess first (by simp [hmade])
  have hlife := hlived.action first (by simp [hmade])
  have hother := hlived.action second (by simp [hmade])
  rw [hfirst] at hlast hlife
  rw [decide_eq_true hcached.1] at hlife
  rw [hsecond, hcached.2] at hother
  simp only [hnotes, true_and] at hlast
  exact ⟨hbuild, hfault, hmade, hfirst, hsecond, hlast, hlife, hother⟩

end TileStore
