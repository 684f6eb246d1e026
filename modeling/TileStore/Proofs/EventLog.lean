import TileStore.Proofs.Numbering
import TileStore.Proofs.Replay

/-!
# The event log is a faithful journal

Observers hear of a call after its changes are made, from notices that were collected along the way;
of a batch, all may be written and some evicted before the first of it is announced. Yet what they
hear can be replayed event by event and ends at what is cached: `event_log_faithful`.

It is proved for observers that do not call back, for whom working off notices comes to counting them
and telling them to everyone: `quiet_notices`. `Logged` is what holds of a run after each of its steps.
-/

namespace TileStore

/-- The happenings among notices. -/
def Notice.counted (notices : List Notice) : List Happening :=
  notices.filterMap fun
    | .count h => some h
    | _ => none

/-- Count happenings one after the other. -/
def Cache.countAll (c : Cache) (hs : List Happening) : Cache := hs.foldl count c

/-- The observer does not call back. -/
def Audience.Quiet {ρ : Type} (audience : Audience ρ) : Prop :=
  ∀ journal v, audience.react journal v = none

/-- What an observer has been told so far. -/
def Run.toldTo {ρ : Type} (r : Run ρ) (observer : Nat) : List Event :=
  r.journal.toList.filterMap fun
    | .visit v => if v.observer = observer then some (v.entry, v.action) else none
    | _ => none

namespace Cache

variable {c : Cache} {layout : Layout}

theorem Consistent.countAll (h : c.Consistent layout) (hs : List Happening) :
    (c.countAll hs).Consistent layout := by
  induction hs generalizing c with
  | nil => exact h
  | cons a hs ih => exact ih (h.count a)

@[simp] theorem get?_count (c : Cache) (a : Happening) : (c.count a).get? = c.get? :=
  get?_editLedger c _

@[simp] theorem get?_countAll (c : Cache) (hs : List Happening) :
    (c.countAll hs).get? = c.get? := by
  induction hs generalizing c with
  | nil => rfl
  | cons a hs ih => exact (ih (c.count a)).trans (get?_count c a)

/-- Counting changes the counters. -/
theorem countAll_eq (c : Cache) (hs : List Happening) :
    c.countAll hs =
      c.editLedger fun l => { l with counters := hs.foldl Counters.count l.counters } := by
  induction hs generalizing c with
  | nil => cases c <;> rfl
  | cons a hs ih =>
    refine (ih (c.count a)).trans ?_
    cases c <;> rfl

theorem ledger_countAll (c : Cache) (hs : List Happening) :
    (c.countAll hs).ledger =
      { c.ledger with counters := hs.foldl Counters.count c.ledger.counters } := by
  rw [countAll_eq, ledger_editLedger]

/-- Counting does not switch the counters. -/
theorem enabled_countAll (c : Cache) (hs : List Happening) :
    (c.countAll hs).ledger.counters.enabled = c.ledger.counters.enabled := by
  induction hs generalizing c with
  | nil => rfl
  | cons a hs ih =>
    refine (ih (c.count a)).trans ?_
    rw [count, ledger_editLedger]
    exact Counters.enabled_count _ a

end Cache

namespace Run

variable {ρ : Type} {audience : Audience ρ} {nested : Script → Run ρ → Run ρ} {r : Run ρ}
  {e : Entry} {a : Action} {o : Nat}

/-! ### Quiet observers -/

theorem toldTo_visit (r : Run ρ) (v : Visit ρ) (o : Nat) :
    (r.note (.visit v)).toldTo o =
      r.toldTo o ++ if v.observer = o then [(v.entry, v.action)] else [] := by
  unfold toldTo note
  rw [Array.toList_push, List.filterMap_append]
  by_cases ho : v.observer = o <;> simp [ho]

theorem toldTo_log (r : Run ρ) (line : LogLine) (o : Nat) :
    (r.note (.log line)).toldTo o = r.toldTo o := by simp [toldTo, note]

/-- A quiet observer hears of an event, which is noted, and that is all. -/
theorem quiet_visit (hq : audience.Quiet) (hf : r.fault = none) (e : Entry) (a : Action) (o : Nat) :
    visit audience nested e a r o =
      r.note (.visit ⟨o, e, a, audience.view r.session e⟩) := by
  unfold visit
  simp [hf, hq _ _]

/-- All observers hear of an event. -/
theorem quiet_visits (nested : Script → Run ρ → Run ρ) (hq : audience.Quiet) (e : Entry)
    (a : Action) (os : List Nat) (hd : os.Nodup) (hf : r.fault = none) :
    let r' := os.foldl (visit audience nested e a) r
    r'.session = r.session ∧ r'.fault = none ∧
      ∀ o, r'.toldTo o = r.toldTo o ++ if o ∈ os then [(e, a)] else [] := by
  induction os generalizing r with
  | nil => exact ⟨rfl, hf, fun o => by simp⟩
  | cons o os ih =>
    obtain ⟨hnotin, hd⟩ := List.nodup_cons.1 hd
    rw [List.foldl_cons, quiet_visit hq hf]
    obtain ⟨hsession, hfault, htold⟩ := ih (r := r.note (.visit ⟨o, e, a, _⟩)) hd hf
    refine ⟨hsession, hfault, fun o' => ?_⟩
    rw [htold, toldTo_visit]
    by_cases ho : o = o'
    · subst ho
      simp [hnotin]
    · simp [ho, Ne.symm ho]

/-- The observers that are told of events: all, or none while counting is disabled. -/
def audible (l : Ledger) (o : Nat) : Bool := l.counters.enabled && decide (o < l.observers)

theorem quiet_notice (nested : Script → Run ρ → Run ρ) (hq : audience.Quiet)
    (hf : r.fault = none) (n : Notice) :
    let r' := notice audience nested r n
    r'.session = { r.session with cache := r.session.cache.countAll (Notice.counted [n]) } ∧
      r'.fault = none ∧ ∀ o, r'.toldTo o =
        r.toldTo o ++ if audible r.session.cache.ledger o then Notice.told [n] else [] := by
  unfold notice
  rw [if_neg (by simp [hf])]
  rcases n with line | x | ⟨e, a⟩
  · exact ⟨rfl, hf, fun o => by rw [toldTo_log]; simp [Notice.told]⟩
  · exact ⟨rfl, hf, fun o => by simp [Notice.told, toldTo]⟩
  · dsimp only
    split
    · next hon =>
      obtain ⟨hsession, hfault, htold⟩ := quiet_visits nested hq e a
        (List.range r.session.cache.ledger.observers) List.nodup_range hf
      refine ⟨hsession, hfault, fun o => ?_⟩
      rw [htold, audible, hon]
      simp [Notice.told]
    · next hoff => exact ⟨rfl, hf, fun o => by simp [audible, hoff]⟩

/-- Working off notices comes to counting what they count, and telling every observer what they tell
while counting is enabled. -/
theorem quiet_notices (nested : Script → Run ρ → Run ρ) (hq : audience.Quiet)
    (notices : List Notice) (hf : r.fault = none) :
    let r' := notices.foldl (notice audience nested) r
    r'.session = { r.session with cache := r.session.cache.countAll (Notice.counted notices) } ∧
      r'.fault = none ∧ ∀ o, r'.toldTo o =
        r.toldTo o ++ if audible r.session.cache.ledger o then Notice.told notices else [] := by
  induction notices generalizing r with
  | nil => exact ⟨rfl, hf, fun o => by simp [Notice.told]⟩
  | cons n notices ih =>
    obtain ⟨hsession, hfault, htold⟩ := quiet_notice nested hq hf n
    obtain ⟨hsession', hfault', htold'⟩ := ih hfault
    have hcounted : Notice.counted (n :: notices) = Notice.counted [n] ++ Notice.counted notices := by
      simp [Notice.counted, List.filterMap_cons]
      split <;> rfl
    have haudible : ∀ hs o, audible (r.session.cache.countAll hs).ledger o =
        audible r.session.cache.ledger o := by
      intro hs o
      rw [audible, Cache.enabled_countAll, Cache.ledger_countAll, audible]
    refine ⟨?_, hfault', fun o => ?_⟩
    · rw [List.foldl_cons, hsession', hsession, hcounted]
      simp [Cache.countAll]
    · rw [List.foldl_cons, htold', htold, hsession, haudible, List.append_assoc,
        show n :: notices = [n] ++ notices from rfl, Notice.told_append]
      split <;> rfl

/-! ### The log so far -/

end Run

/-- The cache is what a log leads to: this is cached, so many entries were made, and every observer is
told of what happens next. -/
structure Cache.Current (layout : Layout) (observers : Nat) (g : Tiles) (next : Nat) (c : Cache) :
    Prop where
  consistent : c.Consistent layout
  tiles : c.get? = g
  nextSeq : c.ledger.nextSeq = next
  observers : c.ledger.observers = observers
  enabled : c.ledger.counters.enabled = true

theorem Cache.Current.countAll {layout : Layout} {observers next : Nat} {g : Tiles} {c : Cache}
    (h : c.Current layout observers g next) (hs : List Happening) :
    (c.countAll hs).Current layout observers g next where
  consistent := h.consistent.countAll hs
  tiles := (get?_countAll c hs).trans h.tiles
  nextSeq := by
    rw [ledger_countAll]
    exact h.nextSeq
  observers := by
    rw [ledger_countAll]
    exact h.observers
  enabled := (enabled_countAll c hs).trans h.enabled

/-- What a cache does when it is asked something is told in full. -/
theorem Cache.Current.heeds {layout : Layout} {observers next : Nat} {g : Tiles} {c c' : Cache}
    {m : Moment} {asked : Option (Request Owner Identity)} {notices : List Notice}
    (h : c.Current layout observers g next) (hh : c.Heeds m asked notices c')
    (hon : asked ≠ some .disable) :
    ∃ g' made, c'.Current layout observers g' (next + made) ∧ g.Story (Notice.told notices) g' ∧
      (writtenIn (Notice.told notices)).map (·.seq) = List.range' next made := by
  rcases asked with _ | q
  · obtain ⟨rfl, rfl⟩ := hh
    exact ⟨g, 0, h, .nil g, rfl⟩
  · obtain ⟨reply, hr⟩ := hh
    obtain ⟨hstory, hwritten, hnext, hobservers, henabled⟩ :=
      (Request.perform_recorded m q h.consistent.sound).of_ok hr
    have hswitched : q.switched c.ledger.counters.enabled = true := by
      rw [h.enabled]
      cases q <;> first | rfl | exact absurd rfl hon
    rw [h.tiles] at hstory
    refine ⟨c'.get?, (q.made c.ledger).length, ⟨h.consistent.perform hr, rfl, ?_,
      hobservers.trans h.observers, henabled.trans hswitched⟩, hstory, ?_⟩
    · rw [hnext, h.nextSeq]
    · rw [hwritten, Request.seq_made, h.nextSeq]

theorem Request.eq_disable_of_resolve {ο ο' ι ι' : Type} {owner? : ο → Option ο'}
    {image? : ι → Option ι'} {q : Request ο ι} (h : q.resolve owner? image? = some .disable) :
    q = .disable := by
  cases q <;> simp [resolve] at h ⊢

/-- No step of a command switches counting off, unless the command is to do just that. -/
theorem Command.asked_steps {c : Command String} {c' d : Command Owner} {scene : Scene}
    {owner? : String → Option Owner} (hc : c ≠ .request .disable)
    (hr : c.resolve owner? = some c') (hd : d ∈ c'.steps) : d.asked scene ≠ some .disable := by
  have hget : ∀ image p, (scene.image? image).map (Request.get (ο := Owner) · p) ≠ some .disable := by
    intro image p
    cases scene.image? image <;> simp
  cases c with
  | request q =>
    obtain ⟨q', hq, rfl⟩ := Option.map_eq_some_iff.1 hr
    obtain rfl := List.mem_singleton.1 hd
    intro hasked
    obtain rfl := Request.eq_disable_of_resolve hasked
    exact hc (congrArg request (Request.eq_disable_of_resolve hq))
  | addEach o tiles =>
    obtain ⟨owner, -, rfl⟩ := Option.map_eq_some_iff.1 hr
    obtain ⟨t, -, rfl⟩ := List.mem_map.1 hd
    simp [asked, Request.resolve]
  | hold image p as =>
    cases hr
    obtain rfl := List.mem_singleton.1 hd
    exact hget image p
  | keep image p as =>
    cases hr
    obtain rfl := List.mem_singleton.1 hd
    exact hget image p
  | _ =>
    cases hr
    obtain rfl := List.mem_singleton.1 hd
    simp [asked]

namespace Run

/-- Observers have been told the same events, which tell of everything that happened: of each entry
made, in order, and, unless the run has ended, of all that is cached. -/
structure Logged (layout : Layout) (observers : Nat) (events : List Event) (g : Tiles) (next : Nat)
    (r : Run ρ) : Prop where
  toldTo : ∀ o < observers, r.toldTo o = events
  story : Tiles.Story (fun _ => none) events g
  written : (writtenIn events).map (·.seq) = List.range next
  current : r.fault = none → r.session.cache.Current layout observers g next

/-- There is a log so far. -/
def HasLog (layout : Layout) (observers : Nat) (r : Run ρ) : Prop :=
  ∃ events g next, r.Logged layout observers events g next

variable {ρ : Type} {audience : Audience ρ} {nested : Script → Run ρ → Run ρ} {r r' : Run ρ}
  {layout : Layout} {observers : Nat}

theorem HasLog.congr (h : r.HasLog layout observers) (hj : r'.journal = r.journal)
    (hc : r'.session.cache = r.session.cache) (hf : r'.fault = none → r.fault = none) :
    r'.HasLog layout observers := by
  obtain ⟨events, g, next, htold, hstory, hwritten, hcurrent⟩ := h
  refine ⟨events, g, next, fun o ho => ?_, hstory, hwritten, fun h => ?_⟩
  · rw [Run.toldTo, hj]
    exact htold o ho
  · rw [hc]
    exact hcurrent (hf h)

/-- A step is logged: the observers are told of everything it does. -/
theorem HasLog.step (h : r.HasLog layout observers) (hq : audience.Quiet) (c : Command Owner)
    (hc : c.asked r.session.scene ≠ some .disable) :
    (Run.step audience nested r c).HasLog layout observers := by
  obtain ⟨events, g, next, htold, hstory, hwritten, hcurrent⟩ := id h
  unfold Run.step
  split
  · exact h
  · next hf =>
    have hf : r.fault = none := by simpa using hf
    unfold inSession
    rcases hx : (Session.obey c).result r.session with ⟨f | ⟨x, notices⟩, s'⟩
    · exact ⟨events, g, next, htold, hstory, hwritten, nofun⟩
    · obtain ⟨g', made, hcurrent', hstory', hwritten'⟩ :=
        (hcurrent hf).heeds ((Session.obey_heeds c).of_ok hx) hc
      let r₁ : Run ρ := ({ r with session := s' } : Run ρ).reply x
      obtain ⟨hsession, -, htold'⟩ := quiet_notices nested hq notices (r := r₁) hf
      have haudible : ∀ o < observers, audible r₁.session.cache.ledger o = true := by
        intro o ho
        change audible s'.cache.ledger o = true
        rw [audible, hcurrent'.enabled, hcurrent'.observers]
        simpa using ho
      refine ⟨events ++ Notice.told notices, g', next + made, fun o ho => ?_,
        hstory.append hstory', ?_, fun _ => ?_⟩
      · rw [htold' o, if_pos (haudible o ho)]
        exact congrArg (· ++ _) (htold o ho)
      · rw [writtenIn_append, List.map_append, hwritten, hwritten', List.range_eq_range',
          List.range_eq_range', ← List.range'_append_1, Nat.zero_add]
      · rw [hsession]
        exact hcurrent'.countAll _

theorem HasLog.command (h : r.HasLog layout observers) (hq : audience.Quiet) (c : Command String)
    (hc : c ≠ .request .disable) :
    (Run.command audience nested r c).HasLog layout observers := by
  have hsteps : ∀ (ds : List (Command Owner)) (r : Run ρ), r.HasLog layout observers →
      (∀ d ∈ ds, ∀ scene, d.asked scene ≠ some .disable) →
      (ds.foldl (Run.step audience nested) r).HasLog layout observers := by
    intro ds
    induction ds with
    | nil => exact fun r h _ => h
    | cons d ds ih =>
      exact fun r h hds => ih _ (h.step hq d (hds d List.mem_cons_self _))
        fun f hf => hds f (List.mem_cons_of_mem d hf)
  unfold Run.command
  rcases hr : c.resolve (r.session.scene.owners[·]?) with _ | c'
  · exact h.congr rfl rfl id
  · let begun : Run ρ := { r with
      session.scene := c'.owner?.toList.foldl Scene.retain r.session.scene, replies := #[] }
    have hbegun : begun.HasLog layout observers := h.congr rfl rfl id
    exact (hsteps c'.steps _ hbegun fun d hd scene => Command.asked_steps hc hr hd).congr rfl rfl id

/-- A whole run is logged. -/
theorem HasLog.carryOut (h : r.HasLog layout observers) (hq : audience.Quiet) (depth : Nat)
    (cs : Script) (hcs : ∀ c ∈ cs, c ≠ .request .disable) :
    (Run.carryOut audience depth cs r).HasLog layout observers := by
  have hall : ∀ nested, (cs.foldl (Run.command audience nested) r).HasLog layout observers := by
    intro nested
    induction cs generalizing r with
    | nil => exact h
    | cons c cs ih =>
      exact ih (h.command hq c (hcs c List.mem_cons_self))
        fun d hd => hcs d (List.mem_cons_of_mem c hd)
  cases depth with
  | zero => exact hall _
  | succ depth => exact hall _

end Run

theorem Run.hasLog_of_build {ρ : Type} {s : Settings} {observers allowance : Nat} {c : Cache}
    (hb : Cache.build s observers = .ok c) (hd : s.diagnostics = true) (scene : Scene) :
    ({ session := ⟨scene, c⟩, allowance := allowance } : Run ρ).HasLog s.layout observers := by
  obtain ⟨-, hledger, hempty, -⟩ := Cache.fresh_of_build hb
  refine ⟨[], fun _ => none, 0, fun _ _ => rfl, .nil _, rfl, fun _ => ?_⟩
  refine ⟨Cache.consistent_of_build hb, hempty, ?_, ?_, ?_⟩
  · rw [hledger]
    rfl
  · rw [hledger]
    rfl
  · rw [hledger]
    exact hd

open Bindings (written gone)

/-- In every run of a cache that was built with diagnostics, is never told to disable them, and is
watched by observers that do not call back, all observers are told the same events, and each of them
is legal where it stands. What they lead to is what is cached, unless a fault has ended the run. Every
entry made is written by one event, in order, and goes by one at most, or by none if it has been
replaced. -/
theorem event_log_faithful {ρ : Type} {s : Settings} {observers : Nat} {c : Cache}
    (hb : Cache.build s observers = .ok c) (hd : s.diagnostics = true) (scene : Scene)
    (audience : Audience ρ) (hq : ∀ journal v, audience.react journal v = none)
    (allowance depth : Nat) (cs : Script) (hcs : ∀ c ∈ cs, c ≠ .request .disable) :
    let r : Run ρ := { session := ⟨scene, c⟩, allowance := allowance }
    let r' := Run.carryOut audience depth cs r
    ∃ events bindings, (∀ o < observers, r'.toldTo o = events) ∧ replay events = some bindings ∧
      (r'.fault = none → ∀ k, bindings k = (r'.session.cache.get? k).map (·.seq)) ∧
      (∃ n, written events = List.range n ∧
        (r'.fault = none → n = r'.session.cache.ledger.nextSeq)) ∧
      (gone events).Nodup ∧
      ∀ before e after, events = before ++ (e, .updated) :: after →
        ∃ b n, replay before = some b ∧ b e.key = some n ∧ n ∉ gone events := by
  intro r r'
  have hstart : r.HasLog s.layout observers := Run.hasLog_of_build hb hd scene
  obtain ⟨events, g, next, htold, hstory, hwritten, hcurrent⟩ := hstart.carryOut hq depth cs hcs
  have hreplay : replay events = some g.numbers := hstory.replay
  have hnodup : (written events).Nodup := by
    rw [Bindings.written, hwritten]
    exact List.nodup_range
  refine ⟨events, g.numbers, htold, hreplay, fun hf k => ?_, ⟨next, hwritten, fun hf => ?_⟩, ?_, ?_⟩
  · rw [(hcurrent hf).tiles]
    rfl
  · exact (hcurrent hf).nextSeq.symm
  · exact Bindings.nodup_gone_of_replay Bindings.known_empty (by simpa using hnodup) hreplay
  · rintro before e after rfl
    obtain ⟨b, hb, hafter⟩ : ∃ b, replay before = some b ∧
        b.replay ((e, .updated) :: after) = some g.numbers := by
      rwa [replay, Bindings.replay_append, Option.bind_eq_some_iff] at hreplay
    rw [Bindings.replay_cons, Option.bind_eq_some_iff] at hafter
    obtain ⟨b₁, hx, -⟩ := hafter
    obtain ⟨n, hn⟩ := Bindings.bound_of_updated hx
    exact ⟨b, n, hb, hn, replaced_of_replay rfl hnodup hb hreplay hn⟩

/-- Two observers hear of a batch that names a position twice and sets off a pass. -/
theorem event_log_faithful_batch :
    let s : Settings := { capacity := 500, diagnostics := true }
    let scene : Scene := { owners := ({} : Std.TreeMap String Owner).insert "a" ⟨0, .hashed 1⟩ }
    let audience : Audience Unit := { view _ _ := (), react _ _ := none }
    let payload : Payload := ⟨⟨8, 100, 1⟩, 0⟩
    let cs : Script :=
      [.request (.addBatch "a" [.origin, .origin, ⟨1, 0⟩] [payload, payload, payload] none)]
    let r : Run Unit := { session := ⟨scene, Cache.new s 2⟩ }
    let r' := Run.carryOut audience 0 cs r
    Cache.build s 2 = .ok (Cache.new s 2) ∧ r'.fault = none ∧
      ∃ events bindings, (∀ o < 2, r'.toldTo o = events) ∧ replay events = some bindings ∧
        (events.map fun x => (x.1.seq, x.2)) =
          [(0, .added), (1, .updated), (2, .added), (1, .evicted)] ∧
        ∀ k, bindings k = (r'.session.cache.get? k).map (·.seq) := by
  intro s scene audience payload cs r r'
  have hbuild : Cache.build s 2 = .ok (Cache.new s 2) := rfl
  have hfault : r'.fault = none := Option.isNone_iff_eq_none.1 (by decide +kernel)
  have hcs : ∀ c ∈ cs, c ≠ .request .disable := by
    rintro _ hc rfl
    cases List.mem_singleton.1 hc
  have htold : ((r'.toldTo 0).map fun x => (x.1.seq, x.2)) =
      [(0, .added), (1, .updated), (2, .added), (1, .evicted)] := by decide +kernel
  obtain ⟨events, bindings, hsame, hreplay, hend, -⟩ :=
    event_log_faithful hbuild rfl scene audience (fun _ _ => rfl) 0 0 cs hcs
  have hevents := hsame 0 (by decide)
  have hfinal := hend hfault
  refine ⟨hbuild, hfault, events, bindings, hsame, hreplay, ?_, ?_⟩
  · rw [← hevents]
    with_reducible exact htold
  · with_reducible exact hfinal

end TileStore
