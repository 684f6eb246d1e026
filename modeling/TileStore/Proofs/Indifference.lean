import TileStore.Proofs.Agreement
import TileStore.Proofs.Watched

/-!
# Diagnostics make no difference

Two runs do the same, but the one enables, disables and resets its counters here and the other there, and
other observers listen. As long as these do not call back, all answers are the same, what is cached stays
the same, and so does what is evicted: `diagnostics_indifferent`.

The runs are compared with a third one, in which nothing of the kind is ever asked. `Abreast` is what two
runs share: a command takes both of them further, by `Abreast.command`, and one about the counters is a
step of one of them alone, by `Abreast.left`.
-/

namespace TileStore

/-- The command is about the counters and nothing else. -/
def Command.isDiagnostic {ο : Type} : Command ο → Bool
  | request .enable | request .disable | request .reset => true
  | _ => false

/-- The other commands of a script. -/
def Script.others (cs : Script) : Script := cs.filter (!·.isDiagnostic)

/-- Counting leaves a cache as it is, but for its counters. -/
theorem Cache.countAll_eq_watched (c : Cache) (hs : List Happening) :
    ∃ w, c.countAll hs = c.watched w := by
  refine ⟨⟨hs.foldl Counters.count c.ledger.counters, c.ledger.observers⟩, ?_⟩
  rw [countAll_eq]
  cases c <;> rfl

namespace Run

variable {ρ ρ' : Type}

/-- The lines logged so far. -/
def logged (r : Run ρ) : List LogLine :=
  r.journal.toList.filterMap fun
    | .log line => some line
    | _ => none

/-- The answers to the commands of a script that are not about the counters. -/
def answers (cs : Script) (r : Run ρ) : List Reply :=
  ((cs.zip r.replies.toList).filter (!·.1.isDiagnostic)).map (·.2.uncounted)

/-- Two runs have come equally far: their sessions are the same but for what watches the cache. -/
structure Abreast (r : Run ρ) (r' : Run ρ') : Prop where
  session : ∃ w, r'.session = r.session.watched w
  fault : r'.fault = r.fault
  logged : r'.logged = r.logged

variable {audience : Audience ρ} {audience' : Audience ρ'} {nested : Script → Run ρ → Run ρ}
  {nested' : Script → Run ρ' → Run ρ'} {r : Run ρ} {r' : Run ρ'}

/-! ### What is logged -/

/-- Quiet observers log nothing. -/
theorem logged_visits (hq : audience.Quiet) (e : Entry) (a : Action) (os : List Nat)
    (hf : r.fault = none) : (os.foldl (visit audience nested e a) r).logged = r.logged := by
  induction os generalizing r with
  | nil => rfl
  | cons o os ih =>
    rw [List.foldl_cons, quiet_visit hq hf]
    refine (ih (r := r.note _) hf).trans ?_
    simp [logged, note]

/-- The lines among notices are logged. -/
theorem logged_notices (hq : audience.Quiet) (notices : List Notice) (hf : r.fault = none) :
    (notices.foldl (notice audience nested) r).logged = r.logged ++ notices.filterMap fun
      | .log line => some line
      | _ => none := by
  induction notices generalizing r with
  | nil => simp
  | cons n notices ih =>
    rw [List.foldl_cons, ih (quiet_notice nested hq hf n).2.1, List.filterMap_cons]
    unfold notice
    rw [if_neg (by simp [hf])]
    cases n with
    | log line => simp [logged, note]
    | count h => rfl
    | tell e a =>
      dsimp only
      split
      · rw [logged_visits hq e a _ hf]
      · rfl

/-! ### One command of both -/

namespace Abreast

/-- Notices are worked off in both. -/
theorem notices (h : r.Abreast r') (hq : audience.Quiet) (hq' : audience'.Quiet)
    (hf : r.fault = none) (ns : List Notice) :
    (ns.foldl (notice audience nested) r).Abreast (ns.foldl (notice audience' nested') r') := by
  have hf' : r'.fault = none := h.fault.trans hf
  obtain ⟨w, hw⟩ := h.session
  obtain ⟨hsession, hfault, -⟩ := quiet_notices nested hq ns hf
  obtain ⟨hsession', hfault', -⟩ := quiet_notices nested' hq' ns hf'
  refine ⟨?_, hfault'.trans hfault.symm, ?_⟩
  · obtain ⟨v, hv⟩ := r.session.cache.countAll_eq_watched (Notice.counted ns)
    obtain ⟨v', hv'⟩ := (r.session.cache.watched w).countAll_eq_watched (Notice.counted ns)
    refine ⟨v', ?_⟩
    rw [hsession, hsession', hw]
    simp [Session.watched, hv, hv']
  · rw [logged_notices hq ns hf, logged_notices hq' ns hf', h.logged]

/-- A step is taken in both, and answered alike. -/
theorem step (h : r.Abreast r') (hq : audience.Quiet) (hq' : audience'.Quiet)
    (hr : r'.replies.map Reply.uncounted = r.replies.map Reply.uncounted) (c : Command Owner) :
    (Run.step audience nested r c).Abreast (Run.step audience' nested' r' c) ∧
      (Run.step audience' nested' r' c).replies.map Reply.uncounted =
        (Run.step audience nested r c).replies.map Reply.uncounted := by
  obtain ⟨w, hw⟩ := h.session
  obtain ⟨houtcome, w', hw'⟩ := Session.obey_watched c w r.session
  unfold Run.step inSession
  by_cases hf : r.fault = none
  · have hf' : r'.fault = none := h.fault.trans hf
    rw [if_neg (by simp [hf]), if_neg (by simp [hf']), hw]
    rcases hx : (Session.obey c).result r.session with ⟨x, s⟩
    rcases hy : (Session.obey c).result (r.session.watched w) with ⟨y, s'⟩
    rw [hx, hy] at houtcome hw'
    obtain rfl : s' = s.watched w' := hw'
    rcases Reply.eq_of_outcome houtcome with ⟨f, rfl, rfl⟩ | ⟨b, a, ns, rfl, rfl, hab⟩
    · exact ⟨⟨⟨w', rfl⟩, rfl, h.logged⟩, hr⟩
    · let r₁ : Run ρ := ({ r with session := s } : Run ρ).reply a
      let r₁' : Run ρ' := ({ r' with session := s.watched w' } : Run ρ').reply b
      have hreply : r₁'.replies.map Reply.uncounted = r₁.replies.map Reply.uncounted := by
        simp [r₁, r₁', reply, hr, hab]
      have habreast : r₁.Abreast r₁' := ⟨⟨w', rfl⟩, h.fault, h.logged⟩
      refine ⟨habreast.notices hq hq' hf ns, ?_⟩
      change (ns.foldl _ r₁').replies.map _ = (ns.foldl _ r₁).replies.map _
      rw [replies_foldl (replies_notice nested), replies_foldl (replies_notice nested')]
      exact hreply
  · have hsome : r.fault.isSome := Option.isSome_iff_ne_none.2 hf
    have hsome' : r'.fault.isSome := h.fault ▸ hsome
    rw [if_pos hsome, if_pos hsome']
    exact ⟨h, hr⟩

variable (nested nested') in
/-- A command is carried out in both, and answered alike. -/
theorem command (h : r.Abreast r') (hq : audience.Quiet) (hq' : audience'.Quiet)
    (c : Command String) :
    (Run.command audience nested r c).Abreast (Run.command audience' nested' r' c) ∧
      ∃ x y, (Run.command audience nested r c).replies = r.replies.push x ∧
        (Run.command audience' nested' r' c).replies = r'.replies.push y ∧
        y.uncounted = x.uncounted := by
  have hsteps : ∀ (ds : List (Command Owner)) {r : Run ρ} {r' : Run ρ'}, r.Abreast r' →
      r'.replies.map Reply.uncounted = r.replies.map Reply.uncounted →
      (ds.foldl (Run.step audience nested) r).Abreast (ds.foldl (Run.step audience' nested') r') ∧
        (ds.foldl (Run.step audience' nested') r').replies.map Reply.uncounted =
          (ds.foldl (Run.step audience nested) r).replies.map Reply.uncounted := by
    intro ds
    induction ds with
    | nil => exact fun h hr => ⟨h, hr⟩
    | cons d ds ih =>
      intro r r' h hr
      obtain ⟨h₁, hr₁⟩ := h.step hq hq' hr d
      exact ih h₁ hr₁
  obtain ⟨w, hw⟩ := h.session
  have hscene : r'.session.scene = r.session.scene := by rw [hw]; rfl
  unfold Run.command
  rw [hscene]
  rcases c.resolve (r.session.scene.owners[·]?) with _ | c
  · exact ⟨⟨h.session, h.fault, h.logged⟩, .done, .done, rfl, rfl, rfl⟩
  · have hbegun : Abreast { r with
        session.scene := c.owner?.toList.foldl Scene.retain r.session.scene, replies := #[] }
        { r' with
          session.scene := c.owner?.toList.foldl Scene.retain r.session.scene, replies := #[] } := by
      refine ⟨⟨w, ?_⟩, h.fault, h.logged⟩
      dsimp only
      rw [hw]
      rfl
    obtain ⟨⟨⟨v, hv⟩, hfault, hlogged⟩, hreplies⟩ := hsteps c.steps hbegun rfl
    refine ⟨⟨⟨v, ?_⟩, hfault, hlogged⟩, _, _, rfl, rfl, ?_⟩
    · dsimp only
      rw [hv]
      rfl
    · have hlast : ∀ xs : Array Reply, (xs.back?.getD .done).uncounted =
          (xs.map Reply.uncounted).back?.getD .done := by
        intro xs
        rw [Array.back?_map]
        cases xs.back? <;> rfl
      rw [hlast, hlast, hreplies]

variable (audience nested) in
/-- A command about the counters is carried out in one of them alone. -/
theorem left (h : r.Abreast r') {c : Command String} (hc : c.isDiagnostic = true) :
    (Run.command audience nested r c).Abreast r' ∧
      ∃ x, (Run.command audience nested r c).replies = r.replies.push x := by
  have hstep : ∀ (d : Command Owner) {r₁ : Run ρ}, r₁.Abreast r' →
      (∃ w, (Session.obey d).result r₁.session = (.ok (.done, []), r₁.session.watched w)) →
      (Run.step audience nested r₁ d).Abreast r' := by
    rintro d r₁ h₁ ⟨v, hd⟩
    unfold Run.step inSession
    split
    · exact h₁
    · rw [hd]
      obtain ⟨w, hw⟩ := h₁.session
      refine ⟨⟨w, hw.trans ?_⟩, h₁.fault, h₁.logged⟩
      exact (Session.watched_watched v w r₁.session).symm
  have hbegun : Abreast { r with replies := #[] } r' := ⟨h.session, h.fault, h.logged⟩
  cases c with
  | request q =>
    cases q with
    | enable =>
      obtain ⟨hsession, hfault, hlogged⟩ :=
        hstep (.request .enable) hbegun ⟨_, Session.result_editCounters (·.enable) _⟩
      exact ⟨⟨hsession, hfault, hlogged⟩, _, rfl⟩
    | disable =>
      obtain ⟨hsession, hfault, hlogged⟩ :=
        hstep (.request .disable) hbegun ⟨_, Session.result_editCounters (·.disable) _⟩
      exact ⟨⟨hsession, hfault, hlogged⟩, _, rfl⟩
    | reset =>
      obtain ⟨hsession, hfault, hlogged⟩ :=
        hstep (.request .reset) hbegun ⟨_, Session.result_editCounters (·.reset) _⟩
      exact ⟨⟨hsession, hfault, hlogged⟩, _, rfl⟩
    | _ => cases hc
  | _ => cases hc

end Abreast

/-! ### Scripts -/

/-- A script does what it does without the commands about the counters. -/
theorem abreast_script (hq : audience.Quiet) (hq' : audience'.Quiet) (cs : Script)
    (h : r.Abreast r') :
    (cs.foldl (command audience nested) r).Abreast
        (cs.others.foldl (command audience' nested') r') ∧
      ∃ xs ys, (cs.foldl (command audience nested) r).replies.toList = r.replies.toList ++ xs ∧
        (cs.others.foldl (command audience' nested') r').replies.toList = r'.replies.toList ++ ys ∧
        ((cs.zip xs).filter (!·.1.isDiagnostic)).map (·.2.uncounted) = ys.map Reply.uncounted := by
  induction cs generalizing r r' with
  | nil => exact ⟨h, [], [], by simp, by simp [Script.others], rfl⟩
  | cons c cs ih =>
    rcases hc : c.isDiagnostic with _ | _
    · obtain ⟨h₁, x, y, hx, hy, hxy⟩ := h.command nested nested' hq hq' c
      obtain ⟨h₂, xs, ys, hxs, hys, hsame⟩ := ih h₁
      have hothers : Script.others (c :: cs) = c :: Script.others cs := by simp [Script.others, hc]
      rw [hothers, List.foldl_cons, List.foldl_cons]
      refine ⟨h₂, x :: xs, y :: ys, ?_, ?_, ?_⟩
      · rw [hxs, hx]
        simp
      · rw [hys, hy]
        simp
      · simp [hc, hsame, hxy]
    · obtain ⟨h₁, x, hx⟩ := h.left audience nested hc
      obtain ⟨h₂, xs, ys, hxs, hys, hsame⟩ := ih h₁
      have hothers : Script.others (c :: cs) = Script.others cs := by simp [Script.others, hc]
      rw [hothers, List.foldl_cons]
      refine ⟨h₂, x :: xs, ys, ?_, hys, ?_⟩
      · rw [hxs, hx]
        simp
      · simpa [hc] using hsame

theorem Abreast.carryOut (h : r.Abreast r') (hq : audience.Quiet) (hq' : audience'.Quiet)
    (depth depth' : Nat) (cs : Script) :
    (Run.carryOut audience depth cs r).Abreast (Run.carryOut audience' depth' cs.others r') ∧
      ∃ xs ys, (Run.carryOut audience depth cs r).replies.toList = r.replies.toList ++ xs ∧
        (Run.carryOut audience' depth' cs.others r').replies.toList = r'.replies.toList ++ ys ∧
        ((cs.zip xs).filter (!·.1.isDiagnostic)).map (·.2.uncounted) = ys.map Reply.uncounted := by
  rcases depth with _ | depth <;> rcases depth' with _ | depth' <;>
    exact abreast_script hq hq' cs h

end Run

/-- Caches that are built with the same settings are the same but for what watches them. -/
theorem Cache.eq_watched_of_build {s : Settings} {on on' : Bool} {observers observers' : Nat}
    {c c' : Cache} (hb : build { s with diagnostics := on } observers = .ok c)
    (hb' : build { s with diagnostics := on' } observers' = .ok c') : ∃ w, c' = c.watched w := by
  obtain ⟨-, rfl⟩ := eq_new_of_build hb
  obtain ⟨-, rfl⟩ := eq_new_of_build hb'
  refine ⟨⟨{ enabled := on' }, observers'⟩, ?_⟩
  unfold new
  dsimp only
  split <;> rfl

/-- In two runs of caches that were built with the same settings, but with diagnostics or without, in
the same scene, the same commands are carried out in the same order, with any commands about the counters
in between. Whatever observers there are, if they do not call back, then all other commands have the same
answers, the same is logged, evictions included, and in the end the caches are the same but for their
counters and observers. Since the scripts are any, this is so after each command. -/
theorem diagnostics_indifferent {ρ ρ' : Type} {s : Settings} {on on' : Bool}
    {observers observers' : Nat} {c c' : Cache}
    (hb : Cache.build { s with diagnostics := on } observers = .ok c)
    (hb' : Cache.build { s with diagnostics := on' } observers' = .ok c') (scene : Scene)
    (audience : Audience ρ) (audience' : Audience ρ')
    (hq : ∀ journal v, audience.react journal v = none)
    (hq' : ∀ journal v, audience'.react journal v = none) (allowance allowance' depth depth' : Nat)
    (cs cs' : Script) (hcs : cs'.others = cs.others) :
    let r := Run.carryOut audience depth cs { session := ⟨scene, c⟩, allowance := allowance }
    let r' := Run.carryOut audience' depth' cs' { session := ⟨scene, c'⟩, allowance := allowance' }
    r'.answers cs' = r.answers cs ∧ r'.fault = r.fault ∧ r'.logged = r.logged ∧
      (∃ w, r'.session = r.session.watched w) ∧
      r'.session.cache.entries = r.session.cache.entries ∧
      (∀ e, r'.session.cache.status e = r.session.cache.status e) ∧
      { r'.session.cache.report with counters := {} } =
        { r.session.cache.report with counters := {} } := by
  intro r r'
  let start : Run ρ := { session := ⟨scene, c⟩, allowance := allowance }
  let start' : Run ρ' := { session := ⟨scene, c'⟩, allowance := allowance' }
  have hself : start.Abreast start := ⟨⟨_, (Session.watched_watch _).symm⟩, rfl, rfl⟩
  have hstart : start'.Abreast start := by
    obtain ⟨w, hw⟩ := Cache.eq_watched_of_build hb' hb
    exact ⟨⟨w, by simp [start, start', Session.watched, hw]⟩, rfl, rfl⟩
  -- Both are compared with the run in which the counters are left alone.
  obtain ⟨h, xs, ys, hxs, hys, hsame⟩ := hself.carryOut hq hq depth depth cs
  obtain ⟨h', xs', ys', hxs', hys', hsame'⟩ := hstart.carryOut hq' hq depth' depth cs'
  rw [hcs] at h' hys'
  obtain rfl : ys' = ys := List.append_cancel_left (hys'.symm.trans hys)
  obtain ⟨w, hw⟩ := h.session
  obtain ⟨w', hw'⟩ := h'.session
  have hsession : r'.session = r.session.watched r'.session.cache.ledger.watch := by
    have hsame := congrArg (Session.watched r'.session.cache.ledger.watch) (hw'.symm.trans hw)
    rwa [Session.watched_watched, Session.watched_watched, Session.watched_watch] at hsame
  refine ⟨?_, h'.fault.symm.trans h.fault, h'.logged.symm.trans h.logged, ⟨_, hsession⟩, ?_, ?_, ?_⟩
  · have hanswers : ∀ {σ : Type} (cs : Script) (q : Run σ) {zs : List Reply},
        q.replies.toList = [] ++ zs → q.answers cs =
          ((cs.zip zs).filter (!·.1.isDiagnostic)).map (·.2.uncounted) := by
      intro σ cs q zs hzs
      rw [Run.answers, hzs, List.nil_append]
    rw [hanswers cs r hxs, hanswers cs' r' hxs', hsame, hsame']
  · rw [hsession]
    exact Cache.entries_watched _ _
  · rw [hsession]
    exact fun e => congrFun (Cache.status_watched _ _) e
  · rw [hsession]
    simp [Session.watched, Cache.report, Ledger.report, Ledger.watched]

/-- The second tile makes the first one go, whether or not anyone counts or listens. -/
theorem diagnostics_indifferent_eviction :
    let s : Settings := { capacity := 500 }
    let scene : Scene := { owners := ({} : Std.TreeMap String Owner).insert "a" ⟨0, .hashed 1⟩ }
    let audience : Audience Unit := { view _ _ := (), react _ _ := none }
    let add (x : Int32) : Command String := .request (.add "a" ⟨x, 0⟩ ⟨⟨8, 100, 1⟩, 0⟩ none)
    let cs : Script := [add 0, .request .reset, add 1, .request .disable]
    let cs' : Script := [.request .enable, add 0, add 1]
    let c := Cache.new { s with diagnostics := true } 2
    let c' := Cache.new { s with diagnostics := false } 0
    let r : Run Unit := Run.carryOut audience 0 cs { session := ⟨scene, c⟩, allowance := 0 }
    let r' : Run Unit := Run.carryOut audience 0 cs' { session := ⟨scene, c'⟩, allowance := 0 }
    Cache.build { s with diagnostics := true } 2 = .ok c ∧
      Cache.build { s with diagnostics := false } 0 = .ok c' ∧ cs'.others = cs.others ∧
      (r.session.cache.ledger.counters.inserts = 1 ∧ r'.session.cache.ledger.counters.inserts = 2) ∧
      (r.session.cache.entries.map (·.seq) = [1] ∧
        r'.session.cache.entries = r.session.cache.entries) ∧
      r.logged.length = 2 ∧ r'.logged = r.logged := by
  intro s scene audience add cs cs' c c' r r'
  have hbuild : Cache.build { s with diagnostics := true } 2 = .ok c := rfl
  have hbuild' : Cache.build { s with diagnostics := false } 0 = .ok c' := rfl
  have hcs : cs'.others = cs.others := rfl
  obtain ⟨-, -, hlogged, -, hentries, -⟩ := diagnostics_indifferent hbuild hbuild' scene audience
    audience (fun _ _ => rfl) (fun _ _ => rfl) 0 0 0 0 cs cs' hcs
  refine ⟨hbuild, hbuild', hcs, by decide +kernel, ⟨by decide +kernel, ?_⟩, by decide +kernel, ?_⟩
  · with_reducible exact hentries
  · with_reducible exact hlogged

end TileStore
