import TileStore.Proofs.Events
import TileStore.Proofs.Run

/-!
# What remains to be done

When an observer calls back, the notices of the outer command wait until its own commands are done.
What waits is an `Agenda`: for each level of nesting, the present one first, the notices that are
left and the observers that are still to be told of an event.

`Upholds` says how to prove something of every point of a run, of the agenda at that point: it goes
on from each thing that is done to the next. Whoever calls back opens a level with nothing to do,
and closes it in the same way, so that a whole run leaves the agenda as it found it:
`stands_carryOut`.
-/

namespace TileStore

/-- What becomes of entries by what is asked at an instant, in order. -/
def Instant.events (i : Instant) : List Event :=
  match i.asked with
  | none => []
  | some q =>
    match (q.perform i.session.scene.moment).result i.session.cache with
    | (.ok (_, notices), _) => Notice.told notices
    | (.error _, _) => []

theorem Instant.events_eq {s : Session} {q : Request Owner Identity} {reply : Reply}
    {notices : List Notice} {c' : Cache}
    (hr : (q.perform s.scene.moment).result s.cache = (.ok (reply, notices), c')) :
    events ⟨s, some q⟩ = Notice.told notices := by
  unfold events
  dsimp only
  rw [hr]

/-- Something that remains to be done. -/
inductive Due where
  | notice (n : Notice)
  /-- Tell these observers of an event. -/
  | visits (observers : List Nat) (e : Entry) (a : Action)

/-- What remains to be done at each level of nesting, the present one first. -/
abbrev Agenda := List (List Due)

variable {ρ α : Type}

/-- Something that holds of the past, the agenda, the cache and the journal, whatever is done next.
-/
structure Upholds (audience : Audience ρ)
    (I : List Instant → Agenda → Cache → Array (Remark ρ) → Prop) : Prop where
  /-- Something is asked of the cache, or nothing is. -/
  asked : ∀ {past outer s j asked notices c'}, I past ([] :: outer) s.cache j →
    s.cache.Heeds s.scene.moment asked notices c' →
    I (past ++ [⟨s, asked⟩]) (notices.map .notice :: outer) c' j
  log : ∀ {past line own outer c j}, I past ((.notice (.log line) :: own) :: outer) c j →
    I past (own :: outer) c (j.push (.log line))
  count : ∀ {past h own outer c j}, I past ((.notice (.count h) :: own) :: outer) c j →
    I past (own :: outer) (c.count h) j
  /-- An event is not told, since counting is disabled. -/
  untold : ∀ {past e a own outer c j}, I past ((.notice (.tell e a) :: own) :: outer) c j →
    c.ledger.counters.enabled = false → I past (own :: outer) c j
  told : ∀ {past e a own outer c j}, I past ((.notice (.tell e a) :: own) :: outer) c j →
    c.ledger.counters.enabled = true →
    I past ((.visits (List.range c.ledger.observers) e a :: own) :: outer) c j
  visited : ∀ {past o os e a own outer s j},
    I past ((.visits (o :: os) e a :: own) :: outer) s.cache j →
    I (past ++ [⟨s, none⟩]) ((.visits os e a :: own) :: outer) s.cache
      (j.push (.visit ⟨o, e, a, audience.view s e⟩))
  /-- The observer that was just told calls back. -/
  opened : ∀ {past o os e a own outer s j cs},
    I past ((.visits (o :: os) e a :: own) :: outer) s.cache j →
    audience.react j ⟨o, e, a, audience.view s e⟩ = some cs →
    I (past ++ [⟨s, none⟩]) ([] :: (.visits os e a :: own) :: outer) s.cache
      (j.push (.visit ⟨o, e, a, audience.view s e⟩))
  closed : ∀ {past own outer c j}, I past ([] :: own :: outer) c j → I past (own :: outer) c j
  reacted : ∀ {past agenda c j} (xs : List Reply), I past agenda c j →
    I past agenda c (j.push (.reacted xs))
  finished : ∀ {past e a own outer c j}, I past ((.visits [] e a :: own) :: outer) c j →
    I past (own :: outer) c j

namespace Run

/-- It holds of a run, unless it has ended, and what follows for the journal holds even then. -/
structure Stands (I : List Instant → Agenda → Cache → Array (Remark ρ) → Prop)
    (J : List Instant → Array (Remark ρ) → Prop) (past : List Instant) (agenda : Agenda)
    (r : Run ρ) : Prop where
  holds : r.fault = none → I past agenda r.session.cache r.journal
  journal : J past r.journal

section Course

variable {audience : Audience ρ} {I : List Instant → Agenda → Cache → Array (Remark ρ) → Prop}
  {J : List Instant → Array (Remark ρ) → Prop} {nested : Script → Run ρ → Run ρ}
  {inner : Script → Run ρ → List Instant} {past : List Instant} {outer : Agenda} {own : List Due}
  {r : Run ρ}

theorem Stands.congr {agenda : Agenda} {r' : Run ρ} (h : r.Stands I J past agenda)
    (hf : r'.fault = r.fault) (hc : r'.session.cache = r.session.cache)
    (hj : r'.journal = r.journal) : r'.Stands I J past agenda where
  holds hr := by
    rw [hc, hj]
    exact h.holds (hf ▸ hr)
  journal := by
    rw [hj]
    exact h.journal

/-- While the run goes on, what holds decides. -/
theorem stands_of {agenda : Agenda} (hJ : ∀ {past agenda c j}, I past agenda c j → J past j)
    (h : I past agenda r.session.cache r.journal) : r.Stands I J past agenda := ⟨fun _ => h, hJ h⟩

variable (hI : Upholds audience I) (hJ : ∀ {past agenda c j}, I past agenda c j → J past j)
  (hmono : ∀ {past is j}, J past j → J (past ++ is) j)
  (hnested : ∀ past outer cs (r : Run ρ), r.Stands I J past ([] :: outer) →
    (nested cs r).Stands I J (past ++ inner cs r) ([] :: outer))

include hI hJ in
theorem stands_now (h : r.Stands I J past ([] :: outer)) :
    r.Stands I J (past ++ r.now) ([] :: outer) := by
  unfold now
  split
  · rwa [List.append_nil]
  · next hf =>
    have hidle : r.session.cache.Heeds r.session.scene.moment none [] r.session.cache := ⟨rfl, rfl⟩
    exact stands_of hJ (hI.asked (h.holds (by simpa using hf)) hidle)

include hI hJ hnested in
theorem stands_callBack (cs : Script) (h : r.Stands I J past ([] :: own :: outer)) :
    (r.callBack nested cs).Stands I J
      (past ++ inner cs { r with allowance := r.allowance - 1, replies := #[] }) (own :: outer) := by
  have hinner := hnested past (own :: outer) cs { r with allowance := r.allowance - 1, replies := #[] }
    (h.congr rfl rfl rfl)
  unfold callBack
  dsimp only
  split
  · next hended =>
    have hend := hI.closed (hinner.holds (Option.isNone_iff_eq_none.1 hended))
    exact stands_of hJ (hI.reacted _ hend)
  · exact ⟨fun hf => hI.closed (hinner.holds hf), hinner.journal⟩

include hI hJ hnested in
theorem stands_visit (e : Entry) (a : Action) (o : Nat) (os : List Nat)
    (h : r.Stands I J past ((.visits (o :: os) e a :: own) :: outer)) :
    (visit audience nested e a r o).Stands I J (past ++ metInVisit audience inner e a r o)
      ((.visits os e a :: own) :: outer) := by
  unfold metInVisit visit
  split
  · next hf =>
    refine ⟨fun hr => ?_, ?_⟩
    · simp [hr] at hf
    · rw [List.append_nil]
      exact h.journal
  · next hf =>
    have hpresent := h.holds (by simpa using hf)
    let v : Visit ρ := ⟨o, e, a, audience.view r.session e⟩
    dsimp only
    generalize hresponse : (if 0 < r.allowance then audience.react r.journal v else none) = response
    cases response with
    | none => exact stands_of hJ (hI.visited hpresent)
    | some cs =>
      have hreact : audience.react r.journal v = some cs := by
        split at hresponse
        · exact hresponse
        · cases hresponse
      have hopened : (r.note (.visit v)).Stands I J (past ++ [⟨r.session, none⟩])
          ([] :: (.visits os e a :: own) :: outer) := stands_of hJ (hI.opened hpresent hreact)
      rw [List.append_cons]
      exact stands_callBack hI hJ hnested cs hopened

include hI hJ hnested in
theorem stands_visits (e : Entry) (a : Action) (os : List Nat)
    (h : r.Stands I J past ((.visits os e a :: own) :: outer)) :
    (os.foldl (visit audience nested e a) r).Stands I J
      (past ++ metAlong (visit audience nested e a) (metInVisit audience inner e a) r os)
      (own :: outer) := by
  induction os generalizing past r with
  | nil =>
    rw [metAlong, List.append_nil]
    exact ⟨fun hf => hI.finished (h.holds hf), h.journal⟩
  | cons o os ih =>
    rw [metAlong, ← List.append_assoc]
    exact ih (stands_visit hI hJ hnested e a o os h)

include hI hJ hnested in
theorem stands_notice (n : Notice) (h : r.Stands I J past ((.notice n :: own) :: outer)) :
    (notice audience nested r n).Stands I J (past ++ metInNotice audience nested inner r n)
      (own :: outer) := by
  unfold metInNotice notice
  split
  · next hf =>
    refine ⟨fun hr => ?_, ?_⟩
    · simp [hr] at hf
    · rw [List.append_nil]
      exact h.journal
  · next hf =>
    have hpresent := h.holds (by simpa using hf)
    cases n with
    | log line =>
      rw [List.append_nil]
      exact stands_of hJ (hI.log hpresent)
    | count x =>
      rw [List.append_nil]
      exact stands_of hJ (hI.count hpresent)
    | tell e a =>
      dsimp only
      split
      · next hon => exact stands_visits hI hJ hnested e a _ (stands_of hJ (hI.told hpresent hon))
      · next hoff =>
        rw [List.append_nil]
        exact stands_of hJ (hI.untold hpresent (by simpa using hoff))

include hI hJ hnested in
theorem stands_notices (ns : List Notice) (h : r.Stands I J past (ns.map .notice :: outer)) :
    (ns.foldl (notice audience nested) r).Stands I J
      (past ++ metAlong (notice audience nested) (metInNotice audience nested inner) r ns)
      ([] :: outer) := by
  induction ns generalizing past r with
  | nil =>
    rw [metAlong, List.append_nil]
    exact h
  | cons n ns ih =>
    rw [metAlong, ← List.append_assoc]
    exact ih (stands_notice hI hJ hnested n h)

include hI hJ hmono hnested in
theorem stands_step (c : Command Owner) (h : r.Stands I J past ([] :: outer)) :
    (step audience nested r c).Stands I J (past ++ metInStep audience nested inner r c)
      ([] :: outer) := by
  unfold metInStep step
  split
  · rwa [List.append_nil]
  · next hf =>
    have hpresent := h.holds (by simpa using hf)
    have hobey := Session.obey_heeds (s := r.session) c
    unfold Mutation.Meets at hobey
    unfold inSession
    rcases hx : (Session.obey c).result r.session with ⟨f | ⟨x, notices⟩, s'⟩
    · exact ⟨nofun, hmono h.journal⟩
    · rw [hx] at hobey
      have hstart : (({ r with session := s' } : Run ρ).reply x).Stands I J
          (past ++ [⟨r.session, c.asked r.session.scene⟩]) (notices.map .notice :: outer) :=
        stands_of hJ (hI.asked hpresent hobey)
      have hrest := stands_now hI hJ (stands_notices hI hJ hnested notices hstart)
      rw [List.append_cons, ← List.append_assoc]
      exact hrest

include hI hJ hmono hnested in
theorem stands_command (c : Command String) (h : r.Stands I J past ([] :: outer)) :
    (command audience nested r c).Stands I J (past ++ metInCommand audience nested inner r c)
      ([] :: outer) := by
  have hsteps : ∀ (ds : List (Command Owner)) {past : List Instant} {r : Run ρ},
      r.Stands I J past ([] :: outer) → (ds.foldl (step audience nested) r).Stands I J
        (past ++ metAlong (step audience nested) (metInStep audience nested inner) r ds)
        ([] :: outer) := by
    intro ds
    induction ds with
    | nil =>
      intro past r h
      rwa [metAlong, List.append_nil]
    | cons d ds ih =>
      intro past r h
      rw [metAlong, ← List.append_assoc]
      exact ih (stands_step hI hJ hmono hnested d h)
  unfold metInCommand command
  generalize c.resolve (r.session.scene.owners[·]?) = resolved
  cases resolved with
  | none =>
    rw [List.append_nil]
    exact h.congr rfl rfl rfl
  | some c =>
    let r₁ : Run ρ := { r with
      session.scene := c.owner?.toList.foldl Scene.retain r.session.scene
      replies := #[] }
    have hbegun : r₁.Stands I J past ([] :: outer) := h.congr rfl rfl rfl
    exact (hsteps c.steps hbegun).congr rfl rfl rfl

include hI hJ hmono hnested in
theorem stands_commands (cs : Script) (h : r.Stands I J past ([] :: outer)) :
    (cs.foldl (command audience nested) r).Stands I J
      (past ++ metAlong (command audience nested) (metInCommand audience nested inner) r cs)
      ([] :: outer) := by
  induction cs generalizing past r with
  | nil => rwa [metAlong, List.append_nil]
  | cons c cs ih =>
    rw [metAlong, ← List.append_assoc]
    exact ih (stands_command hI hJ hmono hnested c h)

end Course

/-- By induction on the depth, a run comes to its end with nothing left to do that was not there
when it began. -/
theorem stands_carryOut {audience : Audience ρ}
    {I : List Instant → Agenda → Cache → Array (Remark ρ) → Prop}
    {J : List Instant → Array (Remark ρ) → Prop} (hI : Upholds audience I)
    (hJ : ∀ {past agenda c j}, I past agenda c j → J past j)
    (hmono : ∀ {past is j}, J past j → J (past ++ is) j) (depth : Nat) (past : List Instant)
    (outer : Agenda) (cs : Script) (r : Run ρ) (h : r.Stands I J past ([] :: outer)) :
    (carryOut audience depth cs r).Stands I J (past ++ met audience depth cs r) ([] :: outer) := by
  induction depth generalizing past outer cs r with
  | zero =>
    refine stands_commands hI hJ hmono (fun past outer cs r h => ?_) cs h
    rwa [List.append_nil]
  | succ depth ih => exact stands_commands hI hJ hmono ih cs h

end Run

end TileStore
