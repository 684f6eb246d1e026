import TileStore.Journal
import TileStore.Proofs.Reachable

/-!
# Every instant of a run

A run works off its commands and their notices, and any notice may set off commands of its own. `Run.met`
lists the instants that a run comes through, in order and at every depth: before each command, with
what it asks of the cache, at each call of an observer, and after each command. It takes the course
that `Run.carryOut` takes.

`Run.follows_carryOut` says how to prove something of all of them: a `Trail` is what holds of a cache
after some instants, whatever is asked or counted next, and then it holds at every instant of a run, of
the instants before it. It goes up from calls and notices through steps and commands, and then by
induction on the depth of nesting. `Run.goes_carryOut` is the case in which the past does not matter:
as long as every request was `ok`, the cache `Reaches` every instant, and observers see nothing else.
-/

namespace TileStore

open Cache (Reaches)

/-- What a command asks of the cache. -/
def Command.asked (scene : Scene) : Command Owner → Option (Request Owner Identity)
  | request r => r.resolve some scene.image?
  | hold image p _ => (scene.image? image).map (.get · p)
  | keep image p _ => (scene.image? image).map (.get · p)
  | _ => none

/-- An instant of a run. -/
structure Instant where
  session : Session
  /-- What is asked of the cache next, if anything is. -/
  asked : Option (Request Owner Identity) := none

namespace Run

variable {ρ : Type} {α : Type}

/-! ### Instants -/

/-- The instants while a list is worked off. -/
def metAlong (step : Run ρ → α → Run ρ) (met : Run ρ → α → List Instant) :
    Run ρ → List α → List Instant
  | _, [] => []
  | r, x :: xs => met r x ++ metAlong step met (step r x) xs

/-- The present instant, unless the run has ended. -/
def now (r : Run ρ) : List Instant := if r.fault.isSome then [] else [⟨r.session, none⟩]

section Course

variable (audience : Audience ρ) (nested : Script → Run ρ → Run ρ)
  (inner : Script → Run ρ → List Instant)

/-- The instants of a call of an observer, given those of what it calls back with. -/
def metInVisit (e : Entry) (a : Action) (r : Run ρ) (observer : Nat) : List Instant :=
  if r.fault.isSome then []
  else
    let v : Visit ρ := ⟨observer, e, a, audience.view r.session e⟩
    let response := if 0 < r.allowance then audience.react r.journal v else none
    ⟨r.session, none⟩ ::
      match response with
      | some cs => inner cs { r.note (.visit v) with allowance := r.allowance - 1, replies := #[] }
      | none => []

/-- The instants of working off a notice. -/
def metInNotice (r : Run ρ) (n : Notice) : List Instant :=
  if r.fault.isSome then []
  else
    match n with
    | .tell e a =>
      let l := r.session.cache.ledger
      if l.counters.enabled then
        metAlong (visit audience nested e a) (metInVisit audience inner e a) r (List.range l.observers)
      else []
    | _ => []

/-- The instants of a command of one step. -/
def metInStep (r : Run ρ) (c : Command Owner) : List Instant :=
  if r.fault.isSome then []
  else
    ⟨r.session, c.asked r.session.scene⟩ ::
      match r.inSession (Session.obey c) with
      | (.error _, _) => []
      | (.ok (x, notices), r) =>
        metAlong (notice audience nested) (metInNotice audience nested inner) (r.reply x) notices ++
          (notices.foldl (notice audience nested) (r.reply x)).now

/-- The instants of a command. -/
def metInCommand (r : Run ρ) (c : Command String) : List Instant :=
  match c.resolve (r.session.scene.owners[·]?) with
  | none => []
  | some c =>
    let held := c.owner?.toList
    metAlong (step audience nested) (metInStep audience nested inner)
      { r with session.scene := held.foldl Scene.retain r.session.scene, replies := #[] } c.steps

end Course

/-- The instants of a run. -/
def met (audience : Audience ρ) : Nat → Script → Run ρ → List Instant
  | 0, cs, r =>
    metAlong (command audience fun _ r => r) (metInCommand audience (fun _ r => r) fun _ _ => []) r cs
  | depth + 1, cs, r =>
    metAlong (command audience (carryOut audience depth))
      (metInCommand audience (carryOut audience depth) (met audience depth)) r cs

end Run

/-! ### Single commands -/

/-- A cache does what it is asked, if anything, and leaves these notices. -/
def Cache.Heeds (m : Moment) (c : Cache) (asked : Option (Request Owner Identity))
    (notices : List Notice) (c' : Cache) : Prop :=
  match asked with
  | none => notices = [] ∧ c' = c
  | some q => ∃ reply, (q.perform m).result c = (.ok (reply, notices), c')

/-- The cache answers what it is asked, if anything. -/
def Cache.Answers (m : Moment) (c : Cache) (asked : Option (Request Owner Identity)) : Prop :=
  ∀ q, asked = some q → ∃ x c', (q.perform m).result c = (.ok x, c')

section Obey

variable {s : Session} {c : Cache} {m : Moment}

theorem Request.perform_heeds (q : Request Owner Identity) :
    (q.perform m).Meets c (c.Answers m (some q)) fun x c' => c.Heeds m (some q) x.2 c' := by
  unfold Mutation.Meets
  rcases hx : (q.perform m).result c with ⟨f | x, c'⟩
  · intro hanswers
    obtain ⟨x, c'', hok⟩ := hanswers q rfl
    rw [hok] at hx
    cases hx
  · exact ⟨x.1, hx⟩

/-- A look-up leaves no notices. -/
theorem Request.get_heeds (image : Identity) (p : Position) :
    ((get image p).perform m).Meets c (c.Answers m (some (get image p)))
      fun x c' => x.2 = [] ∧ c.Heeds m (some (get image p)) [] c' := by
  have hnil : ((get image p).perform m).Meets c False fun x _ => x.2 = [] := by
    refine Mutation.meets_bind.2 ?_
    unfold Mutation.Meets
    rcases (Cache.lookup m image p).result c with ⟨_ | found, c'⟩
    · exact id
    · rfl
  refine (perform_heeds (get image p)).and_result.imp ?_
  rintro x c' ⟨hx, hr⟩
  have hx₂ := hnil.of_ok hr
  rw [hx₂] at hx
  exact ⟨hx₂, hx⟩

theorem Session.request_heeds (r : Request Owner Subject) :
    (request r).Meets s (s.cache.Answers s.scene.moment (r.resolve some s.scene.image?))
      fun x s' => s.cache.Heeds s.scene.moment (r.resolve some s.scene.image?) x.2 s'.cache := by
  unfold request
  rw [Mutation.meets_bind, Mutation.meets_get]
  dsimp only
  rcases r.resolve some s.scene.image? with _ | q
  · exact ⟨rfl, rfl⟩
  · exact Mutation.meets_within.2 (Request.perform_heeds q)

theorem Session.lookup_heeds (image : Subject) (p : Position) :
    (lookup image p).Meets s
      (s.cache.Answers s.scene.moment ((s.scene.image? image).map (.get · p)))
      fun _ s' => s.cache.Heeds s.scene.moment ((s.scene.image? image).map (.get · p)) [] s'.cache := by
  unfold lookup request
  simp only [Mutation.meets_bind, Mutation.meets_get, Request.resolve]
  rcases s.scene.image? image with _ | i
  · exact ⟨rfl, rfl⟩
  · refine Mutation.meets_within.2 ((Request.get_heeds i p).imp fun x c' hx => ?_)
    split <;> exact hx.2

/-- A command asks the cache what it asks, and leaves it alone otherwise. -/
theorem Session.obey_heeds (c : Command Owner) :
    (obey c).Meets s (s.cache.Answers s.scene.moment (c.asked s.scene))
      fun x s' => s.cache.Heeds s.scene.moment (c.asked s.scene) x.2 s'.cache := by
  cases c with
  | request r => exact request_heeds r
  | hold image p as =>
    refine Mutation.meets_bind.2 ((lookup_heeds image p).imp fun found s' h => ?_)
    split <;> exact h
  | keep image p as =>
    refine Mutation.meets_bind.2 ((lookup_heeds image p).imp fun found s' h => ?_)
    split <;> exact h
  | _ => exact ⟨rfl, rfl⟩

end Obey

/-! ### Trails -/

/-- Something that holds of a cache after some instants, whatever happens next. -/
structure Trail (P : List Instant → Cache → Prop) : Prop where
  counted : ∀ {past c} (h : Happening), P past c → P past (c.count h)
  heeded : ∀ {past s asked notices c'}, P past s.cache →
    s.cache.Heeds s.scene.moment asked notices c' → P (past ++ [⟨s, asked⟩]) c'

/-- It holds at each of these instants, of those before it. -/
def Throughout (P : List Instant → Cache → Prop) (past : List Instant) : List Instant → Prop
  | [] => True
  | i :: is => P past i.session.cache ∧ Throughout P (past ++ [i]) is

theorem throughout_append {P : List Instant → Cache → Prop} {past is js : List Instant} :
    Throughout P past (is ++ js) ↔ Throughout P past is ∧ Throughout P (past ++ is) js := by
  induction is generalizing past with
  | nil => simp [Throughout]
  | cons i is ih => simp [Throughout, ih, and_assoc]

theorem Throughout.before {P : List Instant → Cache → Prop} {past before after : List Instant}
    {i : Instant} (h : Throughout P past (before ++ i :: after)) :
    P (past ++ before) i.session.cache := (throughout_append.1 h).2.1

namespace Run

variable {audience : Audience ρ} {P : List Instant → Cache → Prop} {safe : List Instant → Prop}
  {r r' r'' : Run ρ} {past is js : List Instant}

/-- Unless a run has ended, it holds of its cache. -/
def On (P : List Instant → Cache → Prop) (past : List Instant) (r : Run ρ) : Prop :=
  r.fault = none → P past r.session.cache

/-- A run goes on by these instants: it holds at each of them and after them, what observers saw they
saw at one of them, and while they are safe the run does not end. -/
structure Follows (audience : Audience ρ) (P : List Instant → Cache → Prop)
    (safe : List Instant → Prop) (past : List Instant) (r : Run ρ) (is : List Instant)
    (r' : Run ρ) : Prop where
  on : r'.On P (past ++ is)
  throughout : Throughout P past is
  unharmed : safe (past ++ is) → r.fault = none → r'.fault = none
  seen : ∀ v, Remark.visit v ∈ r'.journal → Remark.visit v ∈ r.journal ∨
    ∃ i ∈ is, v.view = audience.view i.session v.entry

namespace Follows

/-- Nothing happens to the cache, and nothing is seen. -/
theorem nil (h : r'.On P past) (hf : r.fault = none → r'.fault = none)
    (hj : ∀ v, Remark.visit v ∈ r'.journal → Remark.visit v ∈ r.journal) :
    Follows audience P safe past r [] r' where
  on := by rwa [List.append_nil]
  throughout := trivial
  unharmed _ := hf
  seen v hv := .inl (hj v hv)

theorem refl (h : r.On P past) : Follows audience P safe past r [] r := .nil h id fun _ => id

theorem trans (hmono : ∀ is js, safe (is ++ js) → safe is)
    (h : Follows audience P safe past r is r')
    (h' : Follows audience P safe (past ++ is) r' js r'') :
    Follows audience P safe past r (is ++ js) r'' where
  on := by
    rw [← List.append_assoc]
    exact h'.on
  throughout := throughout_append.2 ⟨h.throughout, h'.throughout⟩
  unharmed hs hf := by
    rw [← List.append_assoc] at hs
    exact h'.unharmed hs (h.unharmed (hmono _ _ hs) hf)
  seen v hv := by
    rcases h'.seen v hv with hv | ⟨i, hi, hview⟩
    · exact (h.seen v hv).imp_right fun ⟨i, hi, hview⟩ => ⟨i, List.mem_append_left js hi, hview⟩
    · exact .inr ⟨i, List.mem_append_right is hi, hview⟩

/-- What comes before and after in the bookkeeping of a run is of no account. -/
theorem congr {q q' : Run ρ} (h : Follows audience P safe past r is r')
    (hr : q.fault = none → r.fault = none)
    (hj : ∀ v, Remark.visit v ∈ r.journal → Remark.visit v ∈ q.journal)
    (hc : q'.session.cache = r'.session.cache) (hf : q'.fault = r'.fault)
    (hj' : ∀ v, Remark.visit v ∈ q'.journal → Remark.visit v ∈ r'.journal) :
    Follows audience P safe past q is q' where
  on hq := by
    rw [hc]
    exact h.on (hf ▸ hq)
  throughout := h.throughout
  unharmed hs hq := hf ▸ h.unharmed hs (hr hq)
  seen v hv := (h.seen v (hj' v hv)).imp_left (hj v)

/-- The first instant, with what it leads to. -/
theorem cons {i : Instant} (hi : P past i.session.cache)
    (h : Follows audience P safe (past ++ [i]) r is r') :
    Follows audience P safe past r (i :: is) r' where
  on := by
    rw [List.append_cons]
    exact h.on
  throughout := ⟨hi, h.throughout⟩
  unharmed hs := by
    rw [List.append_cons] at hs
    exact h.unharmed hs
  seen v hv := (h.seen v hv).imp_right fun ⟨j, hj, hview⟩ => ⟨j, List.mem_cons_of_mem i hj, hview⟩

end Follows

/-- What goes on from any past goes on along a list. -/
theorem follows_along (hmono : ∀ is js, safe (is ++ js) → safe is) {step : Run ρ → α → Run ρ}
    {met : Run ρ → α → List Instant}
    (hstep : ∀ past r x, r.On P past →
      Follows audience P safe past r (met r x) (step r x))
    (xs : List α) (past : List Instant) (r : Run ρ) (h : r.On P past) :
    Follows audience P safe past r (metAlong step met r xs) (xs.foldl step r) := by
  induction xs generalizing past r with
  | nil => exact .refl h
  | cons x xs ih =>
    have hx := hstep past r x h
    exact hx.trans hmono (ih _ (step r x) hx.on)

section Course

variable {nested : Script → Run ρ → Run ρ} {inner : Script → Run ρ → List Instant}
  (hP : Trail P) (hmono : ∀ is js, safe (is ++ js) → safe is)
  (hanswers : ∀ past i, P past i.session.cache → safe (past ++ [i]) →
    i.session.cache.Answers i.session.scene.moment i.asked)
  (hnested : ∀ past cs (r : Run ρ), r.On P past →
    Follows audience P safe past r (inner cs r) (nested cs r))

include hP

theorem follows_now (h : r.On P past) : Follows audience P safe past r r.now r := by
  unfold now
  split
  · exact .refl h
  · next hf =>
    have hcache := h (by simpa using hf)
    exact .cons hcache (.refl fun _ => hP.heeded hcache ⟨rfl, rfl⟩)

omit hP in
include hnested in
theorem follows_callBack (cs : Script) (h : r.On P past) :
    Follows audience P safe past r (inner cs { r with allowance := r.allowance - 1, replies := #[] })
      (r.callBack nested cs) := by
  have hinner := hnested past cs { r with allowance := r.allowance - 1, replies := #[] } h
  refine hinner.congr id (fun _ => id) ?_ ?_ fun v hv => ?_
  · unfold callBack
    dsimp only
    split <;> rfl
  · unfold callBack
    dsimp only
    split <;> rfl
  · unfold callBack at hv
    dsimp only at hv
    split at hv
    · simpa [note] using hv
    · exact hv

include hmono hnested in
theorem follows_visit (e : Entry) (a : Action) (past : List Instant) (r : Run ρ) (observer : Nat)
    (h : r.On P past) :
    Follows audience P safe past r (metInVisit audience inner e a r observer)
      (visit audience nested e a r observer) := by
  unfold metInVisit visit
  split
  · exact .refl h
  · next hf =>
    let v : Visit ρ := ⟨observer, e, a, audience.view r.session e⟩
    have hcache : P past r.session.cache := h (by simpa using hf)
    have hnote : Follows audience P safe past r [⟨r.session, none⟩] (r.note (.visit v)) := by
      have hon : r.On P (past ++ [⟨r.session, none⟩]) := fun _ => hP.heeded hcache ⟨rfl, rfl⟩
      refine ⟨hon, ⟨hcache, trivial⟩, fun _ => id, fun w hw => ?_⟩
      rcases Array.mem_push.1 hw with hw | hw
      · exact .inl hw
      · cases hw
        exact .inr ⟨_, List.mem_singleton_self _, rfl⟩
    dsimp only
    generalize (if 0 < r.allowance then audience.react r.journal v else none) = response
    cases response with
    | none => exact hnote
    | some cs => exact hnote.trans hmono (follows_callBack hnested cs hnote.on)

include hmono hnested in
theorem follows_notice (past : List Instant) (r : Run ρ) (n : Notice) (h : r.On P past) :
    Follows audience P safe past r (metInNotice audience nested inner r n)
      (notice audience nested r n) := by
  unfold metInNotice notice
  split
  · exact .refl h
  · next hf =>
    have hcache : P past r.session.cache := h (by simpa using hf)
    rcases n with line | x | ⟨e, a⟩
    · exact .nil h id fun v hv => by simpa [note] using hv
    · exact .nil (fun _ => hP.counted x hcache) id fun _ => id
    · dsimp only
      split
      · exact follows_along hmono (fun past r o => follows_visit hP hmono hnested e a past r o) _
          past r h
      · exact .refl h

include hmono hanswers hnested in
theorem follows_step (past : List Instant) (r : Run ρ) (c : Command Owner) (h : r.On P past) :
    Follows audience P safe past r (metInStep audience nested inner r c)
      (step audience nested r c) := by
  unfold metInStep step
  split
  · exact .refl h
  · next hf =>
    have hcache : P past r.session.cache := h (by simpa using hf)
    let i : Instant := ⟨r.session, c.asked r.session.scene⟩
    have hobey := Session.obey_heeds (s := r.session) c
    unfold Mutation.Meets at hobey
    unfold inSession
    rcases hx : (Session.obey c).result r.session with ⟨f | ⟨x, notices⟩, s'⟩
    · rw [hx] at hobey
      refine ⟨nofun, ⟨hcache, trivial⟩, fun hs => ?_, fun v hv => .inl hv⟩
      exact absurd (hanswers past i hcache hs) hobey
    · rw [hx] at hobey
      refine .cons hcache ?_
      let r₁ : Run ρ := ({ r with session := s' } : Run ρ).reply x
      have hon : r₁.On P (past ++ [i]) := fun _ => hP.heeded hcache hobey
      have hstart : Follows audience P safe (past ++ [i]) r [] r₁ := .nil hon id fun _ => id
      have hnotices := follows_along hmono (follows_notice hP hmono hnested) notices _ r₁ hon
      have hrest := hnotices.trans hmono (follows_now hP hnotices.on)
      exact hrest.congr id (fun _ => id) rfl rfl fun _ => id

include hmono hanswers hnested in
theorem follows_command (past : List Instant) (r : Run ρ) (c : Command String) (h : r.On P past) :
    Follows audience P safe past r (metInCommand audience nested inner r c)
      (command audience nested r c) := by
  unfold metInCommand command
  generalize c.resolve (r.session.scene.owners[·]?) = resolved
  cases resolved with
  | none => exact .nil h id fun _ => id
  | some c =>
    let r₁ : Run ρ := { r with
      session.scene := c.owner?.toList.foldl Scene.retain r.session.scene
      replies := #[] }
    have hsteps := follows_along hmono (follows_step hP hmono hanswers hnested) c.steps past r₁ h
    exact hsteps.congr id (fun _ => id) rfl rfl fun _ => id

end Course

/-- By induction on the depth a whole run goes on by its instants. -/
theorem follows_carryOut (hP : Trail P) (hmono : ∀ is js, safe (is ++ js) → safe is)
    (hanswers : ∀ past i, P past i.session.cache → safe (past ++ [i]) →
      i.session.cache.Answers i.session.scene.moment i.asked)
    (depth : Nat) (past : List Instant) (cs : Script) (r : Run ρ) (h : r.On P past) :
    Follows audience P safe past r (met audience depth cs r) (carryOut audience depth cs r) := by
  induction depth generalizing past cs r with
  | zero =>
    refine follows_along hmono (follows_command hP hmono hanswers ?_) cs past r h
    exact fun past cs r h => .refl h
  | succ depth ih => exact follows_along hmono (follows_command hP hmono hanswers ih) cs past r h

/-! ### Whatever the past -/

section Reach

variable {ok : Moment → Cache → Request Owner Identity → Prop} {unharmed : Prop}

/-- If it is safe, every cache that can come about answers every request that is `ok`. -/
def Answering (ok : Moment → Cache → Request Owner Identity → Prop) (safe : Prop) : Prop :=
  safe → ∀ m c q, Reaches ok c → ok m c q → ∃ x c', (q.perform m).result c = (.ok x, c')

/-- Unless a run has ended, its cache is one that can come about. It has not ended if it is `safe`. -/
structure Sound (ok : Moment → Cache → Request Owner Identity → Prop) (safe : Prop) (r : Run ρ) :
    Prop where
  reaches : r.fault = none → Reaches ok r.session.cache
  unharmed : safe → r.fault = none

/-- What is asked at these instants is `ok`. -/
def Permitted (ok : Moment → Cache → Request Owner Identity → Prop) (is : List Instant) : Prop :=
  ∀ i ∈ is, ∀ q, i.asked = some q → ok i.session.scene.moment i.session.cache q

theorem Permitted.left (h : Permitted ok (is ++ js)) : Permitted ok is :=
  fun i hi => h i (List.mem_append_left js hi)

/-- A run goes on by these instants: it stays sound, the cache can come about at each of them, and
what observers saw they saw at one of them. -/
structure Goes (audience : Audience ρ) (ok : Moment → Cache → Request Owner Identity → Prop)
    (safe : Prop) (r : Run ρ) (is : List Instant) (r' : Run ρ) : Prop where
  sound : r'.Sound ok safe
  reaches : ∀ i ∈ is, Reaches ok i.session.cache
  seen : ∀ v, Remark.visit v ∈ r'.journal → Remark.visit v ∈ r.journal ∨
    ∃ i ∈ is, v.view = audience.view i.session v.entry

/-- If everything asked so far was `ok`, the cache can come about. -/
theorem trail_reaches (ok : Moment → Cache → Request Owner Identity → Prop) :
    Trail fun past c => Permitted ok past → Reaches ok c where
  counted x h hp := .counted x (h hp)
  heeded {past s asked notices c'} h hheeds hp := by
    have hreach := h hp.left
    cases asked with
    | none => exact hheeds.2 ▸ hreach
    | some q =>
      obtain ⟨reply, hr⟩ := hheeds
      exact .performed hreach (hp _ (List.mem_append_right past List.mem_cons_self) q rfl) hr

/-- While every request is `ok`, the cache is one that can come about at every instant. -/
theorem goes_carryOut (hsafe : Answering ok unharmed) (depth : Nat) (cs : Script) (r : Run ρ)
    (h : r.Sound ok unharmed) (hp : Permitted ok (met audience depth cs r)) :
    Goes audience ok unharmed r (met audience depth cs r) (carryOut audience depth cs r) := by
  have hfollows : Follows audience (fun past c => Permitted ok past → Reaches ok c)
      (fun past => unharmed ∧ Permitted ok past) [] r (met audience depth cs r)
      (carryOut audience depth cs r) :=
    follows_carryOut (trail_reaches ok) (fun is js hs => ⟨hs.1, hs.2.left⟩)
      (fun past i hi hs q hq => hsafe hs.1 _ _ q (hi hs.2.left)
        (hs.2 i (List.mem_append_right past List.mem_cons_self) q hq))
      depth [] cs r fun hf _ => h.reaches hf
  refine ⟨⟨fun hf => hfollows.on hf hp, fun hs => hfollows.unharmed ⟨hs, hp⟩ (h.unharmed hs)⟩, ?_,
    hfollows.seen⟩
  intro i hi
  obtain ⟨before, after, hsplit⟩ := List.append_of_mem hi
  have hthroughout := hfollows.throughout
  rw [hsplit] at hthroughout hp
  exact hthroughout.before hp.left

end Reach

end Run

end TileStore
