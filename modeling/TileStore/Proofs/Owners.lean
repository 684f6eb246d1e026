import TileStore.Proofs.Scene

/-!
# Who is gone stays gone

A session is `Session.Rooted` if all references to owners are counted, those that are held while commands
work for an owner included, and if no entry has an owner that was never made. A command keeps it so and
brings no owner back: `Session.Rooted.obey`. Observers may ask for commands in the middle of others, so
runs are followed in the way they are put together: `Run.Ages` says of a part of a run that its session
is rooted all along, and that at no instant an owner is alive that was gone at an earlier one. The owner
of a command is held from before its steps until after them (`Run.ages_command`); for the commands of
observers the owners held outside are just some more.
-/

namespace TileStore

open Mutation

/-! ### Requests and commands -/

/-- What a request makes belongs to its owner. -/
theorem Request.owner_of_made {q : Request Owner Identity} {l : Ledger} {e : Entry}
    (h : e ∈ q.made l) : ∃ o, q.owner? = some o ∧ e.owner = o.number := by
  have hmadeFrom : ∀ {owner overhead seq tiles}, e ∈ Vault.madeFrom owner overhead seq tiles →
      e.owner = owner.number := by
    intro owner overhead seq tiles he
    induction tiles generalizing seq with
    | nil => cases he
    | cons t tiles ih =>
      rcases List.mem_cons.1 he with rfl | he
      · rfl
      · exact ih he
  cases q with
  | add owner p payload cost => exact ⟨owner, rfl, List.mem_singleton.1 h ▸ rfl⟩
  | addBatch owner points payloads costs =>
    exact ⟨owner, rfl, hmadeFrom h⟩
  | _ => cases h

theorem Request.owner?_of_resolve {r : Request Owner Subject} {q : Request Owner Identity}
    {image? : Subject → Option Identity} (h : r.resolve some image? = some q) :
    q.owner? = r.owner? := by
  cases r with
  | add | addBatch | flush | relieve | setCapacity | setThreshold | enable | disable | reset | report
  | list =>
    cases h
    rfl
  | get | getAll | tilesOf | contains | remove | removeImage =>
    obtain ⟨i, -, rfl⟩ := Option.map_eq_some_iff.1 h
    rfl

/-- What a command asks of the cache is for its owner. -/
theorem Command.owner?_of_asked {c : Command Owner} {scene : Scene} {q : Request Owner Identity}
    {o : Owner} (h : c.asked scene = some q) (ho : q.owner? = some o) : c.owner? = some o := by
  cases c with
  | request r => exact (Request.owner?_of_resolve h).symm.trans ho
  | hold image p as | keep image p as =>
    obtain ⟨i, -, rfl⟩ := Option.map_eq_some_iff.1 h
    cases ho
  | _ => cases h

/-- The steps of a command have its owner. -/
theorem Command.owner?_of_mem_steps {c c' : Command Owner} {o : Owner} (h : c' ∈ c.steps)
    (ho : c'.owner? = some o) : c.owner? = some o := by
  cases c with
  | addEach owner tiles =>
    obtain ⟨t, -, rfl⟩ := List.mem_map.1 h
    exact ho
  | _ => exact List.mem_singleton.1 h ▸ ho

/-- The owner of a command has a name. -/
theorem Command.exists_name_of_resolve {c : Command String} {c' : Command Owner}
    {owner? : String → Option Owner} {o : Owner} (h : c.resolve owner? = some c')
    (ho : c'.owner? = some o) : ∃ name, owner? name = some o := by
  cases c with
  | request r =>
    obtain ⟨q, hq, rfl⟩ := Option.map_eq_some_iff.1 h
    cases r with
    | add name | addBatch name =>
      obtain ⟨o', ho', rfl⟩ := Option.map_eq_some_iff.1 hq
      cases ho
      exact ⟨name, ho'⟩
    | _ =>
      cases hq
      cases ho
  | addEach name tiles =>
    obtain ⟨o', ho', rfl⟩ := Option.map_eq_some_iff.1 h
    cases ho
    exact ⟨name, ho'⟩
  | _ =>
    cases h
    cases ho

/-! ### Sessions -/

namespace Session

variable {s s' : Session} {held : List Owner} {o : Owner}

/-- All references are counted, and the owners of what is cached are objects that were made. -/
structure Rooted (held : List Owner) (s : Session) : Prop where
  backed : s.scene.Backed held
  sound : s.cache.Sound
  owned : ∀ {k e}, s.cache.get? k = some e → e.owner < s.scene.references.size

/-- Only the scene changes. -/
theorem Rooted.inScene {held' : List Owner} {scene : Scene} (h : s.Rooted held)
    (hb : scene.Backed held') (hl : s.scene.Later scene) :
    Rooted held' { s with scene := scene } :=
  ⟨hb, h.sound, fun hk => (h.owned hk).trans_le hl.size⟩

theorem Rooted.count (h : s.Rooted held) (x : Happening) :
    Rooted held { s with cache := s.cache.count x } where
  backed := h.backed
  sound := Cache.Sound.editLedger (f := (·.count x)) h.sound (Cache.retuned_count _ x)
  owned {k e} hk := by
    rw [Cache.count, Cache.get?_editLedger] at hk
    exact h.owned hk

theorem Rooted.heeded {m : Moment} {asked : Option (Request Owner Identity)} {notices : List Notice}
    {c : Cache} (h : s.Rooted held) (hheeds : s.cache.Heeds m asked notices c)
    (hasked : ∀ q o, asked = some q → q.owner? = some o → o ∈ held) :
    Rooted held { s with cache := c } := by
  cases asked with
  | none => exact hheeds.2 ▸ h
  | some q =>
    obtain ⟨reply, hr⟩ := hheeds
    have hrecorded := (Request.perform_recorded m q h.sound).of_ok hr
    refine ⟨h.backed, ((Request.perform_meets m q h.sound).of_ok hr).sound, fun hk => ?_⟩
    rcases hrecorded.written ▸ hrecorded.story.found hk with hold | hmade
    · exact h.owned hold
    · obtain ⟨o, ho, heq⟩ := Request.owner_of_made hmade
      rw [heq]
      exact Scene.lt_of_count (h.backed.count_pos (hasked q o rfl ho))

/-- A look-up says truly whether the owner is gone, and leaves the scene alone. -/
theorem lookup_scene (image : Subject) (p : Position) :
    (lookup image p).Meets s False fun found s' => s'.scene = s.scene ∧
      ∀ x, found = some x → x.stale = x.entry.isStale s.scene.moment := by
  unfold lookup request
  simp only [meets_bind, meets_get, Request.resolve]
  rcases s.scene.image? image with _ | i
  · exact ⟨rfl, fun x hx => by cases hx⟩
  · refine meets_within.2 (meets_bind.2 ((meets_any _ _).imp fun found c _ => ?_))
    refine ⟨rfl, fun x hx => ?_⟩
    obtain ⟨e, -, rfl⟩ := Option.map_eq_some_iff.1 hx
    rfl

theorem request_scene (r : Request Owner Subject) :
    (request r).Meets s False fun _ s' => s'.scene = s.scene := by
  unfold request
  rw [meets_bind, meets_get]
  dsimp only
  rcases r.resolve some s.scene.image? with _ | q
  · rfl
  · exact meets_within.2 ((meets_any _ _).imp fun _ _ _ => rfl)

/-- A command keeps the references counted, and brings back no owner. -/
theorem obey_scene (c : Command Owner) (h : s.scene.Backed held) :
    (obey c).Meets s False fun _ s' => s'.scene.Backed held ∧ s.scene.Later s'.scene := by
  cases c with
  | adopt name image => exact ⟨h.adopt name image, Scene.later_adopt _ name image⟩
  | drop name => exact ⟨h.drop name, Scene.later_drop _ name⟩
  | letGo as => exact ⟨h.letGo as, Scene.later_letGo _ as⟩
  | advance microseconds => exact ⟨h, le_rfl, fun _ _ => id⟩
  | hold image p as =>
    refine meets_bind.2 ((lookup_scene image p).imp fun found s' hs => ?_)
    obtain ⟨hscene, hstale⟩ := hs
    split
    · next e status =>
      have halive : 0 < s.scene.count e.owner := by
        simpa [Entry.isStale, Scene.alive_moment] using hstale _ rfl
      rw [← hscene] at h halive ⊢
      exact ⟨h.hold as halive, Scene.later_hold halive as⟩
    · exact ⟨hscene ▸ h, hscene ▸ .refl _⟩
  | keep image p as =>
    refine meets_bind.2 ((lookup_scene image p).imp fun found s' hs => ?_)
    obtain ⟨hscene, -⟩ := hs
    rw [← hscene] at h ⊢
    cases found with
    | none => exact ⟨h, .refl _⟩
    | some seen => exact ⟨h, le_rfl, fun _ _ => id⟩
  | revisit as => exact ⟨h, .refl _⟩
  | request r => exact (request_scene r).imp fun _ s' hs => ⟨hs ▸ h, hs ▸ .refl _⟩
  | addEach | malformed => exact ⟨h, .refl _⟩

/-- A command whose owner is held keeps a session rooted. -/
theorem Rooted.obey (h : s.Rooted held) (c : Command Owner) (hc : ∀ o, c.owner? = some o → o ∈ held) :
    (obey c).Meets s False fun _ s' => s'.Rooted held ∧ s.scene.Later s'.scene := by
  refine (((obey_heeds c).mono False.elim fun _ _ h => h).and (obey_scene c h.backed)).imp ?_
  rintro x s' ⟨hheeds, hbacked, hlater⟩
  have hcache := h.heeded hheeds fun q o hq ho => hc o (Command.owner?_of_asked hq ho)
  exact ⟨hcache.inScene hbacked hlater, hlater⟩

end Session

/-! ### Runs -/

namespace Run

variable {ρ : Type} {α : Type} {audience : Audience ρ} {held : List Owner} {r r' r'' : Run ρ}
  {is js : List Instant}

/-- Unless it has ended, a run is in a rooted session. -/
def Rooted (held : List Owner) (r : Run ρ) : Prop := r.fault = none → r.session.Rooted held

/-- A run goes on by these instants. The session is rooted all along, and owners that are gone at one of
the instants, or before, are gone at those that follow. -/
structure Ages (held : List Owner) (r : Run ρ) (is : List Instant) (r' : Run ρ) : Prop where
  rooted : r'.Rooted held
  unharmed : r'.fault = none → r.fault = none
  later : r'.fault = none → r.session.scene.Later r'.session.scene
  met : ∀ i ∈ is, r.fault = none ∧ r.session.scene.Later i.session.scene ∧
    (r'.fault = none → i.session.scene.Later r'.session.scene) ∧
    ∃ held, i.session.Rooted held ∧ ∀ q o, i.asked = some q → q.owner? = some o → o ∈ held
  ordered : is.Pairwise fun i j => i.session.scene.Later j.session.scene

namespace Ages

/-- Only the scene changes. -/
theorem nil (h : r'.Rooted held) (hf : r'.fault = none → r.fault = none)
    (hl : r'.fault = none → r.session.scene.Later r'.session.scene) : Ages held r [] r' :=
  ⟨h, hf, hl, fun _ hi => absurd hi List.not_mem_nil, .nil⟩

theorem refl (h : r.Rooted held) : Ages held r [] r := .nil h id fun _ => .refl _

theorem trans {held' : List Owner} (h : Ages held r is r') (h' : Ages held' r' js r'') :
    Ages held' r (is ++ js) r'' where
  rooted := h'.rooted
  unharmed hf := h.unharmed (h'.unharmed hf)
  later hf := (h.later (h'.unharmed hf)).trans (h'.later hf)
  met i hi := by
    rcases List.mem_append.1 hi with hi | hi
    · obtain ⟨hf, hbefore, hafter, hrooted⟩ := h.met i hi
      exact ⟨hf, hbefore, fun hf => (hafter (h'.unharmed hf)).trans (h'.later hf), hrooted⟩
    · obtain ⟨hf, hbefore, hafter, hrooted⟩ := h'.met i hi
      exact ⟨h.unharmed hf, (h.later hf).trans hbefore, hafter, hrooted⟩
  ordered := by
    refine List.pairwise_append.2 ⟨h.ordered, h'.ordered, fun i hi j hj => ?_⟩
    obtain ⟨hf, hbefore, -⟩ := h'.met j hj
    exact ((h.met i hi).2.2.1 hf).trans hbefore

/-- Only the sessions matter, and whether the runs have ended. -/
theorem congr {q q' : Run ρ} (h : Ages held r is r') (hs : q.session = r.session)
    (hf : q.fault = r.fault) (hs' : q'.session = r'.session) (hf' : q'.fault = r'.fault) :
    Ages held q is q' := by
  obtain ⟨⟩ := q
  obtain ⟨⟩ := q'
  cases hs
  cases hf
  cases hs'
  cases hf'
  exact ⟨h.rooted, h.unharmed, h.later, h.met, h.ordered⟩

/-- The first instant, with what it leads to. -/
theorem cons {i : Instant} (hf : r.fault = none) (hi : i.session = r.session)
    (hr : ∃ held, i.session.Rooted held ∧ ∀ q o, i.asked = some q → q.owner? = some o → o ∈ held)
    (h : Ages held r is r') : Ages held r (i :: is) r' where
  rooted := h.rooted
  unharmed := h.unharmed
  later := h.later
  met j hj := by
    rcases List.mem_cons.1 hj with rfl | hj
    · exact ⟨hf, hi ▸ .refl _, fun hf' => hi ▸ h.later hf', hr⟩
    · exact h.met j hj
  ordered := List.pairwise_cons.2 ⟨fun j hj => hi ▸ (h.met j hj).2.1, h.ordered⟩

end Ages

theorem ages_along {step : Run ρ → α → Run ρ} {met : Run ρ → α → List Instant} {xs : List α}
    (hstep : ∀ r, ∀ x ∈ xs, r.Rooted held → Ages held r (met r x) (step r x)) (r : Run ρ)
    (h : r.Rooted held) : Ages held r (metAlong step met r xs) (xs.foldl step r) := by
  induction xs generalizing r with
  | nil => exact .refl h
  | cons x xs ih =>
    have hx := hstep r x List.mem_cons_self h
    exact hx.trans (ih (fun r x hx => hstep r x (List.mem_cons_of_mem _ hx)) (step r x) hx.rooted)

theorem ages_now (h : r.Rooted held) : Ages held r r.now r := by
  unfold now
  split
  · exact .refl h
  · next hf =>
    have hf : r.fault = none := by simpa using hf
    exact .cons hf rfl ⟨held, h hf, nofun⟩ (.refl h)

section Course

variable {nested : Script → Run ρ → Run ρ} {inner : Script → Run ρ → List Instant}
  (hnested : ∀ held cs (r : Run ρ), r.Rooted held → Ages held r (inner cs r) (nested cs r))

include hnested

theorem ages_callBack (cs : Script) (h : r.Rooted held) :
    Ages held r (inner cs { r with allowance := r.allowance - 1, replies := #[] })
      (r.callBack nested cs) := by
  refine (hnested held cs { r with allowance := r.allowance - 1, replies := #[] } h).congr rfl rfl ?_ ?_
  · unfold callBack
    dsimp only
    split <;> rfl
  · unfold callBack
    dsimp only
    split <;> rfl

theorem ages_visit (e : Entry) (a : Action) (r : Run ρ) (observer : Nat) (h : r.Rooted held) :
    Ages held r (metInVisit audience inner e a r observer)
      (visit audience nested e a r observer) := by
  unfold metInVisit visit
  split
  · exact .refl h
  · next hf =>
    have hf : r.fault = none := by simpa using hf
    let v : Visit ρ := ⟨observer, e, a, audience.view r.session e⟩
    have hnote : (r.note (.visit v)).Rooted held := h
    dsimp only
    generalize (if 0 < r.allowance then audience.react r.journal _ else none) = response
    refine .cons hf rfl ⟨held, h hf, nofun⟩ ?_
    cases response with
    | none => exact (Ages.refl hnote).congr rfl rfl rfl rfl
    | some cs => exact (ages_callBack hnested cs hnote).congr rfl rfl rfl rfl

theorem ages_notice (r : Run ρ) (n : Notice) (h : r.Rooted held) :
    Ages held r (metInNotice audience nested inner r n) (notice audience nested r n) := by
  unfold metInNotice notice
  split
  · exact .refl h
  · rcases n with line | x | ⟨e, a⟩
    · exact (Ages.refl h).congr rfl rfl rfl rfl
    · exact .nil (fun hf => (h hf).count x) id fun _ => .refl _
    · dsimp only
      split
      · exact ages_along (fun r o _ => ages_visit hnested e a r o) r h
      · exact .refl h

theorem ages_step (r : Run ρ) (c : Command Owner) (hc : ∀ o, c.owner? = some o → o ∈ held)
    (h : r.Rooted held) :
    Ages held r (metInStep audience nested inner r c) (step audience nested r c) := by
  unfold metInStep step
  split
  · exact .refl h
  · next hf =>
    have hf : r.fault = none := by simpa using hf
    have hasked : ∀ q o, c.asked r.session.scene = some q → q.owner? = some o → o ∈ held :=
      fun q o hq ho => hc o (Command.owner?_of_asked hq ho)
    have hobey := (h hf).obey c hc
    unfold Meets at hobey
    unfold inSession
    rcases hx : (Session.obey c).result r.session with ⟨f | ⟨x, notices⟩, s'⟩
    · refine .cons hf rfl ⟨held, h hf, hasked⟩ (.nil nofun nofun nofun)
    · rw [hx] at hobey
      obtain ⟨hrooted, hlater⟩ := hobey
      let r₁ : Run ρ := ({ r with session := s' } : Run ρ).reply x
      have hstart : Ages held r [] r₁ := .nil (fun _ => hrooted) id fun _ => hlater
      have hnotices : Ages held r₁
          (metAlong (notice audience nested) (metInNotice audience nested inner) r₁ notices)
          (notices.foldl (notice audience nested) r₁) :=
        ages_along (fun r n _ => ages_notice hnested r n) r₁ hstart.rooted
      exact .cons hf rfl ⟨held, h hf, hasked⟩
        (hstart.trans (hnotices.trans (ages_now hnotices.rooted)))

theorem ages_command (r : Run ρ) (c : Command String) (h : r.Rooted held) :
    Ages held r (metInCommand audience nested inner r c) (command audience nested r c) := by
  unfold metInCommand command
  cases hresolve : c.resolve (r.session.scene.owners[·]?) with
  | none => exact (Ages.refl h).congr rfl rfl rfl rfl
  | some c' =>
    have hsteps : ∀ (held) (r : Run ρ), (∀ o, c'.owner? = some o → o ∈ held) → r.Rooted held →
        Ages held r (metAlong (step audience nested) (metInStep audience nested inner) r c'.steps)
          (c'.steps.foldl (step audience nested) r) := fun held r hheld h =>
      ages_along (fun r c'' hc'' h => ages_step hnested r c''
        (fun o ho => hheld o (Command.owner?_of_mem_steps hc'' ho)) h) r h
    dsimp only
    cases ho : c'.owner? with
    | none =>
      have hrun := hsteps held { r with replies := #[] } (by simp [ho]) h
      exact hrun.congr rfl rfl rfl rfl
    | some o =>
      -- the owner has a name before the command, and is released after it
      obtain ⟨name, hname⟩ := Command.exists_name_of_resolve hresolve ho
      let r₁ : Run ρ := { r with session.scene := r.session.scene.retain o, replies := #[] }
      let r₂ : Run ρ := c'.steps.foldl (step audience nested) r₁
      let r₃ : Run ρ := { r₂ with session.scene := r₂.session.scene.release o }
      have hstart : Ages (o :: held) r [] r₁ := by
        have halive : r.fault = none → 0 < r.session.scene.count o.number := fun hf =>
          (h hf).backed.count_pos_of_owners hname
        have hlater : r.fault = none → r.session.scene.Later (r.session.scene.retain o) := fun hf =>
          Scene.later_retain (halive hf)
        exact .nil (fun hf => (h hf).inScene ((h hf).backed.retain (halive hf)) (hlater hf)) id hlater
      have hrun := hsteps (o :: held) r₁ (by simp [ho]) hstart.rooted
      have hend : Ages held r₂ [] r₃ := by
        have hlater := r₂.session.scene.later_release o
        refine .nil (fun hf => ?_) id fun _ => hlater
        exact (hrun.rooted hf).inScene (hrun.rooted hf).backed.release hlater
      have hall := (hstart.trans hrun).trans hend
      rw [List.nil_append, List.append_nil] at hall
      exact hall.congr rfl rfl rfl rfl

end Course

/-- By induction on the depth. -/
theorem ages_carryOut (depth : Nat) (held : List Owner) (cs : Script) (r : Run ρ)
    (h : r.Rooted held) : Ages held r (met audience depth cs r) (carryOut audience depth cs r) := by
  induction depth generalizing held cs r with
  | zero =>
    exact ages_along (fun r c _ => ages_command (fun held cs r h => .refl h) r c) r h
  | succ depth ih => exact ages_along (fun r c _ => ages_command ih r c) r h

/-- A run of a cache that was built begins rooted if all references of the scene are counted. -/
theorem rooted_of_build {s : Settings} {observers : Nat} {c : Cache}
    (hb : Cache.build s observers = .ok c) {scene : Scene} (hscene : scene.Backed []) :
    Session.Rooted [] ⟨scene, c⟩ where
  backed := hscene
  sound := (Cache.consistent_of_build hb).sound
  owned {k e} hk := by
    rw [(Cache.fresh_of_build hb).2.2.1] at hk
    cases hk

end Run

end TileStore
