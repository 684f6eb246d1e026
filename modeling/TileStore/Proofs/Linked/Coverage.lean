import TileStore.Proofs.Linked.Sweeps
import TileStore.Proofs.Owners

/-!
# No slot is overlooked

The sweeps of a run between two flushes are made one after the other, whoever asks for them and whatever
is done in between. This is true at every instant of the run, since a step takes the course of the sweeps
on: `Cache.Sweeping.next`, and by induction over the run `Run.exists_course`. In a course no slot is
jumped over, so sweeps that come to enough slots together inspect all that there were at first. An owner
that is gone stays gone (`Run.stale_of_earlier`), so an entry that was stale at first is so whenever it is
inspected, and can be left only if the pass spares it or has met its target. `sweep_overlooks_nothing`
puts both together.
-/

namespace TileStore

open Vault

/-! ### Instants -/

/-- The sweeps of what is asked at an instant. -/
def Instant.sweeps (i : Instant) : List Sweep :=
  match i.asked, i.session.cache with
  | some q, .linked v => q.sweeps i.session.scene.moment v
  | _, _ => []

theorem Instant.exists_of_mem_sweeps {i : Instant} {p : Sweep} (h : p ∈ i.sweeps) :
    ∃ q v, i.asked = some q ∧ i.session.cache = .linked v ∧ p ∈ q.sweeps i.session.scene.moment v := by
  unfold sweeps at h
  split at h
  · next q v hq hv => exact ⟨q, v, hq, hv, h⟩
  · cases h

/-- What is asked at an instant makes its sweeps one after the other. -/
theorem Instant.exists_course {i : Instant} {v : Linked} (hv : i.session.cache = .linked v) :
    ∃ n' w, Course v.ledger.nextSeq v i.sweeps n' w := by
  obtain ⟨⟨scene, c⟩, asked⟩ := i
  obtain rfl : c = .linked v := hv
  cases asked with
  | none => exact ⟨_, v, .refl _ v⟩
  | some q => exact q.exists_course scene.moment v

/-- A sweep starts from a sound cache, and who is in it then was there at the instant or is made by what
is asked. -/
theorem Instant.begins_of_mem_sweeps {i : Instant} {p : Sweep} (hc : i.session.cache.Sound)
    (h : p ∈ i.sweeps) : p.moment = i.session.scene.moment ∧ p.before.Sound ∧
      ∀ e ∈ p.before.entries, (∃ k, i.session.cache.get? k = some e) ∨
        ∃ q, i.asked = some q ∧ e ∈ q.made i.session.cache.ledger := by
  obtain ⟨q, v, hq, hv, hp⟩ := exists_of_mem_sweeps h
  rw [hv] at hc ⊢
  obtain ⟨hm, used, hstarts⟩ := Request.starts_of_mem_sweeps hp
  have hbegins := hstarts.begins hc
  refine ⟨hm, hbegins.sound, fun e he => ?_⟩
  have hfound : p.before.tiles e.key = some e := (hbegins.sound.shelf.mem e).1 he
  exact (hbegins.found hfound).imp (fun hk => ⟨e.key, hk⟩) fun hmade => ⟨q, hq, hmade⟩

/-- A linked cache is consistent, and since the last flush it made the sweeps of its requests one after
the other. -/
structure Cache.Sweeping (past : List Instant) (c : Cache) : Prop where
  consistent : c.Consistent .linked
  course : ∀ before during, past = before ++ during → (∀ i ∈ during, i.asked ≠ some .flush) →
    ∃ n v w, v.store.Below n ∧ c = .linked w ∧
      Course n v (during.flatMap Instant.sweeps) w.ledger.nextSeq w

theorem Cache.Consistent.below {v : Linked} (h : (linked v).Consistent .linked) :
    v.store.Below v.ledger.nextSeq := by
  intro i e hi
  obtain ⟨r, hr, rfl⟩ := Option.map_eq_some_iff.1 hi
  exact h.serial.lt ((Vault.Sound.valid h.sound).get?_key hr)

/-- What is asked next takes the course on. -/
theorem Cache.Sweeping.next {past : List Instant} {s : Session} {asked : Option (Request Owner Identity)}
    {notices : List Notice} {c' : Cache} (h : s.cache.Sweeping past)
    (hheeds : s.cache.Heeds s.scene.moment asked notices c') :
    c'.Sweeping (past ++ [⟨s, asked⟩]) := by
  have hconsistent := h.consistent.heeded hheeds
  obtain ⟨w', rfl⟩ : ∃ w', c' = .linked w' := by
    cases c' with
    | linked w' => exact ⟨w', rfl⟩
    | sharded w' => cases hconsistent.layout_eq
  refine ⟨hconsistent, fun before during hsplit hflush => ?_⟩
  rcases during.eq_nil_or_concat with rfl | ⟨earlier, i, rfl⟩
  · exact ⟨_, w', w', hconsistent.below, rfl, .refl _ w'⟩
  · rw [List.concat_eq_append, ← List.append_assoc] at hsplit
    obtain ⟨rfl, hi⟩ := List.append_inj' hsplit rfl
    obtain rfl := List.singleton_inj.1 hi
    rw [List.concat_eq_append, List.forall_mem_append, List.forall_mem_singleton] at hflush
    obtain ⟨n, v, w, hbelow, hcache, hcourse⟩ := h.course before earlier rfl hflush.1
    obtain ⟨scene, c⟩ := s
    obtain rfl : c = .linked w := hcache
    refine ⟨n, v, w', hbelow, rfl, ?_⟩
    rw [List.concat_eq_append, List.flatMap_append, List.flatMap_singleton]
    refine hcourse.trans ?_
    cases asked with
    | none =>
      obtain rfl := Cache.linked.inj hheeds.2
      exact .refl _ _
    | some q =>
      obtain ⟨reply, hr⟩ := hheeds
      have hq : q ≠ .flush := fun hq => hflush.2 (congrArg some hq)
      have hsound : w.Sound := h.consistent.sound
      obtain ⟨v', hv', hperforms⟩ := (Request.performs scene.moment q hsound hq).of_ok hr
      obtain rfl := Cache.linked.inj hv'
      have hnext : w'.ledger.nextSeq = w.ledger.nextSeq + (q.made w.ledger).length :=
        ((Request.perform_recorded (c := .linked w) scene.moment q hsound).of_ok hr).nextSeq
      exact hnext ▸ hperforms.course

theorem trail_sweeping : Trail Cache.Sweeping where
  counted {past c} a h := by
    refine ⟨h.consistent.count a, fun before during hsplit hflush => ?_⟩
    obtain ⟨n, v, w, hbelow, rfl, hcourse⟩ := h.course before during hsplit hflush
    exact ⟨n, v, w.count a, hbelow, rfl, hcourse.of_store rfl rfl⟩
  heeded h hheeds := h.next hheeds

/-! ### Runs -/

section Runs

variable {ρ : Type} {s : Settings} {observers : Nat} {c : Cache} {scene : Scene} {audience : Audience ρ}
  {allowance depth : Nat} {cs : Script} {before during after : List Instant}

theorem Cache.sweeping_of_build (hb : build s observers = .ok c) (hs : s.layout = .linked) :
    c.Sweeping [] := by
  have hconsistent : c.Consistent .linked := hs ▸ consistent_of_build hb
  refine ⟨hconsistent, fun earlier later hnil _ => ?_⟩
  obtain ⟨rfl, rfl⟩ := List.append_eq_nil_iff.1 hnil.symm
  cases c with
  | linked v => exact ⟨_, v, v, hconsistent.below, rfl, .refl _ v⟩
  | sharded v => cases hconsistent.layout_eq

/-- At every instant of a run a linked cache has come through the sweeps of the instants before it. -/
theorem Run.sweeping_of_met (hb : Cache.build s observers = .ok c) (hs : s.layout = .linked)
    {i : Instant} (hsplit : met audience depth cs { session := ⟨scene, c⟩, allowance := allowance } =
      before ++ i :: after) : i.session.cache.Sweeping before := by
  let r : Run ρ := { session := ⟨scene, c⟩, allowance := allowance }
  have hfollows : Follows audience Cache.Sweeping (fun _ => False) [] r (met audience depth cs r)
      (carryOut audience depth cs r) :=
    follows_carryOut trail_sweeping (fun _ _ => id) (fun _ _ _ => False.elim) depth [] cs r
      fun _ => Cache.sweeping_of_build hb hs
  have hthroughout := hfollows.throughout
  rw [hsplit] at hthroughout
  exact hthroughout.before

theorem Run.consistent_of_mem_during (hb : Cache.build s observers = .ok c) (hs : s.layout = .linked)
    (hsplit : met audience depth cs { session := ⟨scene, c⟩, allowance := allowance } =
      before ++ during ++ after) {i : Instant} (hi : i ∈ during) :
    i.session.cache.Consistent .linked := by
  obtain ⟨front, back, rfl⟩ := List.append_of_mem hi
  have hmet : met audience depth cs { session := ⟨scene, c⟩, allowance := allowance } =
      (before ++ front) ++ i :: (back ++ after) := hsplit.trans (by simp)
  exact (sweeping_of_met hb hs hmet).consistent

/-- The sweeps of a run between two flushes are made one after the other. -/
theorem Run.exists_course (hb : Cache.build s observers = .ok c) (hs : s.layout = .linked)
    (hsplit : met audience depth cs { session := ⟨scene, c⟩, allowance := allowance } =
      before ++ during ++ after) (hflush : ∀ i ∈ during, i.asked ≠ some .flush) :
    ∃ n v n' v', v.store.Below n ∧ Course n v (during.flatMap Instant.sweeps) n' v' := by
  rcases during.eq_nil_or_concat with rfl | ⟨earlier, i, rfl⟩
  · obtain ⟨n, v, w, hbelow, -, hcourse⟩ := (Cache.sweeping_of_build hb hs).course [] [] rfl
      fun _ hi => absurd hi List.not_mem_nil
    exact ⟨n, v, _, w, hbelow, hcourse⟩
  rw [List.concat_eq_append] at hsplit hflush ⊢
  have hmet : met audience depth cs { session := ⟨scene, c⟩, allowance := allowance } =
      (before ++ earlier) ++ i :: after := hsplit.trans (by simp)
  have hsweeping := sweeping_of_met hb hs hmet
  obtain ⟨n, v, w, hbelow, hcache, hcourse⟩ := hsweeping.course before earlier rfl fun j hj =>
    hflush j (List.mem_append_left _ hj)
  obtain ⟨n', w', hlast⟩ := Instant.exists_course hcache
  rw [List.flatMap_append, List.flatMap_singleton]
  exact ⟨n, v, n', w', hbelow, hcourse.trans hlast⟩

/-- Sweeps start from sound caches. -/
theorem Run.sound_of_mem_sweeps (hb : Cache.build s observers = .ok c) (hs : s.layout = .linked)
    (hsplit : met audience depth cs { session := ⟨scene, c⟩, allowance := allowance } =
      before ++ during ++ after) {p : Sweep} (hp : p ∈ during.flatMap Instant.sweeps) :
    p.before.Sound := by
  obtain ⟨i, hi, hp⟩ := List.mem_flatMap.1 hp
  exact (Instant.begins_of_mem_sweeps (consistent_of_mem_during hb hs hsplit hi).sound hp).2.1

/-- Who is without an owner when a sweep starts will be so when later ones do. -/
theorem Run.stale_of_earlier (hb : Cache.build s observers = .ok c) (hscene : scene.Backed [])
    (hsplit : met audience depth cs { session := ⟨scene, c⟩, allowance := allowance } =
      before ++ during ++ after) :
    (during.flatMap Instant.sweeps).Pairwise fun p p' =>
      ∀ e ∈ p.before.entries, e.isStale p.moment → e.isStale p'.moment := by
  let r : Run ρ := { session := ⟨scene, c⟩, allowance := allowance }
  have hages : Ages [] r (met audience depth cs r) (carryOut audience depth cs r) :=
    ages_carryOut depth [] cs r fun _ => rooted_of_build hb hscene
  have hsub : during.Sublist (met audience depth cs r) := by
    rw [hsplit, List.append_assoc]
    exact (List.sublist_append_left during after).trans (List.sublist_append_right before _)
  have hbegins : ∀ i ∈ during, ∀ p ∈ i.sweeps, p.moment = i.session.scene.moment ∧
      ∀ e ∈ p.before.entries, e.owner < i.session.scene.references.size := by
    intro i hi p hp
    obtain ⟨-, -, -, held, hrooted, hasked⟩ := hages.met i (hsub.mem hi)
    obtain ⟨hm, -, hfound⟩ := Instant.begins_of_mem_sweeps hrooted.sound hp
    refine ⟨hm, fun e he => ?_⟩
    rcases hfound e he with ⟨k, hk⟩ | ⟨q, hq, hmade⟩
    · exact hrooted.owned hk
    · obtain ⟨o, ho, heq⟩ := Request.owner_of_made hmade
      rw [heq]
      exact Scene.lt_of_count (hrooted.backed.count_pos (hasked q o hq ho))
  refine List.pairwise_flatMap.2 ⟨fun i hi => ?_, ?_⟩
  · refine List.pairwise_of_forall_mem_list fun p hp p' hp' e _ hstale => ?_
    rwa [(hbegins i hi p' hp').1, ← (hbegins i hi p hp).1]
  · refine (hages.ordered.sublist hsub).imp_of_mem fun hi hj hlater p hp p' hp' e he hstale => ?_
    obtain ⟨hm, howner⟩ := hbegins _ hi p hp
    rw [hm] at hstale
    rw [(hbegins _ hj p' hp').1]
    have hgone := hlater.gone e.owner (howner e he) (by
      simpa [Entry.isStale, Scene.alive_moment] using hstale)
    simp [Entry.isStale, Scene.alive_moment, hgone]

/-- The log tells of each sweep at an instant. -/
theorem Instant.passLines_eq {i : Instant} (hc : i.session.cache.Consistent .linked)
    (hflush : i.asked ≠ some .flush) {q : Request Owner Identity} {x : Reply × List Notice} {c' : Cache}
    (hq : i.asked = some q)
    (hr : (q.perform i.session.scene.moment).result i.session.cache = (.ok x, c')) :
    Notice.passLines x.2 = i.sweeps.map Sweep.line := by
  obtain ⟨⟨scene, c⟩, asked⟩ := i
  obtain rfl : asked = some q := hq
  cases c with
  | sharded v => cases hc.layout_eq
  | linked v =>
    have hq : q ≠ .flush := fun hq => hflush (congrArg some hq)
    obtain ⟨v', -, hperforms⟩ := (Request.performs scene.moment q hc.sound hq).of_ok hr
    exact hperforms.lines

/-- **The sweep overlooks no slot.** In any run of a linked cache take any passes above their target
that follow each other, with no flush in between; for requests that are answered, the log tells of every
pass. If they come to as many slots together as there are at the last one, they inspect every slot that
there was at the first one. So who had no owner when they began, and stays cached until they have ended,
was inspected, and every pass that inspected it either spared it or came to it only when the target had
been met. -/
theorem sweep_overlooks_nothing (hb : Cache.build s observers = .ok c) (hs : s.layout = .linked)
    (scene : Scene) (audience : Audience ρ) (allowance depth : Nat) (cs : Script)
    {earlier later ps : List Sweep} {first last : Sweep}
    (hsplit : Run.met audience depth cs { session := ⟨scene, c⟩, allowance := allowance } =
      before ++ during ++ after)
    (hflush : ∀ i ∈ during, i.asked ≠ some .flush)
    (hps : during.flatMap Instant.sweeps = earlier ++ ps ++ later)
    (hfirst : ps.head? = some first) (hlast : ps.getLast? = some last)
    (hround : last.slots ≤ 64 * ps.length) :
    (∀ i ∈ during, ∀ q x c', i.asked = some q →
      (q.perform i.session.scene.moment).result i.session.cache = (.ok x, c') →
      Notice.passLines x.2 = i.sweeps.map Sweep.line) ∧
    (∀ slot < first.slots, ∃ p ∈ ps, slot ∈ p.inspected) ∧
    (scene.Backed [] → ∀ e : Entry, e.isStale first.moment →
      (∀ p ∈ ps, e ∈ p.before.entries ∧ e ∈ p.after.entries) →
      ∃ slot, (∀ p ∈ ps, p.before.store.entryAt? slot = some e) ∧
        (∃ p ∈ ps, slot ∈ p.inspected) ∧
        ∀ p ∈ ps, slot ∈ p.inspected → some e.key = p.protect ∨
          ∃ front back, p.stale = front ++ e :: back ∧ p.victims <+: front ∧
            p.after.ledger.memoryUsed ≤ p.before.ledger.target) := by
  obtain ⟨rest, rfl⟩ : ∃ rest, ps = first :: rest := List.head?_eq_some_iff.1 hfirst
  obtain ⟨n, v, n', v', hbelow, hcourse⟩ := Run.exists_course hb hs hsplit hflush
  have hmem : ∀ p ∈ first :: rest, p ∈ during.flatMap Instant.sweeps := fun p hp => by
    rw [hps]
    exact List.mem_append_left _ (List.mem_append_right _ hp)
  rw [hps, List.append_assoc, List.cons_append] at hcourse
  obtain ⟨k, hbelow, hcourse⟩ := hcourse.resume hbelow
  rw [← List.cons_append] at hcourse
  obtain ⟨k', w, hcourse⟩ := hcourse.leave
  have hcover : ∀ slot < first.slots, ∃ p ∈ first :: rest, slot ∈ p.inspected := fun slot hslot =>
    hcourse.exists_inspected hlast hslot (by rwa [Nat.mul_comm] at hround)
  refine ⟨fun i hi q x c' hq hr => ?_, hcover, fun hscene e hstale hcached => ?_⟩
  · exact Instant.passLines_eq (Run.consistent_of_mem_during hb hs hsplit hi) (hflush i hi) hq hr
  have hsound : ∀ p ∈ first :: rest, p.before.Sound := fun p hp =>
    Run.sound_of_mem_sweeps hb hs hsplit (hmem p hp)
  have hstales : ∀ p ∈ first :: rest, e.isStale p.moment := by
    have hpairs := Run.stale_of_earlier hb hscene hsplit
    rw [hps, List.append_assoc, List.cons_append] at hpairs
    have hlater := (List.pairwise_cons.1 (List.pairwise_append.1 hpairs).2.1).1
    intro p hp
    rcases List.mem_cons.1 hp with rfl | hp
    · exact hstale
    · exact hlater p (List.mem_append_left _ hp) e (hcached first List.mem_cons_self).1 hstale
  obtain ⟨slot, hlt, hslot⟩ := (hsound first List.mem_cons_self).valid.exists_slot
    (hcached first List.mem_cons_self).1
  have hslots : ∀ p ∈ first :: rest, p.before.store.entryAt? slot = some e := by
    intro p hp
    obtain ⟨j, -, hj⟩ := (hsound p hp).valid.exists_slot (hcached p hp).1
    rwa [← hcourse.same_slot hbelow (hsound first List.mem_cons_self) hp hslot hj]
  refine ⟨slot, hslots, hcover slot hlt, fun p hp hinspected => ?_⟩
  obtain ⟨-, pass, hok⟩ := hcourse.of_mem hp
  exact Sweep.passes_over (hsound p hp) hok (hslots p hp) hinspected (hstales p hp) (hcached p hp).2

end Runs

/-- One owner adds sixty-four tiles and another two; the other one is dropped, and each of two more tiles
starts a pass. The first pass comes to no tile of the dropped owner. The second goes on where the first
stopped, comes to both of them and evicts one: with that it has met its target, so the other one stays. -/
theorem sweep_overlooks_nothing_two_passes :
    let tile (x : Int32) : Position := { Position.origin with x := x }
    let payload : Payload := ⟨⟨8, 100, 1⟩, 0⟩
    let s : Settings := { layout := .linked, capacity := 23496, threshold := .one }
    let audience : Audience Nat := { view s _ := s.cache.entries.length, react _ _ := none }
    let cs : Script := [.adopt "a" (.hashed 1), .adopt "b" (.hashed 2),
      .request (.addBatch "a" ((List.range 64).map fun x => tile (.ofNat x))
        (List.replicate 64 payload) none),
      .request (.addBatch "b" [tile 0, tile 1] [payload, payload] (some [.one, .one])), .drop "b",
      .request (.add "a" (tile 64) payload none), .request (.add "a" (tile 65) payload none)]
    let is := Run.met audience 0 cs { session := ⟨{}, Cache.new s 0⟩ }
    let ps := is.flatMap Instant.sweeps
    let e := Entry.new ⟨1, .hashed 2⟩ (tile 1) payload (some .one) 256 65
    ps.map (fun p => (p.slots, p.victims.map (·.seq), p.stale.map (·.seq))) =
        [(67, [0], []), (67, [64], [64, 65])] ∧
      (∀ slot < 67, ∃ p ∈ ps, slot ∈ p.inspected) ∧
      ∃ slot, (∀ p ∈ ps, p.before.store.entryAt? slot = some e) ∧ (∃ p ∈ ps, slot ∈ p.inspected) ∧
        ∀ p ∈ ps, slot ∈ p.inspected → some e.key = p.protect ∨
          ∃ front back, p.stale = front ++ e :: back ∧ p.victims <+: front ∧
            p.after.ledger.memoryUsed ≤ p.before.ledger.target := by
  intro tile payload s audience cs is ps e
  have hfacts : (is.all fun i => i.asked.all (·.owner?.isSome)) = true ∧
      ps.map (fun p => (p.slots, p.victims.map (·.seq), p.stale.map (·.seq))) =
        [(67, [0], []), (67, [64], [64, 65])] ∧
      ∀ p ∈ ps, e.isStale p.moment ∧ e ∈ p.before.entries ∧ e ∈ p.after.entries := by
    decide +kernel
  obtain ⟨hasks, hpasses, hcached⟩ := hfacts
  clear_value e
  clear_value (his : is = _)
  have hflush : ∀ i ∈ is, i.asked ≠ some .flush := by
    intro i hi hflush
    have hask := List.all_eq_true.1 hasks i hi
    rw [hflush] at hask
    cases hask
  obtain ⟨first, last, hps⟩ : ∃ first last, ps = [first, last] :=
    List.length_eq_two.1 (by simpa using congrArg List.length hpasses)
  have hslots : first.slots = 67 ∧ last.slots = 67 := by
    simp only [hps, List.map_cons, List.map_nil, List.cons.injEq, Prod.mk.injEq] at hpasses
    exact ⟨hpasses.1.1, hpasses.2.1.1⟩
  have hbuild : Cache.build s 0 = .ok (Cache.new s 0) := rfl
  have hsplit : Run.met audience 0 cs { session := ⟨{}, Cache.new s 0⟩ } = [] ++ is ++ [] := by
    rw [List.nil_append, List.append_nil, his]
  have hsweeps : is.flatMap Instant.sweeps = [] ++ [first, last] ++ [] := hps
  obtain ⟨-, hcover, hleft⟩ := sweep_overlooks_nothing hbuild rfl {} audience 0 0 cs hsplit hflush
    hsweeps rfl rfl (by simp [hslots.2])
  rw [← hps] at hcover hleft
  exact ⟨hpasses, fun slot hslot => hcover slot (hslots.1 ▸ hslot), hleft Scene.backed_empty e
    (hcached first (hps ▸ List.mem_cons_self)).1 fun p hp => (hcached p hp).2⟩

end TileStore
