import TileStore.Proofs.Agenda
import TileStore.Proofs.EventLog

/-!
# Observers hear of writes first

A request changes the store at once and is announced afterwards, event by event and to one observer
after the other. An observer that calls back meanwhile may take out what is cached but not yet
announced to all: the entry it is told of, which those after it in line do not know of, or a later
tile of a batch. Then they hear that the entry is gone before they hear that it was written:
`gone_heard_first`.

Nothing else ever turns events around: `writes_heard_first`. The proof goes by what an observer has
been told and what it is still owed by the agenda. Whatever is cached has its write in one of them,
`Heard.cached`, and if it is owed by an outer level, this is because somebody called back,
`Heard.waiting`.
-/

namespace TileStore

/-! ### Told in time -/

/-- What an observer is told by these remarks. -/
def Remark.toldTo {ρ : Type} (o : Nat) (js : List (Remark ρ)) : List Event :=
  js.filterMap fun
    | .visit v => if v.observer = o then some (v.entry, v.action) else none
    | _ => none

open Remark (toldTo)

/-- An entry has gone only after it was written. -/
def ToldInOrder (xs : List Event) : Prop :=
  ∀ before e a after, xs = before ++ (e, a) :: after → a.isWrite = false → e ∈ writtenIn before

/-- Several tiles are to be cached at once. -/
def Instant.asksBatch (i : Instant) : Bool := i.asked matches some (.addBatch ..)

section InTime

variable {ρ : Type}

/-- Somebody is told of something while an observer is still to be told that an entry was written:
it is this write, which the observer is told of later, or an earlier event of a batch that the entry
is from. -/
def Visit.Forestalls (w : Visit ρ) (is : List Instant) (o : Nat) (e : Entry) : Prop :=
  w.entry = e ∧ w.action.isWrite = true ∧ w.observer < o ∨
    ∃ i ∈ is, i.asksBatch = true ∧
      ∃ xs ys, i.events = xs ++ (w.entry, w.action) :: ys ∧ e ∈ writtenIn ys

/-- Somebody calls back while the entry is cached and this observer is still to be told of its
write. -/
def Preempted (audience : Audience ρ) (is : List Instant) (js : List (Remark ρ)) (o : Nat)
    (e : Entry) : Prop :=
  ∃ earlier w later, js = earlier ++ .visit w :: later ∧
    (audience.react earlier.toArray w).isSome = true ∧
    e ∉ writtenIn (toldTo o (earlier ++ [.visit w])) ∧
    (∃ i ∈ is, w.view = audience.view i.session w.entry ∧ i.session.cache.get? e.key = some e) ∧
    w.Forestalls is o e

/-- The observer has been told that the entry was written, or somebody was ahead of it. -/
def Apprised (audience : Audience ρ) (is : List Instant) (js : List (Remark ρ)) (o : Nat)
    (e : Entry) : Prop :=
  e ∈ writtenIn (toldTo o js) ∨ Preempted audience is js o e

/-- Whoever is told that an entry has gone was apprised of it before. -/
def WritesFirst (audience : Audience ρ) (is : List Instant) (js : List (Remark ρ)) : Prop :=
  ∀ before v after, js = before ++ .visit v :: after → v.action.isWrite = false →
    Apprised audience is before v.observer v.entry

variable {audience : Audience ρ} {is is' : List Instant} {js ms : List (Remark ρ)} {o : Nat}
  {e : Entry}

theorem toldTo_append (o : Nat) (js ms : List (Remark ρ)) :
    toldTo o (js ++ ms) = toldTo o js ++ toldTo o ms := List.filterMap_append

theorem toldTo_visit (o : Nat) (v : Visit ρ) :
    toldTo o [.visit v] = if v.observer = o then [(v.entry, v.action)] else [] := by
  unfold Remark.toldTo
  rw [List.filterMap_cons]
  dsimp only
  split <;> simp_all

theorem mem_writtenIn {xs : List Event} :
    e ∈ writtenIn xs ↔ ∃ a, (e, a) ∈ xs ∧ a.isWrite = true := by
  simp [writtenIn]

theorem Visit.Forestalls.mono {w : Visit ρ} (h : w.Forestalls is o e) (his : is <+: is') :
    w.Forestalls is' o e :=
  h.imp_right fun ⟨i, hi, hrest⟩ => ⟨i, his.subset hi, hrest⟩

theorem Apprised.mono (h : Apprised audience is js o e) (his : is <+: is') (ms : List (Remark ρ)) :
    Apprised audience is' (js ++ ms) o e := by
  rcases h with h | ⟨earlier, w, later, rfl, hreact, huntold, ⟨i, hi, hview⟩, hforestalls⟩
  · left
    rw [toldTo_append, writtenIn_append]
    exact List.mem_append_left _ h
  · exact .inr ⟨earlier, w, later ++ ms, by simp, hreact, huntold, ⟨i, his.subset hi, hview⟩,
      hforestalls.mono his⟩

theorem WritesFirst.mono (h : WritesFirst audience is js) (his : is <+: is') :
    WritesFirst audience is' js := fun before v after hsplit hgone => by
  have hbefore := (h before v after hsplit hgone).mono his []
  rwa [List.append_nil] at hbefore

/-- The first observer hears of everything in order unless tiles are cached in batches. -/
theorem WritesFirst.toldInOrder (h : WritesFirst audience is js)
    (hsingle : ∀ i ∈ is, i.asksBatch = false) : ToldInOrder (toldTo 0 js) := by
  intro before e a after hsplit hgone
  obtain ⟨js₁, js₂, rfl, hbefore, hrest⟩ := List.filterMap_eq_append_iff.1 hsplit
  obtain ⟨js₃, m, js₄, rfl, hnone, hm, -⟩ := List.filterMap_eq_cons_iff.1 hrest
  have htoldTo : toldTo 0 (js₁ ++ js₃) = before := by
    have hnil : toldTo 0 js₃ = [] := List.filterMap_eq_nil_iff.2 hnone
    rw [toldTo_append, hnil, List.append_nil]
    exact hbefore
  cases m with
  | log | reacted => cases hm
  | visit v =>
    dsimp only at hm
    split at hm
    · next ho =>
      cases hm
      have hv := h (js₁ ++ js₃) v js₄ (by simp) hgone
      rw [ho] at hv
      rcases hv with htold | ⟨-, w, -, -, -, -, -, ⟨-, -, hlt⟩ | ⟨i, hi, hbatch, -⟩⟩
      · rwa [htoldTo] at htold
      · exact absurd hlt (Nat.not_lt_zero _)
      · rw [hsingle i hi] at hbatch
        cases hbatch
    · cases hm

/-- One more remark. -/
theorem WritesFirst.concat {m : Remark ρ} (h : WritesFirst audience is js)
    (hm : ∀ v, m = .visit v → v.action.isWrite = false →
      Apprised audience is js v.observer v.entry) :
    WritesFirst audience is (js ++ [m]) := by
  intro before v after hsplit hgone
  rcases after.eq_nil_or_concat with rfl | ⟨after, last, rfl⟩
  · obtain ⟨rfl, hv⟩ := List.append_inj' hsplit rfl
    exact hm v (List.cons.inj hv).1 hgone
  · have hinit : js ++ [m] = (before ++ .visit v :: after) ++ [last] := by simp [hsplit]
    exact h before v after (List.append_inj' hinit rfl).1 hgone

end InTime

/-! ### What is owed -/

/-- The event that is told of. -/
def Due.event? : Due → Option Event
  | .notice (.tell e a) | .visits _ e a => some (e, a)
  | _ => none

/-- The event that an observer is still to be told of. -/
def Due.owed? (o : Nat) : Due → Option Event
  | .notice (.tell e a) => some (e, a)
  | .visits os e a => if o ∈ os then some (e, a) else none
  | _ => none

theorem Due.event?_of_owed? {o : Nat} {d : Due} {x : Event} (h : d.owed? o = some x) :
    d.event? = some x := by
  unfold owed? at h
  split at h
  · exact h
  · split at h
    · exact h
    · cases h
  · cases h

/-- What an observer is still to be told. -/
def Agenda.owed (o : Nat) (agenda : Agenda) : List Event := agenda.flatten.filterMap (Due.owed? o)

theorem Agenda.owed_cons (o : Nat) (level : List Due) (outer : Agenda) :
    owed o (level :: outer) = level.filterMap (Due.owed? o) ++ owed o outer := by
  rw [owed, List.flatten_cons, List.filterMap_append]
  rfl

theorem Due.events_notices (ns : List Notice) :
    (ns.map Due.notice).filterMap event? = Notice.told ns := by
  rw [List.filterMap_map]
  refine List.filterMap_congr fun n _ => ?_
  cases n <;> rfl

theorem Due.owed_notices (o : Nat) (ns : List Notice) :
    (ns.map Due.notice).filterMap (owed? o) = Notice.told ns := by
  rw [List.filterMap_map]
  refine List.filterMap_congr fun n _ => ?_
  cases n <;> rfl

/-- A level of the agenda announces what remains of the events of an instant, to one observer after
the other. -/
structure Announced (past : List Instant) (n : Nat) (level : List Due) : Prop where
  origin : level.filterMap Due.event? ≠ [] →
    ∃ i ∈ past, i.session.cache.Sound ∧ level.filterMap Due.event? <:+ i.events
  ahead : ∀ {os e a}, Due.visits os e a ∈ level → os.Pairwise (· < ·) ∧ ∀ o ∈ os, o < n

namespace Announced

variable {past past' : List Instant} {n o : Nat} {os : List Nat} {own : List Due} {e : Entry}
  {a : Action}

theorem nil (past : List Instant) (n : Nat) : Announced past n [] := ⟨fun h => absurd rfl h, nofun⟩

theorem mono (h : Announced past n own) (hpast : past <+: past') : Announced past' n own where
  origin hne := (h.origin hne).imp fun _ hi => ⟨hpast.subset hi.1, hi.2⟩
  ahead := h.ahead

theorem tail {d : Due} (h : Announced past n (d :: own)) : Announced past n own where
  origin hne := by
    have hsuffix : own.filterMap Due.event? <:+ (d :: own).filterMap Due.event? :=
      (List.suffix_cons d own).filterMap _
    obtain ⟨i, hi, hsound, hi'⟩ := h.origin fun hnil => hne (List.suffix_nil.1 (hnil ▸ hsuffix))
    exact ⟨i, hi, hsound, hsuffix.trans hi'⟩
  ahead hd := h.ahead (List.mem_cons_of_mem _ hd)

theorem told (h : Announced past n (.notice (.tell e a) :: own)) :
    Announced past n (.visits (List.range n) e a :: own) where
  origin := h.origin
  ahead hd := by
    rcases List.mem_cons.1 hd with hd | hd
    · cases hd
      exact ⟨List.pairwise_lt_range, fun o ho => List.mem_range.1 ho⟩
    · exact h.tail.ahead hd

theorem visited (h : Announced past n (.visits (o :: os) e a :: own)) :
    Announced past n (.visits os e a :: own) where
  origin := h.origin
  ahead hd := by
    rcases List.mem_cons.1 hd with hd | hd
    · cases hd
      obtain ⟨hsorted, hlt⟩ := h.ahead List.mem_cons_self
      exact ⟨hsorted.tail, fun o ho => hlt o (List.mem_cons_of_mem _ ho)⟩
    · exact h.tail.ahead hd

end Announced

/-! ### What requests announce -/

/-- A write is announced, and then only what had to go. -/
def Notice.Single (ns : List Notice) : Prop :=
  ∃ e a, ∃ es : List Entry, told ns = (e, a) :: es.map (·, .evicted)

open Mutation (meets_bind meets_any)

/-- When a tile is cached this is announced first. -/
theorem Request.add_single (m : Moment) (owner : Owner) (p : Position) (payload : Payload)
    (cost : Option Binary64) (c : Cache) :
    ((add owner p payload cost).perform m).Meets c False fun x _ => Notice.Single x.2 := by
  refine meets_bind.2 ?_
  cases c with
  | linked v =>
    refine Cache.meets_byLayout_linked.2 <| meets_bind.2 <| (meets_any _ v).imp fun _ v₁ _ =>
      meets_bind.2 <| (meets_any _ v₁).imp fun w _ _ => ?_
    refine ⟨w.entry, .ofWrite w.replaced, w.pass.victims, ?_⟩
    simp [Linked.Written.notices]
  | sharded v =>
    refine Cache.meets_byLayout_sharded.2 <| meets_bind.2 <| (meets_any _ v).imp fun e v₁ _ =>
      meets_bind.2 <| (meets_any _ v₁).imp fun replaced v₂ _ => meets_bind.2 <|
        (meets_any _ v₂).imp fun pass _ _ => ?_
    refine ⟨e, .ofWrite replaced, pass.victims, ?_⟩
    simp

/-- Only of a batch is a write announced after something else. -/
theorem Instant.batch_of_later {i : Instant} {xs ys : List Event} {x : Event} {e : Entry}
    (h : i.session.cache.Sound) (hs : i.events = xs ++ x :: ys) (he : e ∈ writtenIn ys) :
    i.asksBatch = true := by
  obtain ⟨s, _ | q⟩ := i
  · simp [events] at hs
  rcases hr : (q.perform s.scene.moment).result s.cache with ⟨f | ⟨reply, notices⟩, c'⟩
  · simp [events, hr] at hs
  rw [events_eq hr] at hs
  have hwritten := ((Request.perform_recorded s.scene.moment q h).of_ok hr).written
  have hmade : e ∈ q.made s.cache.ledger := by
    rw [← hwritten, hs, writtenIn_append, writtenIn_cons]
    refine List.mem_append_right _ ?_
    split
    · exact List.mem_cons_of_mem _ he
    · exact he
  cases q with
  | addBatch owner points payloads costs => rfl
  | add owner p payload cost =>
    obtain ⟨f, a, es, htold⟩ :=
      (Request.add_single s.scene.moment owner p payload cost s.cache).of_ok hr
    have hsuffix : ys <:+ es.map (·, Action.evicted) := by
      rw [hs] at htold
      rcases xs with _ | ⟨y, xs⟩
      · exact (List.cons.inj htold).2 ▸ List.suffix_rfl
      · exact ⟨xs ++ [x], by simpa using (List.cons.inj htold).2⟩
    obtain ⟨zs, hzs⟩ := hsuffix
    have hnone := writtenIn_evicted es
    rw [← hzs, writtenIn_append, List.append_eq_nil_iff] at hnone
    rw [hnone.2] at he
    cases he
  | _ => cases hmade

/-- A story may be told in parts. -/
theorem Tiles.Story.of_append {g g' : Tiles} {xs ys : List Event} (h : g.Story (xs ++ ys) g') :
    ∃ g₁, g.Story xs g₁ ∧ g₁.Story ys g' := by
  induction xs generalizing g with
  | nil => exact ⟨g, .nil g, h⟩
  | cons x xs ih =>
    cases h with
    | cons hx hrest =>
      obtain ⟨g₁, hxs, hys⟩ := ih hrest
      exact ⟨g₁, .cons hx hxs, hys⟩

/-- What has gone was there before or has been written. -/
theorem Tiles.Story.was_there {g g' : Tiles} {xs ys : List Event} {e : Entry} {a : Action}
    (h : g.Story (xs ++ (e, a) :: ys) g') (ha : a.isWrite = false) :
    g e.key = some e ∨ e ∈ writtenIn xs := by
  obtain ⟨g₁, hxs, hrest⟩ := h.of_append
  cases hrest with
  | cons hx _ =>
    cases hx with
    | write => simp at ha
    | gone _ hk => exact hxs.found hk

/-- Counting stays enabled unless it is disabled. -/
theorem Request.switched_true {q : Request Owner Identity} (h : q ≠ .disable) :
    q.switched true = true := by
  cases q with
  | disable => exact absurd rfl h
  | _ => rfl

/-! ### What an observer has heard -/

section Heard

variable {ρ : Type}

/-- An observer has been told, or is owed, the write of whatever is cached. Before it is told that
an entry has gone it is apprised, and so it is already of cached entries whose write an outer level
owes it. -/
structure Heard (audience : Audience ρ) (past : List Instant) (agenda : Agenda) (c : Cache)
    (js : List (Remark ρ)) (o : Nat) : Prop where
  cached : ∀ {k e}, c.get? k = some e → e ∈ writtenIn (toldTo o js ++ agenda.owed o)
  gone : ∀ {xs e a ys}, agenda.owed o = xs ++ (e, a) :: ys → a.isWrite = false →
    e ∈ writtenIn xs ∨ Apprised audience past js o e
  waiting : ∀ {e}, e ∈ writtenIn (Agenda.owed o agenda.tail) → c.get? e.key = some e →
    Apprised audience past js o e
  seq_lt : ∀ {e}, e ∈ writtenIn (agenda.owed o) → e.seq < c.ledger.nextSeq

variable {audience : Audience ρ} {past past' : List Instant} {agenda agenda' outer : Agenda}
  {c c' : Cache} {js ms : List (Remark ρ)} {o : Nat} {s : Session} {q : Request Owner Identity}
  {notices : List Notice}

variable (ms) in
/-- What is owed is told, and nothing else happens. -/
theorem Heard.carry (h : Heard audience past agenda c js o) (hpast : past <+: past')
    (howed : agenda.owed o = toldTo o ms ++ agenda'.owed o)
    (htail : Agenda.owed o agenda'.tail <:+ Agenda.owed o agenda.tail) (hget : c'.get? = c.get?)
    (hnext : c'.ledger.nextSeq = c.ledger.nextSeq) :
    Heard audience past' agenda' c' (js ++ ms) o where
  cached hk := by
    have hc := h.cached (hget ▸ hk)
    rwa [howed, ← List.append_assoc, ← toldTo_append] at hc
  gone {xs e a ys} hsplit ha := by
    have hgone : e ∈ writtenIn (toldTo o ms ++ xs) ∨ Apprised audience past js o e :=
      h.gone (by rw [howed, hsplit, List.append_assoc]) ha
    rw [writtenIn_append, List.mem_append] at hgone
    rcases hgone with (htold | hxs) | hjs
    · right; left
      rw [toldTo_append, writtenIn_append]
      exact List.mem_append_right _ htold
    · exact .inl hxs
    · exact .inr (hjs.mono hpast ms)
  waiting {e} he hk := by
    obtain ⟨xs, hxs⟩ := htail
    refine (h.waiting ?_ (hget ▸ hk)).mono hpast ms
    rw [← hxs, writtenIn_append]
    exact List.mem_append_right _ he
  seq_lt {e} he := by
    rw [hnext]
    refine h.seq_lt ?_
    rw [howed, writtenIn_append]
    exact List.mem_append_right _ he

/-- Something is asked at a level at which nothing is left to do. -/
theorem Heard.asked (h : Heard audience past ([] :: outer) s.cache js o)
    (hr : Recorded s.cache.get? s.cache.ledger (q.made s.cache.ledger) true notices c'.get?
      c'.ledger)
    (hpast : past <+: past') : Heard audience past' (notices.map .notice :: outer) c' js o := by
  have howed : Agenda.owed o (notices.map .notice :: outer) =
      Notice.told notices ++ Agenda.owed o outer := by
    rw [Agenda.owed_cons, Due.owed_notices]
  have happrised : ∀ {e}, Apprised audience past js o e → Apprised audience past' js o e := by
    intro e he
    have hmono := he.mono hpast []
    rwa [List.append_nil] at hmono
  have hbefore : ∀ {e : Entry}, s.cache.get? e.key = some e → Apprised audience past' js o e := by
    intro e hk
    have hc := h.cached hk
    rw [writtenIn_append, List.mem_append] at hc
    exact happrised (hc.elim .inl fun hwait => h.waiting hwait hk)
  refine ⟨fun {k e} hk => ?_, fun {xs e a ys} hsplit ha => ?_, fun {e} he hk => ?_,
    fun {e} he => ?_⟩
  · have hc : e ∈ writtenIn (toldTo o js ++ Agenda.owed o outer) ∨
        e ∈ writtenIn (Notice.told notices) :=
      (hr.story.found hk).imp_left h.cached
    rw [howed]
    simp only [writtenIn_append, List.mem_append] at hc ⊢
    exact hc.elim (fun hold => hold.imp_right .inr) fun hnew => .inr (.inl hnew)
  · rw [howed, List.append_eq_append_iff] at hsplit
    rcases hsplit with ⟨zs, rfl, houter⟩ | ⟨zs, htold, hzs⟩
    · rcases h.gone houter ha with hw | hw
      · left
        rw [writtenIn_append]
        exact List.mem_append_right _ hw
      · exact .inr (happrised hw)
    · rcases zs with _ | ⟨z, zs⟩
      · have hfirst : e ∈ writtenIn [] ∨ Apprised audience past js o e := h.gone hzs.symm ha
        exact .inr (happrised (hfirst.resolve_left List.not_mem_nil))
      · obtain ⟨rfl, -⟩ := List.cons.inj hzs
        exact ((htold ▸ hr.story).was_there ha).symm.imp_right hbefore
  · rcases hr.story.found hk with hold | hnew
    · exact happrised (h.waiting he hold)
    · rw [hr.written] at hnew
      exact absurd (h.seq_lt he) (Nat.not_lt.2 (Request.seq_of_made hnew).1)
  · rw [howed, writtenIn_append, List.mem_append, hr.written] at he
    rw [hr.nextSeq]
    rcases he with hnew | hold
    · exact (Request.seq_of_made hnew).2
    · exact Nat.lt_add_right _ (h.seq_lt hold)

/-- An observer that is told of something calls back: what is left of its level waits. -/
theorem Heard.opened {o' : Nat} {os : List Nat} {e : Entry} {a : Action} {own : List Due}
    {j : Array (Remark ρ)} {cs : Script} {n : Nat}
    (h : Heard audience past ((.visits os e a :: own) :: outer) s.cache
      (j.toList ++ [.visit ⟨o', e, a, audience.view s e⟩]) o)
    (hlevel : Announced past n (.visits (o' :: os) e a :: own)) (hnow : ⟨s, none⟩ ∈ past)
    (hreact : audience.react j ⟨o', e, a, audience.view s e⟩ = some cs) :
    Heard audience past ([] :: (.visits os e a :: own) :: outer) s.cache
      (j.toList ++ [.visit ⟨o', e, a, audience.view s e⟩]) o where
  cached := h.cached
  gone := h.gone
  seq_lt := h.seq_lt
  waiting {f} hf hk := by
    let w : Visit ρ := ⟨o', e, a, audience.view s e⟩
    rw [List.tail_cons, Agenda.owed_cons, writtenIn_append, List.mem_append] at hf
    rcases hf with hf | hf
    · rcases Classical.em (f ∈ writtenIn (toldTo o (j.toList ++ [.visit w]))) with htold | huntold
      · exact .inl htold
      refine .inr ⟨j.toList, w, [], rfl, by simp [w, hreact], huntold, ⟨_, hnow, rfl, hk⟩, ?_⟩
      obtain ⟨b, hb, hwrite⟩ := mem_writtenIn.1 hf
      obtain ⟨d, hd, howed⟩ := List.mem_filterMap.1 hb
      rcases List.mem_cons.1 hd with rfl | hd
      · -- The write that is being announced: those that are told later are still owed it.
        left
        simp only [Due.owed?] at howed
        split at howed
        · next ho =>
          cases howed
          exact ⟨rfl, hwrite, List.rel_of_pairwise_cons (hlevel.ahead List.mem_cons_self).1 ho⟩
        · cases howed
      · right
        have hlater : f ∈ writtenIn (own.filterMap Due.event?) :=
          mem_writtenIn.2 ⟨b, List.mem_filterMap.2 ⟨d, hd, Due.event?_of_owed? howed⟩, hwrite⟩
        obtain ⟨i, hi, hsound, xs, hxs⟩ := hlevel.origin (by simp [Due.event?])
        have hevents : i.events = xs ++ (e, a) :: own.filterMap Due.event? := hxs.symm
        exact ⟨i, hi, Instant.batch_of_later hsound hevents hlater, xs, _, hevents, hlater⟩
    · exact h.waiting hf hk

end Heard

/-! ### Runs -/

/-- Counting is not disabled. -/
def StaysOn (is : List Instant) : Prop := ∀ i ∈ is, i.asked ≠ some .disable

instance (is : List Instant) : Decidable (StaysOn is) :=
  decidable_of_iff (∀ i ∈ is, (i.asked matches some .disable) = false) <|
    forall₂_congr fun ⟨_, asked⟩ _ => by
      rcases asked with _ | q
      · simp
      · cases q <;> simp

theorem StaysOn.left {is js : List Instant} (h : StaysOn (is ++ js)) : StaysOn is :=
  fun i hi => h i (List.mem_append_left js hi)

/-- While counting stays enabled, every observer is told, and of writes first. -/
structure Attended {ρ : Type} (audience : Audience ρ) (layout : Layout) (n : Nat)
    (past : List Instant) (agenda : Agenda) (c : Cache) (j : Array (Remark ρ)) : Prop where
  consistent : c.Consistent layout
  enabled : c.ledger.counters.enabled = true
  observers : c.ledger.observers = n
  levels : ∀ level ∈ agenda, Announced past n level
  heard : ∀ o < n, Heard audience past agenda c j.toList o
  journal : WritesFirst audience past j.toList

section Upholds

variable {ρ : Type} {audience : Audience ρ} {layout : Layout} {n : Nat} {past past' : List Instant}
  {agenda agenda' outer : Agenda} {own : List Due} {c c' : Cache} {j : Array (Remark ρ)}
  {s : Session} {notices : List Notice} {e : Entry} {a : Action}

/-- What is owed is told, and nothing else happens. -/
theorem Attended.carry {j' : Array (Remark ρ)} (h : Attended audience layout n past agenda c j)
    (ms : List (Remark ρ)) (hpast : past <+: past')
    (hj : j'.toList = j.toList ++ ms)
    (howed : ∀ o < n, agenda.owed o = toldTo o ms ++ agenda'.owed o)
    (htail : ∀ o, Agenda.owed o agenda'.tail <:+ Agenda.owed o agenda.tail)
    (hlevels : ∀ level ∈ agenda', Announced past' n level)
    (hnew : WritesFirst audience past (j.toList ++ ms)) :
    Attended audience layout n past' agenda' c j' where
  consistent := h.consistent
  enabled := h.enabled
  observers := h.observers
  levels := hlevels
  heard o ho := by
    rw [hj]
    exact (h.heard o ho).carry ms hpast (howed o ho) (htail o) rfl rfl
  journal := by
    rw [hj]
    exact hnew.mono hpast

/-- Something is asked at a level at which nothing is left to do. -/
theorem Attended.asked {asked : Option (Request Owner Identity)}
    (h : Attended audience layout n past ([] :: outer) s.cache j) (hon : asked ≠ some .disable)
    (hheeds : s.cache.Heeds s.scene.moment asked notices c') :
    Attended audience layout n (past ++ [⟨s, asked⟩]) (notices.map .notice :: outer) c' j := by
  have hpast : past <+: past ++ [⟨s, asked⟩] := List.prefix_append _ _
  have houter : ∀ level ∈ outer, Announced (past ++ [⟨s, asked⟩]) n level := fun level hl =>
    (h.levels level (List.mem_cons_of_mem _ hl)).mono hpast
  rcases asked with _ | q
  · obtain ⟨rfl, rfl⟩ := hheeds
    refine h.carry [] hpast (List.append_nil _).symm (fun _ _ => rfl) (fun _ => List.suffix_rfl)
      (List.forall_mem_cons.2 ⟨.nil _ _, houter⟩) ?_
    rw [List.append_nil]
    exact h.journal
  · have hconsistent := h.consistent.heeded hheeds
    obtain ⟨reply, hr⟩ := hheeds
    have hrecorded := (Request.perform_recorded s.scene.moment q h.consistent.sound).of_ok hr
    rw [h.enabled, Request.switched_true fun hq => hon (congrArg some hq)] at hrecorded
    have hlevel : Announced (past ++ [⟨s, some q⟩]) n (notices.map .notice) := by
      have hevents : (notices.map Due.notice).filterMap Due.event? = Instant.events ⟨s, some q⟩ :=
        (Due.events_notices notices).trans (Instant.events_eq hr).symm
      refine ⟨fun _ => ⟨_, List.mem_append_right _ List.mem_cons_self, h.consistent.sound, ?_⟩,
        fun hd => ?_⟩
      · exact hevents ▸ List.suffix_rfl
      · simp at hd
    exact ⟨hconsistent, hrecorded.enabled, hrecorded.observers.trans h.observers,
      List.forall_mem_cons.2 ⟨hlevel, houter⟩, fun o ho => (h.heard o ho).asked hrecorded hpast,
      h.journal.mono hpast⟩

/-- An observer is told of an event. -/
theorem Attended.visited {o : Nat} {os : List Nat}
    (h : Attended audience layout n past ((.visits (o :: os) e a :: own) :: outer) s.cache j) :
    Attended audience layout n (past ++ [⟨s, none⟩]) ((.visits os e a :: own) :: outer) s.cache
      (j.push (.visit ⟨o, e, a, audience.view s e⟩)) := by
  have hpast : past <+: past ++ [⟨s, none⟩] := List.prefix_append _ _
  have hlevel := h.levels _ List.mem_cons_self
  obtain ⟨hsorted, hlt⟩ := hlevel.ahead List.mem_cons_self
  refine h.carry [.visit ⟨o, e, a, audience.view s e⟩] hpast Array.toList_push (fun o' _ => ?_)
    (fun _ => List.suffix_rfl) ?_ ?_
  · rw [toldTo_visit, Agenda.owed_cons, Agenda.owed_cons, ← List.append_assoc]
    congr 1
    rcases eq_or_ne o o' with rfl | hne
    · have hnot : o ∉ os := fun ho => Nat.lt_irrefl o (List.rel_of_pairwise_cons hsorted ho)
      simp [Due.owed?, hnot]
    · have hsame : Due.owed? o' (.visits (o :: os) e a) = Due.owed? o' (.visits os e a) := by
        simp [Due.owed?, hne.symm]
      simp [hne, List.filterMap_cons, hsame]
  · refine List.forall_mem_cons.2 ⟨hlevel.visited.mono hpast, fun level hl => ?_⟩
    exact (h.levels level (List.mem_cons_of_mem _ hl)).mono hpast
  · refine h.journal.concat fun v hv hgone => ?_
    cases hv
    have hhead : Agenda.owed o ((.visits (o :: os) e a :: own) :: outer) =
        [] ++ (e, a) :: (own.filterMap (Due.owed? o) ++ Agenda.owed o outer) := by
      rw [Agenda.owed_cons]
      simp [Due.owed?]
    exact ((h.heard o (hlt o List.mem_cons_self)).gone hhead hgone).elim
      (fun hw => absurd hw List.not_mem_nil) id

/-- What comes first concerns nobody. -/
theorem Attended.silent {d : Due} {j' : Array (Remark ρ)}
    (h : Attended audience layout n past ((d :: own) :: outer) c j) (ms : List (Remark ρ))
    (hd : ∀ o, d.owed? o = none)
    (hj : j'.toList = j.toList ++ ms) (hms : ∀ o, toldTo o ms = [])
    (hnew : WritesFirst audience past (j.toList ++ ms)) :
    Attended audience layout n past (own :: outer) c j' := by
  refine h.carry ms List.prefix_rfl hj (fun o _ => ?_) (fun _ => List.suffix_rfl) ?_ hnew
  · rw [hms, Agenda.owed_cons, Agenda.owed_cons, List.filterMap_cons_none (hd o), List.nil_append]
  · refine List.forall_mem_cons.2 ⟨(h.levels _ List.mem_cons_self).tail, fun level hl => ?_⟩
    exact h.levels level (List.mem_cons_of_mem _ hl)

/-- What comes first concerns nobody, and nothing is noted. -/
theorem Attended.dropped {d : Due} (h : Attended audience layout n past ((d :: own) :: outer) c j)
    (hd : ∀ o, d.owed? o = none) : Attended audience layout n past (own :: outer) c j :=
  h.silent [] hd (List.append_nil _).symm (fun _ => rfl) (by rw [List.append_nil]; exact h.journal)

theorem Attended.count (h : Attended audience layout n past agenda c j) (x : Happening) :
    Attended audience layout n past agenda (c.count x) j where
  consistent := h.consistent.count x
  enabled := by
    rw [Cache.count, Cache.ledger_editLedger]
    exact (Counters.enabled_count _ x).trans h.enabled
  observers := by
    rw [Cache.count, Cache.ledger_editLedger]
    exact h.observers
  levels := h.levels
  heard o ho := by
    have hnext : (c.count x).ledger.nextSeq = c.ledger.nextSeq := by
      rw [Cache.count, Cache.ledger_editLedger]
      rfl
    have hcarry := (h.heard o ho).carry [] List.prefix_rfl rfl List.suffix_rfl
      (Cache.get?_count c x) hnext
    rwa [List.append_nil] at hcarry
  journal := h.journal

/-- What is to be announced to everyone is announced to one after the other. -/
theorem Attended.told
    (h : Attended audience layout n past ((.notice (.tell e a) :: own) :: outer) c j) :
    Attended audience layout n past
      ((.visits (List.range c.ledger.observers) e a :: own) :: outer) c j := by
  rw [h.observers]
  refine h.carry [] List.prefix_rfl (List.append_nil _).symm (fun o ho => ?_)
    (fun _ => List.suffix_rfl) ?_ (by rw [List.append_nil]; exact h.journal)
  · simp [Agenda.owed_cons, Due.owed?, Remark.toldTo, ho]
  · exact List.forall_mem_cons.2 ⟨(h.levels _ List.mem_cons_self).told,
      fun level hl => h.levels level (List.mem_cons_of_mem _ hl)⟩

/-- An observer that is told of an event calls back. -/
theorem Attended.opened {o : Nat} {os : List Nat} {cs : Script}
    (h : Attended audience layout n past ((.visits (o :: os) e a :: own) :: outer) s.cache j)
    (hreact : audience.react j ⟨o, e, a, audience.view s e⟩ = some cs) :
    Attended audience layout n (past ++ [⟨s, none⟩]) ([] :: (.visits os e a :: own) :: outer)
      s.cache (j.push (.visit ⟨o, e, a, audience.view s e⟩)) := by
  have hvisited := h.visited
  have hlevel := (h.levels _ List.mem_cons_self).mono (List.prefix_append past [⟨s, none⟩])
  refine { hvisited with
    levels := List.forall_mem_cons.2 ⟨.nil _ _, hvisited.levels⟩
    heard := fun o' ho' => ?_ }
  have hheard := hvisited.heard o' ho'
  rw [Array.toList_push] at hheard ⊢
  exact hheard.opened hlevel (List.mem_append_right _ List.mem_cons_self) hreact

theorem Attended.closed (h : Attended audience layout n past ([] :: own :: outer) c j) :
    Attended audience layout n past (own :: outer) c j := by
  refine h.carry [] List.prefix_rfl (List.append_nil _).symm (fun _ _ => rfl) (fun o => ?_)
    (fun level hl => h.levels level (List.mem_cons_of_mem _ hl))
    (by rw [List.append_nil]; exact h.journal)
  rw [List.tail_cons, List.tail_cons, Agenda.owed_cons]
  exact List.suffix_append _ _

theorem upholds_attended (audience : Audience ρ) (layout : Layout) (n : Nat) :
    Upholds audience fun past agenda c j =>
      StaysOn past → Attended audience layout n past agenda c j where
  asked h hheeds hon :=
    (h hon.left).asked (hon _ (List.mem_append_right _ List.mem_cons_self)) hheeds
  log h hon := (h hon).silent [_] (fun _ => rfl) Array.toList_push (fun _ => rfl)
    ((h hon).journal.concat nofun)
  count h hon := ((h hon).dropped fun _ => rfl).count _
  untold h hoff hon := by
    rw [(h hon).enabled] at hoff
    cases hoff
  told h _ hon := (h hon).told
  visited h hon := (h hon.left).visited
  opened h hreact hon := (h hon.left).opened hreact
  closed h hon := (h hon).closed
  reacted xs h hon := (h hon).carry [_] List.prefix_rfl Array.toList_push (fun _ _ => rfl)
    (fun _ => List.suffix_rfl) (h hon).levels ((h hon).journal.concat nofun)
  finished h hon := (h hon).dropped fun _ => by simp [Due.owed?]

end Upholds

theorem attended_of_build {ρ : Type} (audience : Audience ρ) {s : Settings} {observers : Nat}
    {c : Cache} (hb : Cache.build s observers = .ok c) (hon : s.diagnostics = true) :
    Attended audience s.layout observers [] [[]] c #[] := by
  obtain ⟨-, hledger, hempty, -⟩ := Cache.fresh_of_build hb
  refine ⟨Cache.consistent_of_build hb, ?_, ?_, ?_, fun o _ => ?_, ?_⟩
  · rw [hledger]
    exact hon
  · rw [hledger]
    rfl
  · exact List.forall_mem_singleton.2 (.nil _ _)
  · refine ⟨fun hk => ?_, fun hsplit => ?_, nofun, nofun⟩
    · rw [hempty] at hk
      cases hk
    · simp [Agenda.owed] at hsplit
  · intro before v after hsplit
    simp at hsplit

/-- In every run of a cache that was built with counting enabled, and in which it is never disabled,
every observer, whatever observers do when they are told of something, is told that an entry was
written before it is told that the entry has gone; unless somebody called back when the entry was
cached and this observer was still to be told of its write, being told of that write itself ahead of
the observer, or of an earlier event of the batch that the entry is from. So without batches the
first observer is told of all in order. -/
theorem writes_heard_first {ρ : Type} {s : Settings} {observers : Nat} {c : Cache}
    (hb : Cache.build s observers = .ok c) (hon : s.diagnostics = true) (scene : Scene)
    (audience : Audience ρ) (allowance depth : Nat) (cs : Script) :
    let r : Run ρ := { session := ⟨scene, c⟩, allowance := allowance }
    let r' := Run.carryOut audience depth cs r
    let is := Run.met audience depth cs r
    StaysOn is → WritesFirst audience is r'.journal.toList ∧
      ((∀ i ∈ is, i.asksBatch = false) → ToldInOrder (r'.toldTo 0)) := by
  intro r r' is hstays
  have hstands : Run.Stands
      (fun past agenda c j => StaysOn past → Attended audience s.layout observers past agenda c j)
      (fun past j => StaysOn past → WritesFirst audience past j.toList) is [[]]
      (Run.carryOut audience depth cs r) :=
    Run.stands_carryOut (upholds_attended audience s.layout observers) (fun h hon => (h hon).journal)
      (fun h hon => (h hon.left).mono (List.prefix_append _ _)) depth [] [] cs r
      (Run.stands_of (fun h hon => (h hon).journal) fun _ => attended_of_build audience hb hon)
  exact ⟨hstands.journal hstays, (hstands.journal hstays).toldInOrder⟩

/-- Of two observers that both take out the tile that they are told of, the first one hears of all
in order. -/
theorem writes_heard_first_called_back :
    let s : Settings := { layout := .sharded, diagnostics := true }
    let scene : Scene := { owners := ({} : Std.TreeMap String Owner).insert "a" ⟨0, .hashed 1⟩ }
    let audience : Audience Unit := {
      view _ _ := ()
      react _ _ := some [.request (.remove (.given (.hashed 1)) .origin)] }
    let cs : Script := [.request (.add "a" .origin ⟨⟨8, 100, 1⟩, 0⟩ none)]
    let r : Run Unit := { session := ⟨scene, Cache.new s 2⟩, allowance := 2 }
    let r' := Run.carryOut audience 2 cs r
    Cache.build s 2 = .ok (Cache.new s 2) ∧ StaysOn (Run.met audience 2 cs r) ∧
      (r'.toldTo 0).map (·.2) = [.added, .removed] ∧ ToldInOrder (r'.toldTo 0) ∧
      WritesFirst audience (Run.met audience 2 cs r) r'.journal.toList := by
  intro s scene audience cs r r'
  have hbuild : Cache.build s 2 = .ok (Cache.new s 2) := rfl
  have hstays : StaysOn (Run.met audience 2 cs r) := by decide +kernel
  have hsingle : ∀ i ∈ Run.met audience 2 cs r, i.asksBatch = false := by decide +kernel
  have h := writes_heard_first hbuild rfl scene audience 2 2 cs hstays
  refine ⟨hbuild, hstays, by decide +kernel, ?_, ?_⟩
  · with_reducible exact h.2 hsingle
  · with_reducible exact h.1

/-- One observer takes out the second tile of a batch when it is told of the first. Of two
observers, the first one takes out the tile that it is told of. -/
theorem gone_heard_first :
    let s : Settings := { layout := .linked, diagnostics := true }
    let owner : Owner := ⟨0, .hashed 1⟩
    let scene : Scene := { owners := ({} : Std.TreeMap String Owner).insert "a" owner }
    let payload : Payload := ⟨⟨8, 100, 1⟩, 0⟩
    let taking (p : Position) : Audience Unit := {
      view _ _ := ()
      react _ _ := some [.request (.remove (.given (.hashed 1)) p)] }
    let entry (p : Position) (seq : Nat) : Entry := .new owner p payload none s.overhead seq
    let one : Run Unit := { session := ⟨scene, Cache.new s 1⟩, allowance := 1 }
    let two : Run Unit := { session := ⟨scene, Cache.new s 2⟩, allowance := 1 }
    let batch : Script := [.request (.addBatch "a" [.origin, ⟨1, 0⟩] [payload, payload] none)]
    let single : Script := [.request (.add "a" .origin payload none)]
    let ofBatch := (Run.carryOut (taking ⟨1, 0⟩) 1 batch one).toldTo 0
    let ofSingle := (Run.carryOut (taking .origin) 1 single two).toldTo 1
    (Cache.build s 1 = .ok (Cache.new s 1) ∧ StaysOn (Run.met (taking ⟨1, 0⟩) 1 batch one) ∧
      ofBatch = [(entry .origin 0, .added), (entry ⟨1, 0⟩ 1, .removed), (entry ⟨1, 0⟩ 1, .added)] ∧
      ¬ToldInOrder ofBatch) ∧
    (Cache.build s 2 = .ok (Cache.new s 2) ∧ StaysOn (Run.met (taking .origin) 1 single two) ∧
      ofSingle = [(entry .origin 0, .removed), (entry .origin 0, .added)] ∧
      ¬ToldInOrder ofSingle) := by
  intro s owner scene payload taking entry one two batch single ofBatch ofSingle
  have hbatch : ofBatch =
      [(entry .origin 0, .added), (entry ⟨1, 0⟩ 1, .removed), (entry ⟨1, 0⟩ 1, .added)] := by
    decide +kernel
  have hsingle : ofSingle = [(entry .origin 0, .removed), (entry .origin 0, .added)] := by
    decide +kernel
  refine ⟨⟨rfl, by decide +kernel, hbatch, fun h => ?_⟩, rfl, by decide +kernel, hsingle, fun h => ?_⟩
  · have hwritten := h [(entry .origin 0, .added)] _ _ _ hbatch rfl
    revert hwritten
    decide +kernel
  · exact absurd (h [] _ _ _ hsingle rfl) List.not_mem_nil

end TileStore
