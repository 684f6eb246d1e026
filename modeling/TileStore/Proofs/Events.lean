import TileStore.Proofs.Cache

/-!
# What events tell

A request announces what it did to entries by events, in the order in which observers hear of them.
`Tiles.Story` says that events lead from what was found under each key to what is found there now, and
that each is in order where it stands: a write says whether it replaces an entry, and only what is
there goes. Every request tells the story of what it did, in which each entry it made is written once
and in turn: `Request.perform_recorded`.
-/

namespace TileStore

/-- What observers are told: an entry and what happened to it. -/
abbrev Event := Entry × Action

/-- The entry was written, and did not go. -/
def Action.isWrite : Action → Bool
  | .added | .updated => true
  | .removed | .evicted => false

/-- The entries that were written, in order. -/
def writtenIn (xs : List Event) : List Entry := (xs.filter (·.2.isWrite)).map (·.1)

/-- The events among notices. -/
def Notice.told (notices : List Notice) : List Event :=
  notices.filterMap fun
    | .tell e a => some (e, a)
    | _ => none

variable {g g' : Tiles} {xs ys : List Event} {e : Entry} {k : TileKey} {a : Action}

/-! ### Stories -/

@[simp] theorem Action.isWrite_ofWrite (replaced : Bool) : (ofWrite replaced).isWrite = true := by
  cases replaced <;> rfl

@[simp] theorem writtenIn_nil : writtenIn [] = [] := rfl

@[simp] theorem writtenIn_append (xs ys : List Event) :
    writtenIn (xs ++ ys) = writtenIn xs ++ writtenIn ys := by simp [writtenIn]

theorem writtenIn_cons (x : Event) (xs : List Event) :
    writtenIn (x :: xs) = if x.2.isWrite then x.1 :: writtenIn xs else writtenIn xs := by
  rw [writtenIn, List.filter_cons]
  split <;> rfl

theorem writtenIn_gone (es : List Entry) (ha : a.isWrite = false) :
    writtenIn (es.map (·, a)) = [] := by
  simp [writtenIn, ha]

@[simp] theorem writtenIn_removed (es : List Entry) : writtenIn (es.map (·, .removed)) = [] :=
  writtenIn_gone es rfl

@[simp] theorem writtenIn_evicted (es : List Entry) : writtenIn (es.map (·, .evicted)) = [] :=
  writtenIn_gone es rfl

namespace Tiles

/-- What an event does to what is found under each key. -/
inductive Happens (g : Tiles) : Event → Tiles → Prop where
  /-- An entry is written, and the event says whether it replaces another. -/
  | write (e : Entry) : Happens g (e, .ofWrite (g e.key).isSome) (g.put e)
  /-- An entry goes that is there. -/
  | gone {e : Entry} {a : Action} :
    a.isWrite = false → g e.key = some e → Happens g (e, a) (g.drop e.key)

/-- Events happen one after the other. -/
inductive Story : Tiles → List Event → Tiles → Prop where
  | nil (g : Tiles) : Story g [] g
  | cons {g g₁ g' : Tiles} {x : Event} {xs : List Event} :
    g.Happens x g₁ → Story g₁ xs g' → Story g (x :: xs) g'

theorem Story.append {g₁ : Tiles} (h : g.Story xs g₁) (h' : g₁.Story ys g') :
    g.Story (xs ++ ys) g' := by
  induction h with
  | nil => exact h'
  | cons hx _ ih => exact .cons hx (ih h')

theorem story_write (g : Tiles) (e : Entry) :
    g.Story [(e, .ofWrite (g e.key).isSome)] (g.put e) := .cons (.write e) (.nil _)

/-- What is found in the end was there before or has been written. -/
theorem Story.found (h : g.Story xs g') (hk : g' k = some e) : g k = some e ∨ e ∈ writtenIn xs := by
  induction h with
  | nil => exact .inl hk
  | cons hx _ ih =>
    rcases ih hk with h₁ | hw
    · cases hx with
      | write f =>
        rw [put] at h₁
        split at h₁
        · exact .inr (by simp [writtenIn, Option.some.inj h₁])
        · exact .inl h₁
      | gone ha hf =>
        rw [drop] at h₁
        split at h₁
        · cases h₁
        · exact .inl h₁
    · rw [writtenIn_cons]
      split
      · exact .inr (List.mem_cons_of_mem _ hw)
      · exact .inr hw

/-- Entries that are there go one after the other. -/
theorem story_gone (es : List Entry) (ha : a.isWrite = false) (hd : (es.map (·.key)).Nodup)
    (hes : ∀ e ∈ es, g e.key = some e) :
    g.Story (es.map (·, a)) (g.dropAll (es.map (·.key))) := by
  induction es generalizing g with
  | nil =>
    rw [List.map_nil, List.map_nil, dropAll_nil]
    exact .nil g
  | cons e es ih =>
    obtain ⟨hnotin, hd⟩ := List.nodup_cons.1 hd
    have hleft : ∀ f ∈ es, g.drop e.key f.key = some f := by
      intro f hf
      have hne : f.key ≠ e.key := fun hk => hnotin (List.mem_map.2 ⟨f, hf, hk⟩)
      rw [drop, if_neg hne]
      exact hes f (List.mem_cons_of_mem e hf)
    have hrest := ih hd hleft
    rw [dropAll_drop] at hrest
    exact .cons (.gone ha (hes e List.mem_cons_self)) hrest

end Tiles

namespace Notice

@[simp] theorem told_nil : told [] = [] := rfl

@[simp] theorem told_append (ns ms : List Notice) : told (ns ++ ms) = told ns ++ told ms :=
  List.filterMap_append

@[simp] theorem told_log (lines : List LogLine) : told (lines.map .log) = [] := by simp [told]

@[simp] theorem told_cons_log (line : LogLine) (ns : List Notice) :
    told (.log line :: ns) = told ns := rfl

@[simp] theorem told_written (e : Entry) (replaced : Bool) :
    told (written e replaced) = [(e, .ofWrite replaced)] := rfl

@[simp] theorem told_evicted (es : List Entry) : told (evicted es) = es.map (·, .evicted) := by
  simp [told, evicted, List.filterMap_map]

@[simp] theorem told_removed (es : List Entry) : told (removed es) = es.map (·, .removed) := by
  simp [told, removed, List.filterMap_map]

end Notice

/-! ### Vaults -/

namespace Vault

variable {σ : Type} [Shelved σ] {v v' : Vault σ} {es : List Entry}

/-- Entries that are gone went one after the other. -/
theorem story_gone (hv : v.Sound) (ha : a.isWrite = false)
    (hp : v.entries.Perm (es ++ v'.entries))
    (hb : v.Becomes (v.tiles.dropAll (es.map (·.key))) v') :
    v.tiles.Story (es.map (·, a)) v'.tiles := by
  have hkeys : ((es ++ v'.entries).map (·.key)).Nodup :=
    (hp.map _).nodup_iff.1 hv.shelf.nodup_keys
  rw [List.map_append] at hkeys
  rw [hb.tiles]
  refine Tiles.story_gone es ha (List.nodup_append.1 hkeys).1 fun e he => ?_
  exact (hv.shelf.mem e).1 (hp.mem_iff.2 (List.mem_append_left _ he))

theorem Relieves.story {protect : Option TileKey} (hv : v.Sound)
    (h : Relieves protect v es v') : v.tiles.Story (es.map (·, .evicted)) v'.tiles :=
  story_gone hv rfl (h.evicts.perm hv) h.evicts.becomes

theorem Restores.story (hv : v.Sound) (h : Restores e v es v') :
    v.tiles.Story (es.map (·, .evicted)) v'.tiles :=
  story_gone hv rfl (h.perm hv) (h.becomes hv)

theorem Writes.story (h : v.Writes e es v') :
    v.tiles.Story ((e, .ofWrite (v.tiles e.key).isSome) :: es.map (·, .evicted)) v'.tiles := by
  obtain ⟨v₁, hb, hr⟩ := h
  have hpass := hr.story hb.sound
  rw [hb.tiles] at hpass
  exact .cons (.write e) hpass

theorem Removes.story {ks : List TileKey} (hv : v.Sound) (h : v.Removes ks es v')
    (hd : ks.Nodup) : v.tiles.Story (es.map (·, .removed)) v'.tiles :=
  story_gone hv rfl (h.perm hv hd) (h.map_key hv ▸ h.becomes)

theorem story_drop {k : TileKey} (hv : v.Sound) (h : v.Becomes (v.tiles.drop k) v') :
    v.tiles.Story (Notice.told ((v.tiles k).elim [] fun e => Notice.removed [e])) v'.tiles := by
  rw [h.tiles]
  rcases hk : v.tiles k with _ | e
  · rw [Tiles.drop_eq_self hk]
    exact .nil _
  · obtain rfl := hv.shelf.key hk
    exact .cons (.gone rfl hk) (.nil _)

/-- The end of everything. -/
theorem story_empty (hv : v.Sound) (hp : es.Perm v.entries) (h : v.Becomes (fun _ => none) v') :
    v.tiles.Story (es.map (·, .removed)) v'.tiles := by
  have hall : v.tiles.dropAll (es.map (·.key)) = fun _ => none := by
    funext k
    rw [Tiles.dropAll, ite_eq_left_iff]
    refine fun hk => Option.eq_none_iff_forall_ne_some.2 fun e he => hk ?_
    have hm := hp.mem_iff.2 (hv.shelf.mem_of_get he)
    exact hv.shelf.key he ▸ List.mem_map_of_mem hm
  refine story_gone hv rfl ?_ (hall ▸ h)
  rw [h.entries_eq_nil, List.append_nil]
  exact hp.symm

end Vault

/-- Entries of a batch are written, each with the pass that it sets off. -/
theorem Linked.story_writes {v v' : Linked} {es : List Entry} {ws : List Written} {safe : Prop}
    (h : Mutation.Series (WritesAs safe) es v ws v') :
    v.tiles.Story (Notice.told (ws.flatMap Written.notices)) v'.tiles ∧
      writtenIn (Notice.told (ws.flatMap Written.notices)) = es ∧
      v.ledger.Recharged v'.ledger := by
  induction h with
  | nil v => exact ⟨.nil _, rfl, rfl⟩
  | @cons e es w ws v v₁ v' hw _ ih =>
    obtain ⟨hstory, hwritten, hr⟩ := ih
    have htold : Notice.told w.notices =
        (e, .ofWrite (v.tiles e.key).isSome) :: w.pass.victims.map (·, .evicted) := by
      simp [Written.notices, hw.entry, hw.replaced]
    rw [List.flatMap_cons, Notice.told_append, writtenIn_append, hwritten, htold]
    refine ⟨hw.writes.story.append hstory, ?_, hw.writes.recharged.trans hr⟩
    rw [writtenIn_cons, if_pos (Action.isWrite_ofWrite _), writtenIn_evicted]
    rfl

/-- Entries of a batch are written together. -/
theorem Sharded.story_writes {v v' : Sharded} {es : List Entry} {ws : List (Entry × Bool)}
    {safe : Prop} (h : Mutation.Series (Puts safe) es v ws v') :
    let notices := ws.flatMap fun (e, replaced) => Notice.written e replaced
    v.tiles.Story (Notice.told notices) v'.tiles ∧ writtenIn (Notice.told notices) = es ∧
      v.ledger.Recharged v'.ledger := by
  induction h with
  | nil v => exact ⟨.nil _, rfl, rfl⟩
  | @cons e es w ws v v₁ v' hw _ ih =>
    obtain ⟨hstory, hwritten, hr⟩ := ih
    rw [hw.becomes.tiles] at hstory
    simp only [List.flatMap_cons, Notice.told_append, Notice.told_written, writtenIn_append]
    refine ⟨?_, ?_, hw.becomes.recharged.trans hr⟩
    · rw [hw.entry, hw.replaced]
      exact (v.tiles.story_write e).append hstory
    · rw [hwritten, writtenIn_cons, if_pos (Action.isWrite_ofWrite _), hw.entry]
      rfl

/-! ### Requests -/

/-- The entries that a request makes, in order. -/
def Request.made (l : Ledger) : Request Owner Identity → List Entry
  | .add owner p payload cost => [.new owner p payload cost l.overhead l.nextSeq]
  | .addBatch owner points payloads costs =>
    Vault.madeFrom owner l.overhead l.nextSeq (aligned points payloads costs)
  | _ => []

/-- A batch makes an entry for each tile that its lists stand for. -/
theorem Request.made_of_aligned {owner : Owner} {points : List Position} {payloads : List Payload}
    {costs : Option (List Binary64)} {tiles : List (Position × Payload × Option Binary64)}
    (h : Aligned points payloads costs tiles) (l : Ledger) :
    (addBatch owner points payloads costs).made l =
      Vault.madeFrom owner l.overhead l.nextSeq tiles := by
  rw [made, h.aligned_eq]

theorem Request.Refused.made_eq_nil {q : Request Owner Identity} {e : Rejection} (h : q.Refused e)
    (l : Ledger) : q.made l = [] := by
  cases q with
  | add => cases h
  | addBatch =>
    rw [made, h.aligned_eq_nil]
    rfl
  | _ => rfl

/-- Whether counting is enabled after a request. -/
def Request.switched (on : Bool) : Request Owner Identity → Bool
  | .enable => true
  | .disable => false
  | _ => on

/-- What became of the tiles and the ledger: the notices tell the story, these entries were made,
and counting is on or off. -/
structure Recorded (g : Tiles) (l : Ledger) (made : List Entry) (on : Bool) (notices : List Notice)
    (g' : Tiles) (l' : Ledger) : Prop where
  story : g.Story (Notice.told notices) g'
  written : writtenIn (Notice.told notices) = made
  nextSeq : l'.nextSeq = l.nextSeq + made.length
  observers : l'.observers = l.observers
  enabled : l'.counters.enabled = on

/-- Nothing is told, and the ledger counts. -/
theorem Recorded.silent {l l' : Ledger} (g : Tiles) (hn : l'.nextSeq = l.nextSeq)
    (ho : l'.observers = l.observers) : Recorded g l [] l'.counters.enabled [] g l' :=
  ⟨.nil g, rfl, hn, ho, rfl⟩

namespace Vault

variable {σ : Type} [Shelved σ] {w : Vault σ} {made es : List Entry} {notices : List Notice}

/-- Entries are made first, and then charged and given back. -/
theorem recorded (v v' : Vault σ)
    (hl : w.ledger = { v.ledger with nextSeq := v.ledger.nextSeq + made.length })
    (hr : w.ledger.Recharged v'.ledger) (hs : v.tiles.Story (Notice.told notices) v'.tiles)
    (hw : writtenIn (Notice.told notices) = made) :
    Recorded v.tiles v.ledger made v.ledger.counters.enabled notices v'.tiles v'.ledger := by
  rw [hl] at hr
  rw [hr]
  exact ⟨hs, hw, rfl, rfl, rfl⟩

theorem Keeps.recorded {v v' : Vault σ} (h : v.Keeps v') :
    Recorded v.tiles v.ledger [] v.ledger.counters.enabled [] v'.tiles v'.ledger := by
  rw [h.tiles, ← h.enabled]
  refine .silent _ ?_ ?_ <;> rw [h.ledger]

/-- Entries are removed, and log lines may follow. -/
theorem recorded_removed (v v' : Vault σ) (lines : List LogLine)
    (hs : v.tiles.Story (es.map (·, .removed)) v'.tiles) (hr : v.ledger.Recharged v'.ledger) :
    Recorded v.tiles v.ledger [] v.ledger.counters.enabled (Notice.removed es ++ lines.map .log)
      v'.tiles v'.ledger :=
  recorded v v' (w := v) rfl hr (by simpa using hs) (by simp)

theorem Relieves.recorded {v v' : Vault σ} {pass : Pass} (hv : v.Sound)
    (h : Relieves none v pass.victims v') :
    Recorded v.tiles v.ledger [] v.ledger.counters.enabled pass.notices v'.tiles v'.ledger :=
  Vault.recorded v v' (w := v) rfl h.evicts.becomes.recharged
    (by simpa [Pass.notices] using h.story hv) (by simp [Pass.notices])

end Vault

namespace Cache

variable {c : Cache} {m : Moment}

theorem add_recorded (owner : Owner) (p : Position) (payload : Payload) (cost : Option Binary64)
    (h : c.Sound) :
    (add m owner p payload cost).Meets c False fun notices c' =>
      Recorded c.get? c.ledger [.new owner p payload cost c.ledger.overhead c.ledger.nextSeq]
        c.ledger.counters.enabled notices c'.get? c'.ledger := by
  cases c with
  | linked v =>
    refine meets_byLayout_linked.2
      ((Linked.add_meets m owner p payload cost h).mono False.elim ?_)
    rintro _ v' ⟨v₁, w, hn, he, rfl, hw, hreplaced, -⟩
    have hstory := hw.story
    have htiles : v₁.tiles = v.tiles := congrArg Shelved.get? hn.1
    rw [← hreplaced, htiles] at hstory
    refine Vault.recorded v v' hn.2 hw.recharged ?_ ?_
    · simpa [Linked.Written.notices] using hstory
    · simp [Linked.Written.notices, writtenIn_cons, he, Vault.upcoming, ledger]
  | sharded v =>
    refine meets_byLayout_sharded.2
      ((Sharded.add_meets m owner p payload cost h).mono False.elim ?_)
    rintro _ v' ⟨v₁, pass, replaced, hn, rfl, hw, rfl⟩
    have hstory := hw.story
    have htiles : v₁.tiles = v.tiles := congrArg Shelved.get? hn.1
    rw [htiles] at hstory ⊢
    refine Vault.recorded v v' hn.2 hw.recharged ?_ ?_
    · simpa using hstory
    · simp [writtenIn_cons, Vault.upcoming, ledger]

theorem writeAll_recorded (owner : Owner) (tiles : List (Position × Payload × Option Binary64))
    (h : c.Sound) :
    (byLayout (Linked.addBatch m owner tiles) (Sharded.addBatch m owner tiles)).Meets c False
      fun notices c' => Recorded c.get? c.ledger
        (Vault.madeFrom owner c.ledger.overhead c.ledger.nextSeq tiles)
        c.ledger.counters.enabled notices c'.get? c'.ledger := by
  have hlength := Vault.length_madeFrom owner c.ledger.overhead c.ledger.nextSeq tiles
  cases c with
  | linked v =>
    refine meets_byLayout_linked.2 ((Linked.addBatch_meets m owner tiles h).mono False.elim ?_)
    rintro _ v' ⟨v₁, ws, hn, rfl, hseries, -, -⟩
    obtain ⟨hstory, hwritten, hr⟩ := Linked.story_writes hseries
    have htiles : v₁.tiles = v.tiles := congrArg Shelved.get? hn.1
    rw [htiles] at hstory
    refine Vault.recorded v v' (hlength ▸ hn.2) hr ?_ ?_
    · simpa using hstory
    · rw [Notice.told_append, Notice.told_log, List.nil_append]
      exact hwritten
  | sharded v =>
    refine meets_byLayout_sharded.2 ((Sharded.addBatch_meets m owner tiles h).mono False.elim ?_)
    rintro notices v' ⟨v₁, v₂, ws, hn, hseries, hs, -, hlast⟩
    obtain ⟨hstory, hwritten, hr⟩ := Sharded.story_writes hseries
    have htiles : v₁.tiles = v.tiles := congrArg Shelved.get? hn.1
    rw [htiles] at hstory
    rcases hg : (Vault.madeFrom owner v.ledger.overhead v.ledger.nextSeq tiles).getLast? with _ | last
    · simp only [hg] at hlast
      obtain ⟨rfl, rfl⟩ := hlast
      rw [List.getLast?_eq_none_iff.1 hg] at hseries
      cases hseries
      exact Vault.recorded v v' (hlength ▸ hn.2) hr hstory hwritten
    · simp only [hg] at hlast
      obtain ⟨pass, hpass, rfl⟩ := hlast
      refine Vault.recorded v v' (hlength ▸ hn.2) (hr.trans (hpass.becomes hs).recharged) ?_ ?_
      · rw [Notice.told_append, Notice.told_log, Notice.told_append, Notice.told_evicted]
        exact hstory.append (hpass.story hs)
      · rw [Notice.told_append, Notice.told_log, Notice.told_append, Notice.told_evicted,
          List.nil_append, writtenIn_append, writtenIn_evicted, hwritten, List.append_nil]
        rfl

/-- A look-up tells nothing. -/
theorem lookup_recorded (image : Identity) (p : Position) (h : c.Sound) :
    (lookup m image p).Meets c False fun _ c' =>
      Recorded c.get? c.ledger [] c.ledger.counters.enabled [] c'.get? c'.ledger := by
  cases c with
  | linked v =>
    exact meets_byLayout_linked.2 ((Linked.get?_meets m _ h).imp fun _ v' hv => hv.2.1.recorded)
  | sharded v =>
    exact meets_byLayout_sharded.2 ((Sharded.get?_meets m _ h).imp fun _ v' hv => hv.2.recorded)

theorem lookupAll_recorded (image : Identity) (points : List Position) (h : c.Sound) :
    (lookupAll m image points).Meets c False fun _ c' =>
      Recorded c.get? c.ledger [] c.ledger.counters.enabled [] c'.get? c'.ledger := by
  cases c with
  | linked v =>
    exact meets_byLayout_linked.2 ((Linked.getAll_meets m _ h).imp fun _ v' hv => hv.2.recorded)
  | sharded v =>
    exact meets_byLayout_sharded.2 ((Sharded.getAll_meets m _ h).imp fun _ v' hv => hv.2.recorded)

theorem remove_recorded (image : Identity) (p : Position) (h : c.Sound) :
    (remove image p).Meets c False fun x c' =>
      Recorded c.get? c.ledger [] c.ledger.counters.enabled x.2 c'.get? c'.ledger := by
  have hwritten : ∀ found : Option Entry,
      writtenIn (Notice.told (found.elim [] fun e => Notice.removed [e])) = [] := by
    intro found
    rcases found with _ | e <;> rfl
  cases c with
  | linked v =>
    refine meets_byLayout_linked.2 ((Linked.remove_meets _ h).mono False.elim ?_)
    rintro _ v' ⟨rfl, hb, -⟩
    exact Vault.recorded v v' (w := v) rfl hb.recharged (Vault.story_drop h hb) (hwritten _)
  | sharded v =>
    have hshelf := Vault.Sound.shelf h
    have himage : ∀ e, v.tiles (.of image p) = some e → e.image = .of image := fun e he =>
      ((hshelf.proper he).image_eq (hshelf.key he)).1
    refine meets_byLayout_sharded.2 ((Sharded.remove_meets h himage).mono False.elim ?_)
    rintro _ v' ⟨rfl, hb⟩
    exact Vault.recorded v v' (w := v) rfl hb.recharged (Vault.story_drop h hb) (hwritten _)

theorem removeImage_recorded (image : Identity) (h : c.Sound) :
    (removeImage image).Meets c False fun x c' =>
      Recorded c.get? c.ledger [] c.ledger.counters.enabled x.2 c'.get? c'.ledger := by
  cases c with
  | linked v =>
    refine meets_byLayout_linked.2 ((Linked.removeImage_meets image h).mono False.elim ?_)
    rintro _ v' ⟨es, rfl, hr, -⟩
    exact Vault.recorded_removed v v' [_]
      (hr.story h (Shelved.nodup_keysOf (Vault.Sound.valid h) _)) hr.becomes.recharged
  | sharded v =>
    refine meets_byLayout_sharded.2 ((Sharded.removeImage_meets image h).mono False.elim ?_)
    rintro _ v' ⟨es, rfl, hr⟩
    exact Vault.recorded_removed v v' [_]
      (hr.story h (Shelved.nodup_keysOf (Vault.Sound.valid h) _)) hr.becomes.recharged

theorem flush_recorded (h : c.Sound) :
    flush.Meets c False fun notices c' =>
      Recorded c.get? c.ledger [] c.ledger.counters.enabled notices c'.get? c'.ledger := by
  cases c with
  | linked v =>
    refine meets_byLayout_linked.2 ((Linked.flush_meets h).mono False.elim ?_)
    rintro _ v' ⟨es, rfl, hp, hb⟩
    exact Vault.recorded_removed v v' [_] (Vault.story_empty h hp hb) hb.recharged
  | sharded v =>
    refine meets_byLayout_sharded.2 ((Sharded.flush_meets h).mono False.elim ?_)
    rintro _ v' ⟨es, rfl, hp, hb⟩
    exact Vault.recorded_removed v v' [_] (Vault.story_empty h hp hb) hb.recharged

theorem relieve_recorded (m : Moment) (h : c.Sound) :
    (relieve m).Meets c False fun notices c' =>
      Recorded c.get? c.ledger [] c.ledger.counters.enabled notices c'.get? c'.ledger := by
  cases c with
  | linked v =>
    refine meets_byLayout_linked.2 ((Linked.relieve_meets m h).mono False.elim ?_)
    rintro _ v' ⟨pass, rfl, hr, -⟩
    exact hr.recorded h
  | sharded v =>
    refine meets_byLayout_sharded.2 ((Sharded.relieve_meets m h).mono False.elim ?_)
    rintro _ v' ⟨pass, rfl, hr⟩
    exact hr.recorded h

/-! ### Settings -/

@[simp] theorem get?_editLedger (c : Cache) (f : Ledger → Ledger) :
    (c.editLedger f).get? = c.get? := by cases c <;> rfl

theorem setCapacity_recorded (bytes : UInt64) (h : c.Sound) :
    (setCapacity m bytes).Meets c False fun x c' =>
      Recorded c.get? c.ledger [] c.ledger.counters.enabled (Request.answer x).2 c'.get?
        c'.ledger := by
  unfold setCapacity
  rw [Mutation.meets_bind, Mutation.meets_get]
  rcases hl : c.ledger.setCapacity bytes with r | l
  · exact .silent _ rfl rfl
  · obtain ⟨-, rfl⟩ : bytes ≠ 0 ∧ l = { c.ledger with capacity := bytes } := by
      rw [Ledger.setCapacity_eq] at hl
      split at hl
      · cases hl
      · next hne => exact ⟨hne, (Except.ok.inj hl).symm⟩
    rw [Mutation.meets_bind, Mutation.meets_set]
    have hretuned := Ledger.retuned_of_setCapacity hl
    have hsound := h.editLedger (f := fun _ => { c.ledger with capacity := bytes }) hretuned
    dsimp only
    split
    · rw [Mutation.meets_bind]
      refine (relieve_recorded m hsound).imp fun notices c' hr => ?_
      rw [get?_editLedger, ledger_editLedger] at hr
      exact ⟨hr.story, hr.written, hr.nextSeq, hr.observers, hr.enabled⟩
    · refine Mutation.meets_pure.2 ?_
      rw [get?_editLedger, ledger_editLedger]
      exact ⟨.nil _, rfl, rfl, rfl, rfl⟩

theorem setThreshold_recorded (t : Binary64) :
    (setThreshold t).Meets c False fun x c' =>
      Recorded c.get? c.ledger [] c.ledger.counters.enabled (Request.answer x).2 c'.get?
        c'.ledger := by
  unfold setThreshold
  rw [Mutation.meets_bind, Mutation.meets_get, Ledger.setThreshold_eq]
  by_cases hfraction : t.isFraction
  · rw [if_pos hfraction]
    refine Mutation.meets_bind.2 (Mutation.meets_set.2 (Mutation.meets_pure.2 ?_))
    rw [get?_editLedger, ledger_editLedger]
    exact ⟨.nil _, rfl, rfl, rfl, rfl⟩
  · rw [if_neg hfraction]
    exact Recorded.silent _ rfl rfl

end Cache

namespace Request

variable {c : Cache} {m : Moment}

theorem editCounters_recorded (f : Counters → Counters) :
    (editCounters f).Meets c False fun x c' =>
      Recorded c.get? c.ledger [] (f c.ledger.counters).enabled x.2 c'.get? c'.ledger := by
  unfold editCounters
  rw [Mutation.meets_bind, Mutation.meets_modify, Mutation.meets_pure, Cache.get?_editLedger,
    Cache.ledger_editLedger]
  exact ⟨.nil _, rfl, rfl, rfl, rfl⟩

/-- Every request tells what it did to the tiles, makes the entries it should, and switches counting
if it is asked to. -/
theorem perform_recorded (m : Moment) (r : Request Owner Identity) (h : c.Sound) :
    (r.perform m).Meets c False fun x c' => Recorded c.get? c.ledger (r.made c.ledger)
      (r.switched c.ledger.counters.enabled) x.2 c'.get? c'.ledger := by
  have hself : Recorded c.get? c.ledger [] c.ledger.counters.enabled [] c.get? c.ledger :=
    .silent _ rfl rfl
  cases r with
  | add owner p payload cost => exact Mutation.meets_bind.2 (Cache.add_recorded owner p payload cost h)
  | addBatch owner points payloads costs =>
    refine Mutation.meets_map.2 ?_
    obtain ⟨e, hrefused, hbatch⟩ | ⟨tiles, htiles, hbatch⟩ :=
      Cache.addBatch_eq m owner points payloads costs
    · rw [hbatch, hrefused.made_eq_nil]
      exact hself
    · rw [hbatch, made_of_aligned htiles]
      exact Mutation.meets_map.2 (Cache.writeAll_recorded owner tiles h)
  | get image p => exact Mutation.meets_bind.2 (Cache.lookup_recorded image p h)
  | getAll image points => exact Mutation.meets_bind.2 (Cache.lookupAll_recorded image points h)
  | remove image p => exact Mutation.meets_bind.2 (Cache.remove_recorded image p h)
  | removeImage image => exact Mutation.meets_bind.2 (Cache.removeImage_recorded image h)
  | flush => exact Mutation.meets_bind.2 (Cache.flush_recorded h)
  | relieve => exact Mutation.meets_bind.2 (Cache.relieve_recorded m h)
  | setCapacity bytes => exact Mutation.meets_map.2 (Cache.setCapacity_recorded bytes h)
  | setThreshold t => exact Mutation.meets_map.2 (Cache.setThreshold_recorded t)
  | enable | disable | reset => exact editCounters_recorded _
  | tilesOf | contains | report | list => exact hself

end Request

end TileStore
