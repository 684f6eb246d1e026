import TileStore.Proofs.Dates
import TileStore.Proofs.Linked.Victims

/-!
# The victims of a linked cache by rank

Ranks go by staleness, cost, time and age. A linked cache does not know of them: it sweeps for what is
stale, and then it goes by costs and ticks. But while the clock does not go back, entries that were used
later have later times, `Chronological`, so for what is alive turns are in the order of ranks up to one
thing: between entries of the same cost and time the one that was used first goes first, whichever is
older. `linked_victims_ranked` says so, for lists of up to sixty-four slots, all of which the sweep
sees. Several requests may fall into one millisecond, and then the age of the entries does not decide;
nor does the cost decide between entries that are stale: `linked_victims_misranked`.
-/

namespace TileStore

open Vault

variable {m : Moment} {q : Request Owner Identity} {us used : List Entry} {now limit : Nat}

/-! ### Uses and times -/

/-- What was used comes last. The rest stays in order. -/
theorem foldl_usedLast_pairwise {P : Entry → Entry → Prop} {es : List Entry} (h : es.Pairwise P)
    (us : List Entry) : (us.foldl usedLast es).Pairwise fun e f =>
      f ∈ us ∨ e ∉ us ∧ f ∉ us ∧ P e f := by
  induction us using List.reverseRecOn with
  | nil => exact h.imp fun hp => .inr ⟨List.not_mem_nil, List.not_mem_nil, hp⟩
  | append_singleton us u ih =>
    rw [List.foldl_concat, usedLast, List.pairwise_append]
    have hother : ∀ e ∈ without (us.foldl usedLast es) u.key, e ∉ us → e ∉ us ++ [u] := by
      intro e he hus
      have hkey : e.key ≠ u.key := by simpa using (List.mem_filter.1 he).2
      simpa [hus] using fun heu => hkey (congrArg Entry.key heu)
    refine ⟨(ih.filter _).imp_of_mem ?_, List.pairwise_singleton _ _, ?_⟩
    · rintro e f he hf (hused | ⟨hunused, hunused', hp⟩)
      · exact .inl (List.mem_append_left _ hused)
      · exact .inr ⟨hother e he hunused, hother f hf hunused', hp⟩
    · exact fun e _ f hf => .inl (List.mem_append_right _ hf)

theorem mem_foldl_usedLast {es : List Entry} {e : Entry} (h : e ∈ us.foldl usedLast es) :
    e ∈ us ∨ e ∈ es := by
  induction us using List.reverseRecOn with
  | nil => exact .inr h
  | append_singleton us u ih =>
    rw [List.foldl_concat, usedLast, List.mem_append] at h
    rcases h with h | h
    · exact (ih (List.mem_filter.1 h).1).imp_left (List.mem_append_left _)
    · exact .inl (List.mem_append_right _ h)

namespace Linked

variable {v w : Linked}

/-- The times of the last uses do not go back along the list, and none lies ahead. -/
structure Chronological (now : Nat) (v : Linked) : Prop where
  le_now : ∀ e ∈ v.entries, (v.status e).lastAccess ≤ now
  increasing : v.entries.Pairwise fun e f => (v.status e).lastAccess ≤ (v.status f).lastAccess

/-- Entries are used, not before, and come last. -/
theorem Chronological.after {n : Nat} {seqs : List Nat} (h : v.Chronological limit)
    (hnow : limit ≤ now) (hdates : Register.Dates now n seqs v.register w.register)
    (horder : w.entries.Sublist (used.foldl usedLast v.entries))
    (hused : ∀ e ∈ used, e.seq ∈ seqs ∧ (e ∈ v.entries ∨ v.register.size ≤ e.seq))
    (hunused : ∀ e ∈ v.entries, e.seq ∈ seqs → e ∈ used) : w.Chronological now := by
  have htime : ∀ e ∈ w.entries, (w.status e).lastAccess =
      if e ∈ used then now else (v.status e).lastAccess := by
    intro e he
    rw [Vault.status, hdates.lastAccess]
    by_cases hmem : e ∈ used
    · obtain ⟨hseq, hold | hnew⟩ := hused e hmem
      · rw [if_pos hseq, if_pos hmem]
        exact Nat.max_eq_right ((h.le_now e hold).trans hnow)
      · rw [if_pos hseq, if_pos hmem, Register.lastAccess_of_size_le hnew, Nat.zero_max]
    · have hold := (mem_foldl_usedLast (horder.mem he)).resolve_left hmem
      rw [if_neg fun hseq => hmem (hunused e hold hseq), if_neg hmem, Vault.status]
  have hle : ∀ e ∈ w.entries, (w.status e).lastAccess ≤ now := by
    intro e he
    rw [htime e he]
    split
    · exact le_rfl
    · next hmem =>
      have hold := (mem_foldl_usedLast (horder.mem he)).resolve_left hmem
      exact (h.le_now e hold).trans hnow
  refine ⟨hle, ((foldl_usedLast_pairwise h.increasing used).sublist horder).imp_of_mem ?_⟩
  rintro e f he hf (hlast | ⟨he', hf', hle'⟩)
  · rw [htime f hf, if_pos hlast]
    exact hle e he
  · rwa [htime e he, htime f hf, if_neg he', if_neg hf']

end Linked

/-! ### Histories -/

namespace Cache

variable {ok : Moment → Cache → Request Owner Identity → Prop} {c : Cache} {v : Linked}

/-- A linked cache. -/
def linked? : Cache → Option Linked
  | linked v => some v
  | sharded _ => none

/-- The caches that can come about while every request is `ok` and the clock does not go back, with
what the clock showed at last and all that was used, in order. -/
inductive ReachesInTime (ok : Moment → Cache → Request Owner Identity → Prop) :
    Nat → List Entry → Cache → Prop where
  | built {s : Settings} {observers : Nat} {c : Cache} :
    build s observers = .ok c → ReachesInTime ok 0 [] c
  | performed {now : Nat} {us : List Entry} {c c' : Cache} {m : Moment}
      {r : Request Owner Identity} {x : Reply × List Notice} :
    ReachesInTime ok now us c → now ≤ m.now → ok m c r → (r.perform m).result c = (.ok x, c') →
    ReachesInTime ok m.now (us ++ c.uses r) c'
  | counted {now : Nat} {us : List Entry} {c : Cache} (h : Happening) :
    ReachesInTime ok now us c → ReachesInTime ok now us (c.count h)

/-- What a request uses is there or is made by it. -/
theorem mem_uses {e : Entry} (h : e ∈ c.uses q) :
    (∃ k, c.get? k = some e) ∨ e ∈ q.made c.ledger := by
  cases q with
  | get image p => exact .inl ⟨_, Option.mem_toList.1 h⟩
  | getAll image points =>
    obtain ⟨p, -, hp⟩ := List.mem_filterMap.1 h
    exact .inl ⟨_, hp⟩
  | _ => exact .inr h

namespace ReachesInTime

theorem toUsing (h : ReachesInTime ok now us c) : ReachesUsing ok us c := by
  induction h with
  | built hb => exact .built hb
  | performed _ _ hr hx ih => exact .performed ih hr hx
  | counted a _ ih => exact .counted a ih

/-- With room for what it caches, a request is answered. -/
theorem next (h : ReachesInTime HasRoom now us c) (hnow : now ≤ m.now) (hr : c.HasRoom m q) :
    ReachesInTime HasRoom m.now (us ++ c.uses q) ((q.perform m).result c).2 := by
  obtain ⟨x, c', hx, -⟩ := h.toUsing.reaches.answers hr
  rw [hx]
  exact .performed h hnow hr hx

/-- The times of a linked cache do not go back along its list. -/
theorem chronological (h : ReachesInTime ok now us c) (hc : c = linked v) :
    v.Chronological now := by
  induction h generalizing v with
  | built hb =>
    have hnil : v.entries = [] := by
      have := (fresh_of_build hb).2.2.2
      rwa [hc] at this
    constructor <;> rw [hnil]
    · nofun
    · exact .nil
  | @performed now us c c' m r x hreach hnow hr hx ih =>
    have hlayout := (keepsLayout_perform r c).of_ok hx
    rw [hc] at hlayout
    cases c with
    | sharded w => cases hlayout
    | linked w =>
      cases hc
      have hsound : w.Sound := hreach.toUsing.reaches.sound
      obtain ⟨layout, hconsistent⟩ := hreach.toUsing.reaches.consistent
      have hserial : w.tiles.Serial w.ledger.nextSeq := hconsistent.serial
      have hsize : w.register.size = w.ledger.nextSeq :=
        hreach.toUsing.reaches.size_register
      have hdates := (perform_dates (c := linked w) r hsound hsize fun hk =>
        hsize ▸ hserial.lt hk).of_ok hx
      refine (ih rfl).after hnow hdates ((uses_meets r hsound).of_ok hx) (fun e he => ?_) ?_
      · refine ⟨List.mem_map_of_mem he, (mem_uses he).imp ?_ fun hmade => ?_⟩
        · rintro ⟨k, hk⟩
          exact (hsound.shelf.mem e).2 (by rwa [hsound.shelf.key hk])
        · rw [hsize]
          exact (Request.seq_of_made hmade).1
      · intro e he hseq
        obtain ⟨f, hf, hfe⟩ := List.mem_map.1 hseq
        have hk := (hsound.shelf.mem e).1 he
        rcases mem_uses hf with ⟨k, hk'⟩ | hmade
        · rwa [← hserial.inj hk' hk hfe]
        · exact absurd (hfe ▸ hserial.lt hk) (Nat.not_lt.2 (Request.seq_of_made hmade).1)
  | @counted now us c a _ ih =>
    cases c with
    | sharded w => cases hc
    | linked w =>
      cases hc
      have := ih rfl
      exact ⟨this.le_now, this.increasing⟩

end ReachesInTime

end Cache

namespace Linked

variable {v w : Linked} {protect : Option TileKey} {e f : Entry}

/-- Where a pass starts, the times do not go back along the list. -/
theorem Starts.chronological (hw : Starts m v q used w) (hv : v.Sound)
    (hserial : v.tiles.Serial v.ledger.nextSeq) (hsize : v.register.size = v.ledger.nextSeq)
    (h : v.Chronological now) (hnow : now ≤ m.now) : w.Chronological m.now := by
  have hmade : ∀ e ∈ used, e ∈ q.made v.ledger := by
    have huses : (Cache.linked v).uses q = q.made v.ledger := by cases hw <;> rfl
    exact fun e he => huses ▸ (hw.used_prefix hv).mem he
  refine h.after hnow (hw.dates hsize) (hw.order hv) (fun e he => ?_) fun e he hseq => ?_
  · refine ⟨List.mem_map_of_mem (hmade e he), .inr ?_⟩
    rw [hsize]
    exact (Request.seq_of_made (hmade e he)).1
  · obtain ⟨f, hf, hfe⟩ := List.mem_map.1 hseq
    have hlt := hserial.lt ((hv.shelf.mem e).1 he)
    exact absurd (hfe ▸ hlt) (Nat.not_lt.2 (Request.seq_of_made hf).1)

/-! ### Ranks -/

/-- The rank that an entry would have if in the last place the uses counted and not the age. -/
def rankByUse (m : Moment) (us : List Entry) (v : Linked) (e : Entry) : Rank :=
  { v.rank m e with seq := lastUse us e }

/-- What was used later has no earlier time. -/
theorem Chronological.lastAccess_le (h : v.Chronological now) (hus : v.entries.Sublist us.dedup)
    (he : e ∈ v.entries) (hf : f ∈ v.entries) (hlt : lastUse us e < lastUse us f) :
    (v.status e).lastAccess ≤ (v.status f).lastAccess := by
  let inTime (e f : Entry) : Prop :=
    lastUse us e < lastUse us f → (v.status e).lastAccess ≤ (v.status f).lastAccess
  have hsymm : Std.Symm fun e f => inTime e f ∧ inTime f e := ⟨fun _ _ => And.symm⟩
  have huses := (pairwise_lastUse_dedup us).sublist hus
  have hpairs : v.entries.Pairwise fun e f => inTime e f ∧ inTime f e :=
    (h.increasing.and huses).imp fun ⟨hle, hlt⟩ =>
      ⟨fun _ => hle, fun hgt => absurd hlt (Nat.lt_asymm hgt)⟩
  exact (hpairs.forall he hf fun hef => Nat.lt_irrefl _ (hef ▸ hlt)).1 hlt

/-- What is alive and has the earlier turn has the lesser rank. -/
theorem Chronological.before_of_turnAfter (h : v.Chronological now)
    (hus : v.entries.Sublist us.dedup) (hmade : ∀ {e}, e ∈ v.entries → e.Made)
    (he : e ∈ v.entries) (hf : f ∈ v.entries) (halive : m.alive e.owner) (halive' : m.alive f.owner)
    (hlt : compare (turnAfter us e) (turnAfter us f) = .lt) :
    (v.rankByUse m us e).before (v.rankByUse m us f) := by
  have hcost : (v.rankByUse m us e).cost.totalCompare (v.rankByUse m us f).cost =
      compare (turnAfter us e).cost (turnAfter us f).cost :=
    Binary64.totalCompare_of_nonneg (hmade he).nonneg (hmade hf).nonneg
  rw [Rank.before_iff]
  change (compare (m.alive e.owner) (m.alive f.owner)).then
    (((v.rankByUse m us e).cost.totalCompare (v.rankByUse m us f).cost).then
      ((compare (v.status e).lastAccess (v.status f).lastAccess).then
        (compare (lastUse us e) (lastUse us f)))) = .lt
  rw [halive, halive', hcost, Std.compare_self, Ordering.eq_then]
  rcases Turn.compare_eq_lt_iff.1 hlt with hless | ⟨heq, hless⟩
  · rw [Std.compare_eq_lt.2 hless]
    rfl
  · rw [heq, Std.compare_self, Ordering.eq_then]
    have hless : lastUse us e < lastUse us f := hless
    rcases Nat.lt_or_eq_of_le (h.lastAccess_le hus he hf hless) with htime | htime
    · rw [Std.compare_eq_lt.2 htime]
      rfl
    · rw [htime, Std.compare_self, Ordering.eq_then, Std.compare_eq_lt.2 hless]

/-! ### What a pass takes -/

/-- The victims of a pass whose sweep comes to every slot: the stale ones as the sweep finds them, and
then live ones by rank. -/
structure TakesRanked (us : List Entry) (m : Moment) (protect : Option TileKey) (v : Linked)
    (stale live : List Entry) (v' : Linked) : Prop where
  /-- Stale entries go in the order of the sweep, whatever their ranks. -/
  swept : stale <+: v.store.sweptStale m protect
  /-- While stale entries are left that may go, nothing goes that is alive. -/
  all_swept : live ≠ [] → stale = v.store.sweptStale m protect
  alive : ∀ e ∈ live, m.alive e.owner
  ordered : live.Pairwise fun e f => (v.rankByUse m us e).before (v.rankByUse m us f)
  least : ∀ e ∈ live, ∀ f ∈ v'.entries, some f.key ≠ protect →
    m.alive f.owner ∧ (v.rankByUse m us e).before (v.rankByUse m us f)

theorem Takes.ranked {rest victims : List Entry} {w' : Linked} (hw : w.Sound)
    (h : w.Takes us m protect (w.store.sweptStale m protect) rest victims w')
    (hrest : InLine (turnAfter us)
      ((exposed protect w.entries).filter (· ∉ w.store.sweptStale m protect)) rest)
    (hslots : w.store.recency.slots ≤ 64)
    (hbefore : ∀ {e f}, e ∈ w.entries → f ∈ w.entries → m.alive e.owner → m.alive f.owner →
      compare (turnAfter us e) (turnAfter us f) = .lt →
      (w.rankByUse m us e).before (w.rankByUse m us f)) :
    ∃ stale live, victims = stale ++ live ∧ w.TakesRanked us m protect stale live w' := by
  obtain ⟨stale, live, rfl, hstale, hlive, hall⟩ := h.phases
  have hmem : ∀ {e}, e ∈ rest → e ∈ w.entries ∧ m.alive e.owner := by
    intro e he
    obtain ⟨hexposed, hnot⟩ := List.mem_filter.1 (hrest.perm.mem_iff.1 he)
    obtain ⟨he, hp⟩ := mem_exposed.1 hexposed
    refine ⟨he, ?_⟩
    by_contra hgone
    have hswept := hw.valid.mem_sweptStale hslots he (by simpa [Entry.isStale] using hgone) hp
    simp [hswept] at hnot
  refine ⟨stale, live, rfl, hstale, hall, fun e he => (hmem (hlive.mem he)).2, ?_, ?_⟩
  · refine (hrest.ordered.sublist hlive.sublist).imp_of_mem fun he hf hlt => ?_
    obtain ⟨he, halive⟩ := hmem (hlive.mem he)
    obtain ⟨hf, halive'⟩ := hmem (hlive.mem hf)
    exact hbefore he hf halive halive' hlt
  · intro e he f hf hp
    obtain ⟨he', halive⟩ := hmem (hlive.mem he)
    have halive' := h.stale_first hslots e (List.mem_append_right _ he) halive f hf hp
    have hf' : f ∈ w.entries := h.left.mem_iff.2 (List.mem_append_right _ hf)
    have hleft : f ∉ live := fun hgone => (List.nodup_append.1
      (h.left.nodup_iff.1 hw.shelf.nodup)).2.2 f (List.mem_append_right _ hgone) f hf rfl
    have hunswept : f ∉ w.store.sweptStale m protect := by
      intro hswept
      have hstale := LinkedStore.isStale_of_mem_sweptStale hswept
      rw [Entry.isStale, halive'] at hstale
      cases hstale
    have hin : f ∈ (exposed protect w.entries).filter (· ∉ w.store.sweptStale m protect) :=
      List.mem_filter.2 ⟨mem_exposed.2 ⟨hf', hp⟩, by simpa using hunswept⟩
    exact ⟨halive', hbefore he' hf' halive halive' (hrest.before hlive he hin hleft)⟩

end Linked

/-- The victims of any pass of a linked cache by rank, when its list has up to sixty-four slots and the
clock never went back. Stale entries go first, in the order of the sweep. Then entries that are alive
go, each with the least rank of what is left and not protected, but that of entries with the same cost
and the same time it is not the older one that goes first, but the one whose last use came first. While
there was always room the pass does not fail. -/
theorem linked_victims_ranked {ok : Moment → Cache → Request Owner Identity → Prop}
    {now : Nat} {us used : List Entry} {v w : Linked} {m : Moment} {q : Request Owner Identity}
    (hv : Cache.ReachesInTime ok now us (.linked v)) (hnow : now ≤ m.now)
    (hw : Linked.Starts m v q used w) (hslots : w.store.recency.slots ≤ 64)
    (protect : Option TileKey) :
    (∀ pass w', (Linked.evict m protect).result w = (.ok pass, w') →
      ∃ stale live, pass.victims = stale ++ live ∧
        w.TakesRanked (us ++ used) m protect stale live w') ∧
    (Cache.Reaches Cache.HasRoom (.linked v) → Cache.HasRoom m (.linked v) q →
      ∃ pass w', (Linked.evict m protect).result w = (.ok pass, w')) := by
  have hreach := hv.toUsing.reaches
  have hb := hw.begins hreach.sound
  have hsound : w.Sound := hb.sound
  have hpass : (Linked.evict m protect).Meets w (Fits w.entries 0) fun pass w' =>
      Relieves protect w pass.victims w' :=
    (Linked.evict_meets m protect hsound).imp fun _ _ h => h.1
  constructor
  · intro pass w' hresult
    obtain ⟨layout, hconsistent⟩ := hreach.consistent
    have hmade : ∀ {e}, e ∈ w.entries → e.Made := fun he =>
      hb.all_made hreach.made ((hsound.shelf.mem _).1 he)
    have horder : w.entries.Sublist (us ++ used).dedup :=
      (hw.order hreach.sound).trans (foldl_usedLast_sublist_dedup (hv.toUsing.order rfl) used)
    have hchronological : w.Chronological m.now := hw.chronological hreach.sound hconsistent.serial
      hreach.size_register (hv.chronological rfl) hnow
    have hkey : w.store.InTurn (turnAfter (us ++ used)) := hsound.valid.inTurn horder
    obtain ⟨rest, hrest⟩ := hkey.exists_inLine hsound.valid
      (List.filter_sublist.trans List.filter_sublist)
    refine Linked.Takes.ranked hsound (Linked.takes_of_shortest hsound hmade hrest
      ((Linked.evict_takes hsound hkey hrest).of_ok hresult) (hpass.of_ok hresult)) hrest hslots ?_
    exact hchronological.before_of_turnAfter horder hmade
  · intro hroom hr
    obtain ⟨pass, w', hresult, -⟩ := hpass.exists_ok (hb.fits ⟨hroom.exact, hr⟩)
    exact ⟨pass, w', hresult⟩

/-- Four tiles are cached within a millisecond, the first one is looked up, and then the owner of the
last two is gone. These two go, the costly one first since its slot comes first, and then the second
tile, which is younger than the first one, but was used before it. -/
theorem linked_victims_ranked_in_one_millisecond :
    let m : Moment := ⟨0, fun n => n ≠ 1⟩
    let add (owner : Nat) (x : Int32) (cost : Option Binary64) : Request Owner Identity :=
      .add ⟨owner, .hashed 1⟩ ⟨x, 0⟩ ⟨⟨8, 100, 1⟩, 0⟩ cost
    let next (c : Cache) (q : Request Owner Identity) := ((q.perform ⟨0, fun _ => true⟩).result c).2
    let s : Settings := { layout := .linked, capacity := 1800, threshold := ⟨0x3fd0000000000000⟩ }
    let c := [add 0 0 none, add 0 1 none, add 1 2 (some .one), add 1 3 none,
      .get (.hashed 1) ⟨0, 0⟩].foldl next (Cache.new s 0)
    ∃ us v pass v' stale live, c = .linked v ∧
      (Linked.evict m none).result v = (.ok pass, v') ∧ pass.victims = stale ++ live ∧
      pass.victims.map (·.seq) = [2, 3, 1] ∧ v.TakesRanked us m none stale live v' := by
  intro m add next s c
  have hnew : Cache.ReachesInTime Cache.HasRoom 0 [] (Cache.new s 0) := .built (s := s) rfl
  have hnext : ∀ {us c q}, Cache.ReachesInTime Cache.HasRoom 0 us c →
      Cache.HasRoom ⟨0, fun _ => true⟩ c q →
      Cache.ReachesInTime Cache.HasRoom 0 (us ++ c.uses q) (next c q) := fun h hr => h.next le_rfl hr
  obtain ⟨us, hus⟩ : ∃ us, Cache.ReachesInTime Cache.HasRoom 0 us c := by
    refine ⟨_, hnext (hnext (hnext (hnext (hnext hnew ?_) ?_) ?_) ?_) ?_⟩ <;> decide +kernel
  have hlayout : c.layout = .linked := by decide +kernel
  have hslots : (c.linked?.map (·.store.recency.slots)) = some 4 := by decide +kernel
  have hvictims : ((Cache.evict m none).result c).1.toOption.map (·.victims.map (·.seq)) =
      some [2, 3, 1] := by decide +kernel
  clear_value c
  cases c with
  | sharded v => cases hlayout
  | linked v =>
    have hslots : v.store.recency.slots = 4 := Option.some.inj hslots
    obtain ⟨htakes, hanswers⟩ :=
      linked_victims_ranked hus le_rfl (.relieve (m := m)) (hslots ▸ by decide) none
    obtain ⟨pass, v', hresult⟩ := hanswers hus.toUsing.reaches trivial
    obtain ⟨stale, live, hboth, htakes⟩ := htakes pass v' hresult
    have hpass : ((Cache.evict m none).result (.linked v)).1 = .ok pass := congrArg Prod.fst hresult
    rw [hpass] at hvictims
    rw [List.append_nil] at htakes
    exact ⟨us, v, pass, v', stale, live, rfl, hresult, hboth, Option.some.inj hvictims, htakes⟩

/-- Ranks are not followed throughout. Of two tiles that are cached in one millisecond, the younger one
goes when the older one was looked up again in the same millisecond. Of two tiles whose owner is gone,
the one in the first slot goes, though it costs more. -/
theorem linked_victims_misranked :
    let m : Moment := ⟨0, fun n => n ≠ 1⟩
    let misranks (c : Cache) : Prop := ∃ us v pass v', c = .linked v ∧
      Cache.ReachesInTime Cache.HasRoom 0 us c ∧ v.store.recency.slots ≤ 64 ∧
      (Linked.evict m none).result v = (.ok pass, v') ∧
      ∃ e ∈ pass.victims, ∃ f ∈ v'.entries, (v.rank m f).before (v.rank m e)
    let add (owner : Nat) (x : Int32) (cost : Option Binary64) : Request Owner Identity :=
      .add ⟨owner, .hashed 1⟩ ⟨x, 0⟩ ⟨⟨8, 100, 1⟩, 0⟩ cost
    let next (c : Cache) (q : Request Owner Identity) := ((q.perform ⟨0, fun _ => true⟩).result c).2
    let s : Settings := { layout := .linked, capacity := 1600, threshold := ⟨0x3fd0000000000000⟩ }
    misranks ([add 0 0 none, add 0 1 none, .get (.hashed 1) ⟨0, 0⟩].foldl next (Cache.new s 0)) ∧
    misranks ([add 1 0 (some .one), add 1 1 none].foldl next (Cache.new s 0)) := by
  intro m misranks add next s
  have hnew : Cache.ReachesInTime Cache.HasRoom 0 [] (Cache.new s 0) := .built (s := s) rfl
  have hnext : ∀ {us c q}, Cache.ReachesInTime Cache.HasRoom 0 us c →
      Cache.HasRoom ⟨0, fun _ => true⟩ c q →
      Cache.ReachesInTime Cache.HasRoom 0 (us ++ c.uses q) (next c q) := fun h hr => h.next le_rfl hr
  let strays (v : Linked) : Bool := v.store.recency.slots ≤ 64 &&
    match (Linked.evict m none).result v with
    | (.ok pass, v') => ∃ e ∈ pass.victims, ∃ f ∈ v'.entries, (v.rank m f).before (v.rank m e)
    | (.error _, _) => false
  have hstrays : ∀ {c : Cache} {us : List Entry}, Cache.ReachesInTime Cache.HasRoom 0 us c →
      c.linked?.map strays = some true → misranks c := by
    intro c us hus hc
    cases c with
    | sharded v => cases hc
    | linked v =>
      obtain ⟨hslots, hpass⟩ := Bool.and_eq_true_iff.1 (Option.some.inj hc)
      rcases hresult : (Linked.evict m none).result v with ⟨f | pass, v'⟩
      · rw [hresult] at hpass
        cases hpass
      · rw [hresult] at hpass
        exact ⟨us, v, pass, v', rfl, hus, of_decide_eq_true hslots, hresult, of_decide_eq_true hpass⟩
  constructor
  · refine hstrays (hnext (hnext (hnext hnew ?_) ?_) ?_) ?_ <;> decide +kernel
  · refine hstrays (hnext (hnext hnew ?_) ?_) ?_ <;> decide +kernel

end TileStore
