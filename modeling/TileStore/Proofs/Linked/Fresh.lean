import TileStore.Proofs.Agreement
import TileStore.Proofs.Dates
import TileStore.Proofs.Linked.Past
import TileStore.Proofs.Target

/-!
# Flushed linked caches are as good as new

When a linked cache is flushed, all that is left of its past are three numbers: how many entries it made,
how many uses it counted, and its counters. So whatever it is asked then, it does what a new cache does
that has the settings in force, and leaves what that one leaves, but for these numbers:
`flushed_like_new`. Uses show nowhere. Entries show the number of those made before in their own numbers, as
long as the cache lives. Counters show what they counted before until they are reset, after which nothing
of it is left: `flushed_unlike_new`.
-/

namespace TileStore

open Mutation

variable {m : Moment} {p : Past}

/-! ### Notices of entries that were made later -/

namespace Notice

theorem victims_later (k : Nat) (ns : List Notice) :
    victims (ns.map (later k)) = (victims ns).map (.later k) := by
  unfold victims
  rw [List.filterMap_map, List.map_filterMap]
  refine List.filterMap_congr fun n _ => ?_
  rcases n with _ | _ | ⟨e, _ | _ | _ | _⟩ <;> rfl

theorem told_later (k : Nat) (ns : List Notice) :
    told (ns.map (later k)) = (told ns).map (Prod.map (.later k) id) := by
  unfold told
  rw [List.filterMap_map, List.map_filterMap]
  refine List.filterMap_congr fun n _ => ?_
  cases n <;> rfl

theorem counted_later (k : Nat) (ns : List Notice) : counted (ns.map (later k)) = counted ns := by
  unfold counted
  rw [List.filterMap_map]
  refine List.filterMap_congr fun n _ => ?_
  cases n <;> rfl

end Notice

/-! ### Requests -/

/-- What a request to a cache with a past comes to. -/
def Upshot.later (p : Past) (x : Upshot) : Upshot where
  reply := x.reply.later p.made p.counters
  victims := x.victims.map (.later p.made)
  events := x.events.map (Prod.map (.later p.made) id)

namespace Past

variable {c d : Cache} {v w : Linked}

/-- What is left of the past after a request. -/
def after (p : Past) : Request Owner Identity → Past
  | .reset => { p with counters := {} }
  | _ => p

theorem both_countAll (h : p.kinship.Both c d) (xs : List Happening) :
    p.kinship.Both (c.countAll xs) (d.countAll xs) := by
  induction xs generalizing c d with
  | nil => exact h
  | cons x xs ih =>
    obtain ⟨hvw⟩ := h
    exact ih ⟨Ledger.Delayed.count hvw.ledger x, hvw.register, hvw.store⟩

theorem ledger (h : p.kinship.Both c d) : Ledger.Delayed p c.ledger d.ledger := by
  obtain ⟨hvw⟩ := h
  exact hvw.ledger

/-- Both reset their counters. -/
theorem perform_reset (h : p.kinship.Both c d) :
    (Request.reset.perform m).Alike (Request.reset.perform m) c d fun x c' y d' =>
      x = (.done, []) ∧ y = x ∧ (p.after .reset).kinship.Both c' d' := by
  obtain @⟨v, w, hvw⟩ := h
  have hledger : Ledger.Delayed p v.ledger w.ledger := hvw.ledger
  have hcounters : w.ledger.counters.reset = v.ledger.counters.reset.onTopOf {} := by
    rw [Counters.onTopOf_zero, hledger.counters]
    rfl
  exact ⟨rfl, rfl, ⟨{ hledger with counters := hcounters }, hvw.register, hvw.store⟩⟩

/-- A request comes to the same in both, but for the past. -/
theorem settle (h : p.kinship.Both c d) (q : Request Owner Identity) :
    (q.settle m).Alike (q.settle m) c d fun x c' y d' =>
      y = x.later (p.after q) ∧ (p.after q).kinship.Both c' d' := by
  unfold Request.settle
  -- a reset is the one request after which less of the past is left
  by_cases hq : q = .reset
  · subst hq
    refine alike_bind ((perform_reset h).imp ?_)
    rintro _ c' _ d' ⟨rfl, rfl, hboth⟩
    simp only [alike_modify_left, alike_modify_right, alike_get_left, alike_get_right]
    refine ⟨?_, hboth⟩
    simp [Upshot.later, Notice.victims, Notice.told, Reply.later]
  · have hafter : p.after q = p := by cases q <;> first | rfl | exact absurd rfl hq
    obtain @⟨v, w, hvw⟩ := h
    refine alike_bind (((p.inStep m).perform q hq hvw).imp ?_)
    rintro ⟨reply, ns⟩ c' ⟨_, _⟩ d' ⟨hboth, rfl, hreply⟩
    obtain rfl := hreply p.counters p.shows
    have hcounted := both_countAll hboth (Notice.counted ns)
    have henabled : (d'.countAll (Notice.counted ns)).ledger.counters.enabled =
        (c'.countAll (Notice.counted ns)).ledger.counters.enabled := by
      rw [(ledger hcounted).counters]
      rfl
    simp only [alike_modify_left, alike_modify_right, alike_get_left, alike_get_right,
      Notice.counted_later, hafter]
    refine ⟨?_, hcounted⟩
    simp only [Upshot.later, Notice.victims_later, Notice.told_later, henabled]
    cases (c'.countAll (Notice.counted ns)).ledger.counters.enabled <;> rfl

/-! ### Histories -/

/-- Requests one after the other, each at its moment. -/
def settleAll (hs : List (Moment × Request Owner Identity)) : Mutation Cache (List Upshot) :=
  hs.mapM fun h => h.2.settle h.1

/-- What is left of the past after requests. -/
def afterAll (p : Past) (hs : List (Moment × Request Owner Identity)) : Past :=
  hs.foldl (fun p h => p.after h.2) p

/-- What requests to a cache with a past come to. -/
def shift : Past → List (Moment × Request Owner Identity) → List Upshot → List Upshot
  | p, h :: hs, x :: xs => x.later (p.after h.2) :: (p.after h.2).shift hs xs
  | _, _, _ => []

/-- By induction on the requests, they come to the same in both, but for the past. -/
theorem alike_settleAll (h : p.kinship.Both c d) (hs : List (Moment × Request Owner Identity)) :
    (settleAll hs).Alike (settleAll hs) c d fun xs c' ys d' =>
      ys = p.shift hs xs ∧ (p.afterAll hs).kinship.Both c' d' := by
  unfold settleAll
  induction hs generalizing p c d with
  | nil => exact ⟨rfl, h⟩
  | cons r hs ih =>
    rw [List.mapM_cons]
    refine alike_bind ((settle h r.2).imp ?_)
    rintro x c' _ d' ⟨rfl, hboth⟩
    refine alike_bind ((ih hboth).imp ?_)
    rintro xs c'' _ d'' ⟨rfl, hboth'⟩
    exact ⟨rfl, hboth'⟩

/-- The second of two caches shows the same as the first, but for its past. -/
structure Separates (p : Past) (c d : Cache) : Prop where
  entries : d.entries = c.entries.map (.later p.made)
  status : ∀ e, d.status (e.later p.made) = c.status e
  memoryUsed : d.ledger.memoryUsed = c.ledger.memoryUsed
  tileCount : d.ledger.tileCount = c.ledger.tileCount
  nextSeq : d.ledger.nextSeq = c.ledger.nextSeq + p.made
  counters : d.ledger.counters = c.ledger.counters.onTopOf p.counters

theorem separates (h : p.kinship.Both c d) : p.Separates c d := by
  have hledger := ledger h
  obtain @⟨v, w, hvw⟩ := h
  exact {
    entries := (LinkedStore.Delayed.inStep _ _).entries hvw.store
    status := fun e => Register.Delayed.status hvw.register e.seq
    memoryUsed := hledger.memoryUsed
    tileCount := hledger.tileCount
    nextSeq := hledger.nextSeq
    counters := hledger.counters }

/-- Whatever both are asked, the second of two caches does the same as the first, but for its past. -/
def Continues (p : Past) (c d : Cache) : Prop :=
  ∀ hs, (settleAll hs).Alike (settleAll hs) c d fun xs c' ys d' =>
    ys = p.shift hs xs ∧ (p.afterAll hs).Separates c' d'

theorem continues (h : p.kinship.Both c d) : p.Continues c d := fun hs =>
  (alike_settleAll h hs).imp fun _ _ _ _ hafter => ⟨hafter.1, separates hafter.2⟩

end Past

/-! ### Flushing -/

/-- Settings that are in force according to a ledger, as far as a linked cache goes by them. -/
structure Ledger.InForce (l : Ledger) (s : Settings) : Prop where
  capacity : s.capacity = l.capacity
  threshold : s.threshold = l.threshold
  overhead : s.overhead = l.overhead
  diagnostics : s.diagnostics = l.counters.enabled

namespace Linked

variable {v : Linked} {s : Settings}

/-- Nothing is left but the number of entries made, the number of uses and the counters. -/
structure Cleared (v : Linked) : Prop where
  store : v.store = v.store.clear
  memoryUsed : v.ledger.memoryUsed = 0
  tileCount : v.ledger.tileCount = 0
  register : v.register.size = v.ledger.nextSeq

/-- The past of a cache. -/
def past (v : Linked) : Past := ⟨v.ledger.nextSeq, v.store.tick, v.ledger.counters⟩

/-- A cache of which nothing is left is a new one with a past. -/
theorem Cleared.relates (h : v.Cleared) (hs : v.ledger.InForce s) (observers : Nat) :
    v.past.kinship.Relates (.new s observers) v where
  ledger := {
    capacity := hs.capacity.symm
    threshold := hs.threshold.symm
    memoryUsed := h.memoryUsed
    tileCount := h.tileCount
    nextSeq := (Nat.zero_add _).symm
    counters := by
      change v.ledger.counters = Counters.onTopOf { enabled := s.diagnostics } v.ledger.counters
      rw [hs.diagnostics]
      simp [Counters.onTopOf]
    overhead := hs.overhead.symm }
  register := Register.delayed_of_size h.register
  store := by
    rw [h.store]
    exact .clear _ _ {} v.store (Nat.zero_add _).symm

/-- A flush leaves nothing else. -/
theorem flush_clears (h : v.Sound) :
    flush.Meets v (Fits v.entries 0) fun _ v' =>
      v'.store = v'.store.clear ∧ v.ledger.Recharged v'.ledger ∧ v'.ledger.Balanced [] := by
  unfold flush
  simp only [Mutation.meets_bind, Mutation.meets_get, Mutation.meets_set]
  refine (Vault.accountAll_meets v.store.entries (v := { v with store := v.store.clear })
    h.balanced).imp ?_
  rintro _ v₁ ⟨hstore, hledger, hbalanced⟩
  refine (Vault.dismiss_meets v.store.entries v₁).imp ?_
  rintro _ v' ⟨-, hstore', hledger'⟩
  rw [Mutation.meets_pure, hstore', hstore, hledger']
  exact ⟨rfl, hledger, hbalanced⟩

end Linked

namespace Cache

variable {ok : Moment → Cache → Request Owner Identity → Prop} {c c' : Cache} {v : Linked}
  {x : Upshot}

/-- A flush clears a cache. -/
theorem Reaches.settle_flush (h : Reaches ok (linked v)) :
    (Request.flush.settle m).Meets (linked v) (Fits v.entries 0) fun _ c' =>
      ∃ v' : Linked, c' = linked v' ∧ v'.Cleared ∧ v'.ledger =
        { v.ledger with memoryUsed := 0, tileCount := 0, counters := v'.ledger.counters } := by
  have hcleared : (Request.flush.perform m).Meets (linked v) (Fits v.entries 0) fun _ c₁ =>
      ∃ v₁ : Linked, c₁ = linked v₁ ∧ v₁.store = v₁.store.clear ∧
        v.ledger.Recharged v₁.ledger ∧ v₁.ledger.Balanced [] := by
    refine Mutation.meets_bind.2 (meets_byLayout_linked.2 ((Linked.flush_clears h.sound).imp ?_))
    exact fun _ v₁ hv₁ => ⟨v₁, rfl, hv₁⟩
  unfold Request.settle
  refine Mutation.meets_bind.2 (hcleared.and_result.imp ?_)
  rintro ⟨reply, ns⟩ _ ⟨⟨v₁, rfl, hstore, hledger, hbalanced⟩, hresult⟩
  have hreach : Reaches (fun _ _ _ => True) (linked v₁) :=
    .performed (h.mono fun _ _ _ _ => trivial) trivial hresult
  have hsize : v₁.register.size = v₁.ledger.nextSeq := hreach.size_register
  have hempty : v₁.ledger = { v.ledger with memoryUsed := 0, tileCount := 0 } := by
    rw [Ledger.Recharged, hbalanced.memoryUsed, hbalanced.tileCount] at hledger
    exact hledger
  -- the removals are counted only after everything else, which changes the counters alone
  simp only [Mutation.meets_bind, Mutation.meets_modify, Mutation.meets_get, Mutation.meets_pure]
  rw [countAll_eq]
  refine ⟨_, rfl, ⟨hstore, hbalanced.memoryUsed, hbalanced.tileCount, hsize⟩, ?_⟩
  dsimp only
  rw [hempty]

/-- A cache whose sums are exact can be built again, with the settings in force. -/
theorem Reaches.exists_build {s : Settings} (h : Reaches ok c) (hx : c.Exact)
    (hcapacity : s.capacity = c.ledger.capacity) (hthreshold : s.threshold = c.ledger.threshold)
    (hoverhead : s.overhead = c.ledger.overhead) (hshards : s.shards ≠ 0) (observers : Nat) :
    ∃ d, build s observers = .ok d := by
  have hpositive : c.ledger.overhead ≠ 0 := by
    cases c <;> exact hx.overhead
  have hvalid : s.validate = .ok () := by
    rw [Settings.validate_eq_ok_iff, hcapacity, hthreshold, hoverhead]
    exact ⟨h.bounds_good.1, h.bounds_good.2, hshards, hpositive⟩
  refine ⟨new s observers, ?_⟩
  rw [build, hvalid]
  rfl

end Cache

/-- Take a linked cache, whatever it was asked before, and flush it. A new linked cache with the settings in
force then, and any number of observers, does the same from then on: asked the same at the same moments,
it gives the same answers, evicts the same in the same order, tells the same and is left with the same
entries in the same order and the same sums. Only the numbers of entries differ, by as many as were made
before the flush, and the counters, by their values at the flush until they are reset. With room for what is
cached, nothing of it fails. -/
theorem flushed_like_new {ok : Moment → Cache → Request Owner Identity → Prop} {c : Cache}
    (h : Cache.Reaches ok c) (hlinked : c.layout = .linked) (m : Moment) :
    (c.Exact → ∃ x c', (Request.flush.settle m).result c = (.ok x, c')) ∧
    ∀ x c', (Request.flush.settle m).result c = (.ok x, c') →
      ∃ p : Past, p.made = c.ledger.nextSeq ∧ p.counters = c'.ledger.counters ∧
        ∀ s observers, s.layout = .linked → c'.ledger.InForce s →
          (c.Exact → s.shards ≠ 0 → ∃ d, Cache.build s observers = .ok d) ∧
          ∀ d, Cache.build s observers = .ok d → p.Continues d c' ∧
            ∀ hs, Mutation.Along (fun p c => c.HasRoom p.1 p.2) (fun p => p.2.settle p.1) hs d →
              ∃ ys c'', (Past.settleAll hs).result c' = (.ok ys, c'') := by
  obtain ⟨v, rfl⟩ : ∃ v, c = .linked v := by
    cases c with
    | linked v => exact ⟨v, rfl⟩
    | sharded v => cases hlinked
  have hsettled : (Request.flush.settle m).Meets (.linked v) _ _ := h.settle_flush
  constructor
  · intro hx
    obtain ⟨x, c', hresult, -⟩ := hsettled.exists_ok hx.fits
    exact ⟨x, c', hresult⟩
  · intro x c' hflush
    obtain ⟨w, rfl, hcleared, hledger⟩ := hsettled.of_ok hflush
    have hmade : w.ledger.nextSeq = v.ledger.nextSeq := by rw [hledger]
    have hcapacity : w.ledger.capacity = v.ledger.capacity := by rw [hledger]
    have hthreshold : w.ledger.threshold = v.ledger.threshold := by rw [hledger]
    have hoverhead : w.ledger.overhead = v.ledger.overhead := by rw [hledger]
    refine ⟨w.past, hmade, rfl, fun s observers hlayout hforce => ⟨?_, ?_⟩⟩
    · intro hx hshards
      exact h.exists_build hx (hforce.capacity.trans hcapacity) (hforce.threshold.trans hthreshold)
        (hforce.overhead.trans hoverhead) hshards observers
    · intro d hd
      have hreach : Cache.Reaches Cache.HasRoom d := .built hd
      obtain ⟨-, rfl⟩ := Cache.eq_new_of_build hd
      have hboth : w.past.kinship.Both (Cache.new s observers) (.linked w) := by
        rw [Cache.new, hlayout]
        exact ⟨hcleared.relates hforce observers⟩
      refine ⟨Past.continues hboth, fun hs hroom => ?_⟩
      obtain ⟨xs, d', hresult⟩ := hreach.settle_all hroom
      have hanswered : (Past.settleAll hs).Meets (Cache.new s observers) True fun _ _ => True :=
        Mutation.meets_of_result hresult trivial
      obtain ⟨_, _, ys, c'', -, hys, -⟩ := (Past.continues hboth hs).exists_ok hanswered trivial
      exact ⟨ys, c'', hys⟩

/-- Two tiles are cached, the capacity is lowered, the first is looked up, and the cache is flushed. From then
on it takes what a new cache of that capacity takes, under numbers that start with two. -/
theorem flushed_like_new_used_before :
    let asked (now : Nat) (q : Request Owner Identity) : Moment × Request Owner Identity :=
      (⟨now, fun _ => true⟩, q)
    let add (x : Int32) : Request Owner Identity :=
      .add ⟨0, .hashed 1⟩ ⟨x, 0⟩ ⟨⟨8, 100, 1⟩, 0⟩ none
    let get (x : Int32) : Request Owner Identity := .get (.hashed 1) ⟨x, 0⟩
    let ask (c : Cache) (h : Moment × Request Owner Identity) : Cache :=
      ((h.2.settle h.1).result c).2
    let s (capacity : UInt64) : Settings := { layout := .linked, capacity, diagnostics := true }
    let used := [asked 1 (add 0), asked 2 (add 1), asked 3 (.setCapacity 1100), asked 4 (get 0)].foldl
      ask (.new (s 4096) 1)
    let flushed := ask used (asked 5 .flush)
    let hs := [asked 6 (add 0), asked 7 (add 1), asked 8 (add 2), asked 9 (get 0), asked 10 (add 3)]
    let victims (c : Cache) :=
      ((Past.settleAll hs).result c).1.toOption.map (·.map (·.victims.map (·.seq)))
    (∃ p : Past, p.made = 2 ∧ p.counters = { enabled := true, hits := 1, inserts := 2, removals := 2 } ∧
      p.Continues (.new (s 1100) 1) flushed) ∧
    victims (.new (s 1100) 1) = some [[], [], [], [], [1, 2]] ∧
    victims flushed = some [[], [], [], [], [3, 4]] := by
  intro asked add get ask s used flushed hs victims
  have hask : ∀ {c h}, Cache.Reaches Cache.HasRoom c → c.HasRoom h.1 h.2 →
      Cache.Reaches Cache.HasRoom (ask c h) := fun h hroom => h.settled hroom
  have hbuilt : Cache.Reaches Cache.HasRoom (.new (s 4096) 1) := .built (s := s 4096) rfl
  have hused : Cache.Reaches Cache.HasRoom used := by
    refine hask (hask (hask (hask hbuilt ?_) ?_) ?_) ?_ <;> decide +kernel
  have hnew : ∀ {c}, Cache.Reaches Cache.HasRoom c → c.layout = .linked →
      (ask c (asked 5 .flush)).ledger.InForce (s 1100) → ∃ p : Past, p.made = c.ledger.nextSeq ∧
        p.counters = (ask c (asked 5 .flush)).ledger.counters ∧
        p.Continues (.new (s 1100) 1) (ask c (asked 5 .flush)) := by
    intro c hc hlinked hforce
    obtain ⟨hflush, hafter⟩ := flushed_like_new hc hlinked ⟨5, fun _ => true⟩
    obtain ⟨x, c', hflushed⟩ := hflush hc.exact
    obtain rfl : ask c (asked 5 .flush) = c' := congrArg Prod.snd hflushed
    obtain ⟨p, hmade, hcounters, hnew⟩ := hafter x _ hflushed
    exact ⟨p, hmade, hcounters, ((hnew (s 1100) 1 rfl hforce).2 _ rfl).1⟩
  have hforce : flushed.ledger.InForce (s 1100) := by
    constructor <;> decide +kernel
  obtain ⟨p, hmade, hcounters, hcontinues⟩ := hnew hused (by decide +kernel) hforce
  refine ⟨⟨p, ?_, ?_, hcontinues⟩, by decide +kernel, by decide +kernel⟩
  · rw [hmade]
    decide +kernel
  · rw [hcounters]
    decide +kernel

/-- A tile is cached, the cache is flushed, and the counters are reset. They are those of a new cache then, not
more by what they were at the flush. -/
theorem flushed_unlike_new :
    let ask (c : Cache) (q : Request Owner Identity) : Cache :=
      ((q.settle ⟨0, fun _ => true⟩).result c).2
    let s : Settings := { layout := .linked, diagnostics := true }
    let new := Cache.new s 0
    let flushed := [.add ⟨0, .hashed 1⟩ .origin ⟨⟨8, 100, 1⟩, 0⟩ none, .flush].foldl ask new
    Cache.build s 0 = .ok new ∧ flushed.ledger.InForce s ∧
      flushed.ledger.counters = { enabled := true, inserts := 1, removals := 1 } ∧
      (ask flushed .reset).ledger.counters ≠
        (ask new .reset).ledger.counters.onTopOf flushed.ledger.counters := by
  intro ask s new flushed
  have hforce : flushed.ledger.InForce s := by
    constructor <;> decide +kernel
  exact ⟨rfl, hforce, by decide +kernel, by decide +kernel⟩

end TileStore
