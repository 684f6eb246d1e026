import TileStore.Proofs.EventLog
import TileStore.Proofs.Twins

/-!
# Both layouts evict alike

A linked cache follows an exact order of victims, and a sharded one samples. With a single shard,
while there are few entries, a sample takes in everything, and then the two cannot be told apart:
`layouts_evict_alike`. It needs that the clock moves on with every request, so that the times that
the one goes by are in the order of the ticks that the other goes by, and that all owners exist.

Observers do not call back here, so a request and what follows from it are one computation,
`Request.settle`, which `Run.quiet_request` finds in every run. The proof is by induction on the
requests, with `Twins` as the invariant and one case for each request: `Twins.perform`.
-/

namespace TileStore

/-! ### What requests come to -/

/-- What a request comes to. -/
structure Upshot where
  reply : Reply
  /-- The entries that were evicted, in order. -/
  victims : List Entry
  /-- What every observer is told. -/
  events : List Event

/-- Answer a request and work off its notices, while observers do not call back. -/
def Request.settle (m : Moment) (q : Request Owner Identity) : Mutation Cache Upshot := do
  let (reply, notices) ← q.perform m
  modify (·.countAll (Notice.counted notices))
  let c ← MonadState.get
  return {
    reply := reply
    victims := Notice.victims notices
    events := if c.ledger.counters.enabled then Notice.told notices else [] }

/-- A request in a session is one to the cache. -/
theorem Session.result_request {s : Session} {asked : Request Owner Subject}
    {q : Request Owner Identity} (hasked : asked.resolve some s.scene.image? = some q) :
    (obey (.request asked)).result s =
      (((q.perform s.scene.moment).result s.cache).1,
        { s with cache := ((q.perform s.scene.moment).result s.cache).2 }) := by
  unfold obey request
  rw [Mutation.result_bind, Mutation.result_get]
  dsimp only
  rw [hasked]
  rfl

namespace Run

variable {ρ : Type} {audience : Audience ρ}

theorem replies_foldl {α : Type} {f : Run ρ → α → Run ρ} (hf : ∀ r x, (f r x).replies = r.replies)
    (xs : List α) (r : Run ρ) : (xs.foldl f r).replies = r.replies := by
  induction xs generalizing r with
  | nil => rfl
  | cons x xs ih => exact (ih _).trans (hf r x)

/-- Whatever observers do, the answers at this level stay. -/
theorem replies_notice (nested : Script → Run ρ → Run ρ) (r : Run ρ) (n : Notice) :
    (notice audience nested r n).replies = r.replies := by
  have hvisit : ∀ e a (r : Run ρ) o, (visit audience nested e a r o).replies = r.replies := by
    intro e a r o
    unfold visit
    split
    · rfl
    · dsimp only
      generalize (if 0 < r.allowance then _ else _ : Option Script) = response
      cases response <;> rfl
  unfold notice
  split
  · rfl
  · cases n with
    | log | count => rfl
    | tell e a =>
      dsimp only
      split
      · exact replies_foldl (hvisit e a) _ r
      · rfl

/-- A run whose observers do not call back settles what it is asked. -/
theorem quiet_request {r : Run ρ} (nested : Script → Run ρ → Run ρ) (hq : audience.Quiet)
    (hf : r.fault = none) {asked : Request Owner Subject} {q : Request Owner Identity}
    (hasked : asked.resolve some r.session.scene.image? = some q) :
    let r' := step audience nested r (.request asked)
    match (q.settle r.session.scene.moment).result r.session.cache with
    | (.error f, _) => r'.fault = some f
    | (.ok x, c) => r'.session = { r.session with cache := c } ∧ r'.fault = none ∧
        r'.replies = r.replies.push x.reply ∧
        ∀ o < c.ledger.observers, r'.toldTo o = r.toldTo o ++ x.events := by
  unfold step Request.settle inSession
  rw [if_neg (by simp [hf]), Session.result_request hasked, Mutation.result_bind]
  rcases (q.perform r.session.scene.moment).result r.session.cache with ⟨f | ⟨reply, notices⟩, c⟩
  · rfl
  · obtain ⟨hsession, hfault, htold⟩ := quiet_notices nested hq notices
      (r := ({ r with session := { r.session with cache := c } } : Run ρ).reply reply) hf
    have haudible : ∀ o < (c.countAll (Notice.counted notices)).ledger.observers,
        audible c.ledger o = (c.countAll (Notice.counted notices)).ledger.counters.enabled := by
      intro o ho
      rw [Cache.ledger_countAll] at ho
      rw [Cache.enabled_countAll, audible, decide_eq_true ho, Bool.and_true]
    refine ⟨hsession, hfault, replies_foldl (replies_notice nested) notices _,
      fun o ho => (htold o).trans ?_⟩
    exact congrArg (fun on => r.toldTo o ++ if on = true then Notice.told notices else [])
      (haudible o ho)

end Run

/-! ### The same, seen from outside -/

/-- The answers are the same, but for the order of listed entries, and but for what a report says of
the layout. -/
inductive Reply.Same : Reply → Reply → Prop where
  | refl (x : Reply) : Same x x
  | entries {xs ys : List (Option Sighting)} : ys.Perm xs → Same (.entries xs) (.entries ys)
  | report (r : Report) (layout : Layout) (shards shards' : Option Nat) :
    Same (.report r shards) (.report { r with layout := layout } shards')

/-- The request removes any number of entries. -/
def Request.removesMany {ο ι : Type} : Request ο ι → Bool
  | removeImage _ | flush => true
  | _ => false

/-- A request comes to the same: the same answer, the same victims in the same order and the same
events, in the same order unless many entries are removed. -/
structure Upshot.Same (q : Request Owner Identity) (x y : Upshot) : Prop where
  reply : x.reply.Same y.reply
  victims : y.victims = x.victims
  perm : y.events.Perm x.events
  events : q.removesMany = false → y.events = x.events

/-- The caches hold the same. Their sums, settings and counters are the same, whether or not the
first one is set to keep track of recency. -/
structure Cache.Same (c d : Cache) : Prop where
  get? : d.get? = c.get?
  entries : d.entries.Perm c.entries
  status : ∀ e, d.status e = c.status e
  ledger : d.ledger = c.ledger.tracking

/-- The caches are the same. Asked for the next thing they both fail, or it comes to the same, and
then they agree on the rest. -/
def Cache.Agree : List (Moment × Request Owner Identity) → Cache → Cache → Prop
  | [], c, d => c.Same d
  | (m, q) :: hs, c, d => c.Same d ∧
    (q.settle m).Alike (q.settle m) c d fun x c' y d' => x.Same q y ∧ Agree hs c' d'

/-! ### Notices -/

namespace Notice

variable {ns ns' : List Notice}

/-- What is not made of log lines is the same without them. -/
theorem filterMap_of_unlogged {α : Type} (f : Notice → Option α) (hf : ∀ line, f (.log line) = none)
    (h : unlogged ns' = unlogged ns) : ns'.filterMap f = ns.filterMap f := by
  have hunlogged : ∀ ns, (unlogged ns).filterMap f = ns.filterMap f := by
    intro ns
    rw [unlogged, List.filterMap_filter]
    refine List.filterMap_congr fun n _ => ?_
    cases n with
    | log line => exact (hf line).symm
    | count | tell => rfl
  rw [← hunlogged ns', h, hunlogged]

/-- Notices come to the same when they are worked off. -/
structure Same (q : Request Owner Identity) (ns ns' : List Notice) : Prop where
  victims : victims ns' = victims ns
  counted : counted ns' = counted ns
  perm : (told ns').Perm (told ns)
  told : q.removesMany = false → told ns' = told ns

theorem same_of_unlogged {q : Request Owner Identity} (h : unlogged ns' = unlogged ns) :
    Same q ns ns' := by
  have htold : Notice.told ns' = Notice.told ns := filterMap_of_unlogged _ (fun _ => rfl) h
  exact ⟨filterMap_of_unlogged _ (fun _ => rfl) h, filterMap_of_unlogged _ (fun _ => rfl) h,
    htold ▸ .refl _, fun _ => htold⟩

/-- The same entries are removed, in any order. -/
theorem same_removed {q : Request Owner Identity} {es es' : List Entry} (hq : q.removesMany = true)
    (h : es'.Perm es) (line line' : LogLine) :
    Same q (removed es ++ [.log line]) (removed es' ++ [.log line']) := by
  refine ⟨by simp, ?_, ?_, fun hq' => absurd hq (by simp [hq'])⟩
  · simp [Notice.counted, removed, h.length_eq, List.filterMap_append, List.filterMap_map]
  · simpa using h.map (·, Action.removed)

end Notice

/-! ### Requests to twins -/

/-- A linked cache and a sharded one that are twins. -/
inductive Cache.Paired (limit : Nat) : Cache → Cache → Prop where
  | of {v : Linked} {w : Sharded} : Twins limit v w → Paired limit (.linked v) (.sharded w)

/-- The entries that an eviction pass starts with, if the request sets one off in a linked cache. -/
def Cache.passStart (c : Cache) : Request Owner Identity → Option (List Entry)
  | .add owner p payload cost =>
    let es := usedLast c.entries (.new owner p payload cost c.ledger.overhead c.ledger.nextSeq)
    if c.ledger.capacity < UInt64.ofNat (total es) then some es else none
  | .relieve => if c.ledger.target < c.ledger.memoryUsed then some c.entries else none
  | .setCapacity bytes => if bytes ≠ 0 ∧ bytes < c.ledger.memoryUsed then some c.entries else none
  | _ => none

/-- All owners exist, those of what is cached and of what is to be cached, and a pass that the
request sets off starts with eight entries at most. -/
def Cache.Comparable (m : Moment) (c : Cache) (q : Request Owner Identity) : Prop :=
  (∀ e ∈ c.entries, m.alive e.owner) ∧ (∀ o ∈ q.owner?, m.alive o.number) ∧
    ∀ es ∈ c.passStart q, es.length ≤ 8

instance decidableComparable (m : Moment) (c : Cache) (q : Request Owner Identity) :
    Decidable (c.Comparable m q) :=
  inferInstanceAs (Decidable (_ ∧ _ ∧ _))

/-- The request names a list of tiles. -/
def Request.isBatch {ο ι : Type} : Request ο ι → Bool
  | addBatch .. | getAll .. => true
  | _ => false

theorem Ledger.setCapacity_tracking (l : Ledger) (bytes : UInt64) :
    l.tracking.setCapacity bytes = (l.setCapacity bytes).map tracking := by
  rw [setCapacity_eq, setCapacity_eq]
  split <;> rfl

theorem Ledger.setThreshold_tracking (l : Ledger) (t : Binary64) :
    l.tracking.setThreshold t = (l.setThreshold t).map tracking := by
  rw [setThreshold_eq, setThreshold_eq]
  split <;> rfl

namespace Cache

variable {limit : Nat} {c d : Cache} {v : Linked} {w : Sharded}

theorem alike_byLayout {α : Type} {onLinked : Mutation Linked α} {onSharded : Mutation Sharded α}
    {R : α → Cache → α → Cache → Prop} :
    (byLayout onLinked onSharded).Alike (byLayout onLinked onSharded) (linked v) (sharded w) R ↔
      onLinked.Alike onSharded v w fun a v' b w' => R a (linked v') b (sharded w') := by
  have hlinked : (byLayout onLinked onSharded).result (linked v) =
      ((onLinked.result v).1, linked (onLinked.result v).2) := rfl
  have hsharded : (byLayout onLinked onSharded).result (sharded w) =
      ((onSharded.result w).1, sharded (onSharded.result w).2) := rfl
  unfold Mutation.Alike
  rw [hlinked, hsharded]
  rcases onLinked.result v with ⟨_ | a, v'⟩ <;> rcases onSharded.result w with ⟨_ | b, w'⟩ <;> rfl

/-- Twins show the same. -/
theorem Paired.same (h : Paired limit c d) : c.Same d := by
  obtain ⟨h⟩ := h
  exact ⟨h.tiles, h.perm, h.status_eq, h.ledger⟩

theorem Paired.mono {limit' : Nat} (h : Paired limit c d) (hle : limit ≤ limit') :
    Paired limit' c d := by
  obtain ⟨h⟩ := h
  exact ⟨{ h with timed := h.timed.mono hle }⟩

/-- Twins whose ledgers change in the same way stay twins. -/
theorem Paired.editLedger {f : Ledger → Ledger} (h : Paired limit c d)
    (hf : c.ledger.Retuned (f c.ledger)) (htracking : f c.ledger.tracking = (f c.ledger).tracking) :
    Paired limit (c.editLedger f) (d.editLedger f) := by
  obtain @⟨v, w, h⟩ := h
  have hw : (sharded w).editLedger f = sharded { w with ledger := (f v.ledger).tracking } := by
    rw [editLedger, h.ledger]
    exact congrArg (fun l => sharded { w with ledger := l }) htracking
  rw [hw]
  exact ⟨h.retuned hf⟩

theorem Paired.countAll (h : Paired limit c d) (hs : List Happening) :
    Paired limit (c.countAll hs) (d.countAll hs) := by
  induction hs generalizing c d with
  | nil => exact h
  | cons a hs ih => exact ih (h.editLedger (retuned_count _ a) rfl)

end Cache

namespace Twins

variable {limit : Nat} {v : Linked} {w : Sharded} {m : Moment}

/-- A change of the capacity, with the pass that it sets off. -/
theorem setCapacity (h : Twins limit v w) (bytes : UInt64)
    (hok : Cache.Comparable m (.linked v) (.setCapacity bytes)) :
    (Cache.setCapacity m bytes).Alike (Cache.setCapacity m bytes) (.linked v) (.sharded w)
      fun x c y d => (Request.answer y).1 = (Request.answer x).1 ∧
        Notice.unlogged (Request.answer y).2 = Notice.unlogged (Request.answer x).2 ∧
        Cache.Paired limit c d := by
  obtain ⟨halive, -, hfew⟩ := hok
  unfold Cache.setCapacity
  rw [Mutation.alike_get_left, Mutation.alike_get_right, Cache.ledger, Cache.ledger, h.ledger,
    Ledger.setCapacity_tracking]
  rcases hl : v.ledger.setCapacity bytes with r | l
  · exact ⟨rfl, rfl, ⟨h⟩⟩
  · have h' := h.retuned (Ledger.retuned_of_setCapacity hl)
    have hover : l.tracking.isOverCapacity = l.isOverCapacity := rfl
    dsimp only [Except.map]
    rw [Mutation.alike_set_left, Mutation.alike_set_right, hover]
    split
    · next hover =>
      refine Mutation.alike_bind (Cache.alike_byLayout.2 ((h'.relieve halive fun _ => ?_).imp ?_))
      · rw [Ledger.setCapacity_eq] at hl
        split at hl
        · cases hl
        · next hzero =>
          cases hl
          exact hfew _ (if_pos ⟨hzero, of_decide_eq_true hover⟩)
      · rintro ns v' ns' w' ⟨hns, h'⟩
        exact ⟨rfl, hns, ⟨h'⟩⟩
    · exact ⟨rfl, rfl, ⟨h'⟩⟩

theorem setThreshold (h : Twins limit v w) (t : Binary64) :
    (Cache.setThreshold t).Alike (Cache.setThreshold t) (.linked v) (.sharded w)
      fun x c y d => (Request.answer y).1 = (Request.answer x).1 ∧
        Notice.unlogged (Request.answer y).2 = Notice.unlogged (Request.answer x).2 ∧
        Cache.Paired limit c d := by
  unfold Cache.setThreshold
  rw [Mutation.alike_get_left, Mutation.alike_get_right, Cache.ledger, Cache.ledger, h.ledger,
    Ledger.setThreshold_tracking]
  rcases hl : v.ledger.setThreshold t with r | l
  · exact ⟨rfl, rfl, ⟨h⟩⟩
  · exact ⟨rfl, rfl, ⟨h.retuned (Ledger.retuned_of_setThreshold hl)⟩⟩

/-- Whatever single request twins are asked, they answer the same and stay twins. -/
theorem perform (h : Twins limit v w) (hnow : limit ≤ m.now) {q : Request Owner Identity}
    (hq : q.isBatch = false) (hok : Cache.Comparable m (.linked v) q) :
    (q.perform m).Alike (q.perform m) (.linked v) (.sharded w) fun x c y d =>
      x.1.Same y.1 ∧ Notice.Same q x.2 y.2 ∧ Cache.Paired (m.now + 1) c d := by
  have hle : limit ≤ m.now + 1 := Nat.le_succ_of_le hnow
  have hpaired : Cache.Paired (m.now + 1) (.linked v) (.sharded w) :=
    Cache.Paired.mono ⟨h⟩ hle
  have hsight : ∀ {limit v w}, Twins limit v w →
      (Cache.sharded w).sight m = (Cache.linked v).sight m := fun h =>
    funext fun e => congrArg (Sighting.mk e · _) (h.status_eq e)
  cases q with
  | addBatch => cases hq
  | getAll => cases hq
  | add owner p payload cost =>
    obtain ⟨halive, howner, hfew⟩ := hok
    refine Mutation.alike_bind (Cache.alike_byLayout.2 ((h.add hnow owner p payload cost halive
      (howner owner rfl) fun hover => hfew _ (if_pos hover)).imp ?_))
    rintro ns v' ns' w' ⟨hns, h'⟩
    exact ⟨.refl _, Notice.same_of_unlogged hns, ⟨h'⟩⟩
  | get image p =>
    refine Mutation.alike_bind (Cache.alike_byLayout.2 ((h.get? hnow _).imp ?_))
    rintro found v' _ w' ⟨rfl, h'⟩
    rw [Mutation.alike_get_left, Mutation.alike_get_right, hsight h']
    exact ⟨.refl _, Notice.same_of_unlogged rfl, ⟨h'⟩⟩
  | tilesOf image =>
    refine ⟨.entries ?_, Notice.same_of_unlogged rfl, hpaired⟩
    rw [hsight h]
    exact (h.entriesOf_perm _).map _
  | contains image p =>
    refine ⟨?_, Notice.same_of_unlogged rfl, hpaired⟩
    rw [hpaired.same.get?]
    exact .refl _
  | remove image p =>
    have himage : ∀ e, v.tiles (.of image p) = some e → e.image = .of image := fun e he =>
      ((h.left.shelf.proper he).image_eq (h.left.shelf.key he)).1
    refine Mutation.alike_bind (Cache.alike_byLayout.2 ((h.remove himage).imp ?_))
    rintro ⟨found, ns⟩ v' _ w' ⟨rfl, h'⟩
    rw [Mutation.alike_get_left, Mutation.alike_get_right, hsight h']
    exact ⟨.refl _, Notice.same_of_unlogged rfl, .mono ⟨h'⟩ hle⟩
  | removeImage image =>
    refine Mutation.alike_bind (Cache.alike_byLayout.2 ((h.removeImage image).imp ?_))
    rintro _ v' _ w' ⟨⟨es, es', hes, rfl, rfl⟩, h'⟩
    refine ⟨?_, Notice.same_removed rfl hes _ _, .mono ⟨h'⟩ hle⟩
    rw [hes.length_eq]
    exact .refl _
  | flush =>
    refine Mutation.alike_bind (Cache.alike_byLayout.2 (h.flush.imp ?_))
    rintro _ v' _ w' ⟨⟨es, es', hes, rfl, rfl⟩, h'⟩
    exact ⟨.refl _, Notice.same_removed rfl hes _ _, .mono ⟨h'⟩ hle⟩
  | relieve =>
    obtain ⟨halive, -, hfew⟩ := hok
    refine Mutation.alike_bind (Cache.alike_byLayout.2 ((h.relieve halive fun hover =>
      hfew _ (if_pos hover)).imp ?_))
    rintro ns v' ns' w' ⟨hns, h'⟩
    exact ⟨.refl _, Notice.same_of_unlogged hns, .mono ⟨h'⟩ hle⟩
  | setCapacity bytes =>
    refine Mutation.alike_map ((h.setCapacity bytes hok).imp ?_)
    rintro x c y d ⟨hx, hns, hcd⟩
    rw [hx]
    exact ⟨.refl _, Notice.same_of_unlogged hns, hcd.mono hle⟩
  | setThreshold t =>
    refine Mutation.alike_map ((h.setThreshold t).imp ?_)
    rintro x c y d ⟨hx, hns, hcd⟩
    rw [hx]
    exact ⟨.refl _, Notice.same_of_unlogged hns, hcd.mono hle⟩
  | enable | disable | reset =>
    exact ⟨.refl _, Notice.same_of_unlogged rfl, hpaired.editLedger rfl rfl⟩
  | report =>
    refine ⟨?_, Notice.same_of_unlogged rfl, hpaired⟩
    have hreport : (Cache.sharded w).report =
        { (Cache.linked v).report with layout := .sharded } := by
      rw [Cache.report, hpaired.same.ledger]
      rfl
    rw [hreport]
    exact .report _ _ _ _
  | list =>
    refine ⟨.entries ?_, Notice.same_of_unlogged rfl, hpaired⟩
    rw [hsight h]
    exact h.perm.map _

end Twins

/-! ### Histories -/

namespace Cache

variable {limit : Nat} {c d : Cache} {m : Moment} {q : Request Owner Identity}
  {hs : List (Moment × Request Owner Identity)}

/-- A request comes to the same for twins, and they stay twins. -/
theorem Paired.settle (h : Paired limit c d) (hnow : limit ≤ m.now) (hq : q.isBatch = false)
    (hok : c.Comparable m q) :
    (q.settle m).Alike (q.settle m) c d fun x c' y d' =>
      x.Same q y ∧ Paired (m.now + 1) c' d' := by
  obtain ⟨h⟩ := h
  refine Mutation.alike_bind ((h.perform hnow hq hok).imp ?_)
  rintro ⟨reply, ns⟩ c ⟨reply', ns'⟩ d ⟨hreply, hns, hcd⟩
  have h' := hcd.countAll (Notice.counted ns)
  have henabled : (d.countAll (Notice.counted ns)).ledger.counters.enabled =
      (c.countAll (Notice.counted ns)).ledger.counters.enabled := by
    rw [h'.same.ledger]
    rfl
  rw [Mutation.alike_modify_left, Mutation.alike_modify_right, Mutation.alike_get_left,
    Mutation.alike_get_right, hns.counted, henabled]
  refine Mutation.alike_pure.2 ⟨⟨hreply, hns.victims, ?_, fun hmany => ?_⟩, h'⟩
  · dsimp only
    split
    · exact hns.perm
    · exact .refl _
  · rw [hns.told hmany]

/-- By induction on the requests, twins agree on all of them. -/
theorem Paired.agree (h : Paired limit c d) (hnow : ∀ p ∈ hs, limit ≤ p.1.now)
    (hclock : (hs.map (·.1.now)).Pairwise (· < ·)) (hsingle : ∀ p ∈ hs, p.2.isBatch = false)
    (hok : Mutation.Along (fun p c => c.Comparable p.1 p.2) (fun p => p.2.settle p.1) hs c) :
    c.Agree hs d := by
  induction hs generalizing limit c d with
  | nil => exact h.same
  | cons p hs ih =>
    obtain ⟨hlater, hclock⟩ := List.pairwise_cons.1 hclock
    refine ⟨h.same, ((h.settle (hnow p List.mem_cons_self) (hsingle p List.mem_cons_self)
      hok.1).and_result.imp ?_)⟩
    rintro x c' y d' ⟨⟨hx, h'⟩, hr, -⟩
    refine ⟨hx, ih h' (fun p' hp' => hlater _ (List.mem_map_of_mem hp')) hclock
      (fun p' hp' => hsingle p' (List.mem_cons_of_mem p hp')) (hok.2 x c' hr)⟩

/-- Caches of both layouts that have just been built are twins. -/
theorem paired_of_build {s : Settings} {n : UInt64} {observers : Nat}
    (hc : build { s with layout := .linked } observers = .ok c)
    (hd : build { s with layout := .sharded, shards := n, trackRecency := true } observers = .ok d)
    (hsingle : d.shardCount? = some 1) : Paired 0 c d := by
  obtain ⟨-, -, hnone, hempty⟩ := fresh_of_build hc
  obtain ⟨-, -, hnone', -⟩ := fresh_of_build hd
  have hleft := (start_of_build hc).1
  have hright := (start_of_build hd).1
  obtain ⟨-, rfl⟩ := eq_new_of_build hc
  obtain ⟨-, rfl⟩ := eq_new_of_build hd
  have hnil : (Linked.new { s with layout := .linked } observers).entries = [] := hempty
  refine ⟨⟨hleft, hright, ⟨rfl, ?_, ?_, ?_, ?_⟩, Option.some.inj hsingle, hnone'.trans hnone.symm,
    rfl, rfl⟩⟩ <;> rw [hnil]
  · exact nofun
  · exact nofun
  · exact .nil
  · exact nofun

theorem Reaches.countAll {ok : Moment → Cache → Request Owner Identity → Prop} (h : Reaches ok c)
    (xs : List Happening) : Reaches ok (c.countAll xs) := by
  induction xs generalizing c with
  | nil => exact h
  | cons x xs ih => exact ih (.counted x h)

/-- With room for what it caches, a request is settled. -/
theorem Reaches.settle (h : Reaches HasRoom c) (hroom : c.HasRoom m q) :
    (q.settle m).Meets c True fun _ c' => Reaches HasRoom c' := by
  obtain ⟨x, c', hx, -⟩ := h.answers hroom
  refine Mutation.meets_bind.2 (Mutation.meets_of_result hx ?_)
  exact .countAll (.performed h hroom hx) _

theorem Reaches.settled (h : Reaches HasRoom c) (hroom : c.HasRoom m q) :
    Reaches HasRoom ((q.settle m).result c).2 := by
  obtain ⟨x, c', hx, h'⟩ := (h.settle hroom).exists_ok trivial
  rw [hx]
  exact h'

/-- With room for whatever is cached, all requests are settled. -/
theorem Reaches.settle_all (h : Reaches HasRoom c)
    (hroom : Mutation.Along (fun p c => c.HasRoom p.1 p.2) (fun p => p.2.settle p.1) hs c) :
    ∃ xs c', (hs.mapM fun p => p.2.settle p.1 : Mutation Cache (List Upshot)).result c =
      (.ok xs, c') := by
  let Left (hs : List (Moment × Request Owner Identity)) (c : Cache) : Prop :=
    Reaches HasRoom c ∧
      Mutation.Along (fun p c => c.HasRoom p.1 p.2) (fun p => p.2.settle p.1) hs c
  have hstep : ∀ p hs c, Left (p :: hs) c → (p.2.settle p.1).Meets c True fun _ c' =>
      True ∧ Left hs c' := fun p hs c hc =>
    (hc.1.settle hc.2.1).and_result.imp fun x c' hx => ⟨trivial, hx.1, hc.2.2 x c' hx.2⟩
  obtain ⟨xs, c', hx, -⟩ := (Mutation.meets_mapM Left hstep hs c ⟨h, hroom⟩).exists_ok trivial
  exact ⟨xs, c', hx⟩

end Cache

/-- Take a linked cache and a sharded one with a single shard that keeps track of recency, with the
same settings otherwise. Whatever they are asked, one tile or one image at a time, if the clock
moves on with every request, all owners exist and passes start with eight entries at most, they
agree all along: on the answers, the victims and their order, what observers are told, what is
cached, and all sums and counters. While there is room for what is cached, no request fails. -/
theorem layouts_evict_alike {s : Settings} {n : UInt64} {observers : Nat} {c d : Cache}
    (hc : Cache.build { s with layout := .linked } observers = .ok c)
    (hd : Cache.build { s with layout := .sharded, shards := n, trackRecency := true } observers =
      .ok d)
    (hsingle : d.shardCount? = some 1) (hs : List (Moment × Request Owner Identity))
    (hbatch : ∀ p ∈ hs, p.2.isBatch = false) (hclock : (hs.map (·.1.now)).Pairwise (· < ·))
    (hok : Mutation.Along (fun p c => c.Comparable p.1 p.2) (fun p => p.2.settle p.1) hs c) :
    c.Agree hs d ∧
    (Mutation.Along (fun p c => c.HasRoom p.1 p.2) (fun p => p.2.settle p.1) hs c →
      ∃ xs c', (hs.mapM fun p => p.2.settle p.1 : Mutation Cache (List Upshot)).result c =
        (.ok xs, c')) :=
  ⟨(Cache.paired_of_build hc hd hsingle).agree (fun _ _ => Nat.zero_le _) hclock hbatch hok,
    (Cache.Reaches.built hc).settle_all⟩

/-- Three tiles are cached and the first one is looked up. The fourth one sets off a pass, which
takes the second and the third. -/
theorem layouts_evict_alike_looked_up :
    let s : Settings := { capacity := 1100, diagnostics := true }
    let c := Cache.new { s with layout := .linked } 1
    let d := Cache.new { s with layout := .sharded, shards := 64, trackRecency := true } 1
    let asked (now : Nat) (q : Request Owner Identity) : Moment × Request Owner Identity :=
      (⟨now, fun _ => true⟩, q)
    let add (x : Int32) : Request Owner Identity :=
      .add ⟨0, .hashed 1⟩ { Position.origin with x := x } ⟨⟨8, 100, 1⟩, 0⟩ none
    let hs := [asked 1 (add 0), asked 2 (add 1), asked 3 (add 2),
      asked 4 (.get (.hashed 1) .origin), asked 5 (add 3), asked 6 (.removeImage (.hashed 1))]
    let settled (c : Cache) :=
      ((hs.mapM fun p => p.2.settle p.1 : Mutation Cache (List Upshot)).result c).1.toOption
    Cache.build { s with layout := .linked } 1 = .ok c ∧
    Cache.build { s with layout := .sharded, shards := 64, trackRecency := true } 1 = .ok d ∧
    d.shardCount? = some 1 ∧ c.Agree hs d ∧
    (settled c).map (·.map (·.victims.map (·.seq))) = some [[], [], [], [], [1, 2], []] ∧
    (settled d).map (·.map (·.victims.map (·.seq))) = some [[], [], [], [], [1, 2], []] := by
  intro s c d asked add hs settled
  have hc : Cache.build { s with layout := .linked } 1 = .ok c := rfl
  have hd : Cache.build { s with layout := .sharded, shards := 64, trackRecency := true } 1 =
      .ok d := rfl
  have hsingle : d.shardCount? = some 1 := by decide +kernel
  have hagree : c.Agree hs d := by
    refine (layouts_evict_alike hc hd hsingle hs ?_ ?_ ?_).1
    · decide
    · decide
    · decide +kernel
  refine ⟨hc, hd, hsingle, ?_, by decide +kernel, by decide +kernel⟩
  with_reducible exact hagree

end TileStore
