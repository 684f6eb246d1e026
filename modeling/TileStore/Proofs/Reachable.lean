import TileStore.Proofs.Cache
import TileStore.Proofs.ShardCount

/-!
# The caches that can come about

`Cache.Reaches` holds of a cache that was built and then asked anything that is allowed, at any
moments, while happenings are counted in between. What every request keeps, all of these caches have:
they are sound, and as long as there is room for whatever is cached, their sums are exact
(`Reaches.sound`, `Reaches.exact`), and every request does to their contents what `Contents.Serves`
says: `Reaches.answers`.
-/

namespace TileStore

variable {s : Settings} {observers : Nat}

namespace Cache

variable {c c' : Cache} {m : Moment} {r : Request Owner Identity} {x : Reply × List Notice}
  {ok ok' : Moment → Cache → Request Owner Identity → Prop}

/-- The caches that can come about while every request is `ok`. -/
inductive Reaches (ok : Moment → Cache → Request Owner Identity → Prop) : Cache → Prop where
  | built {s : Settings} {observers : Nat} {c : Cache} : build s observers = .ok c → Reaches ok c
  | performed {c c' : Cache} {m : Moment} {r : Request Owner Identity} {x : Reply × List Notice} :
    Reaches ok c → ok m c r → (r.perform m).result c = (.ok x, c') → Reaches ok c'
  | counted {c : Cache} (h : Happening) : Reaches ok c → Reaches ok (c.count h)

/-! ### The start -/

theorem eq_new_of_build (h : build s observers = .ok c) :
    s.overhead ≠ 0 ∧ c = new s observers := by
  unfold build at h
  rcases hs : s.validate with r | ⟨⟩
  · rw [hs] at h
    cases h
  · rw [hs] at h
    cases h
    exact ⟨(s.validate_eq_ok_iff.1 hs).2.2.2, rfl⟩

/-- A vault that starts with a store that holds nothing. -/
theorem start {σ : Type} [Shelved σ] {v : Vault σ} (hl : v.ledger = .new s observers)
    (hs : Shelved.Valid v.store) (hnone : v.tiles = fun _ => none) (ho : s.overhead ≠ 0) :
    v.Sound ∧ v.Exact ∧ v.contents = .empty := by
  have hnil : v.entries = [] := (hnone ▸ Shelved.shelf hs : Shelf _ _).eq_nil
  refine ⟨⟨hs, ?_⟩, ⟨?_, ?_⟩, ?_⟩
  · rw [hl, hnil]
    exact Ledger.new_balanced s observers
  · rw [hnil]
    exact .nil (by decide)
  · rw [hl]
    exact ho
  · rw [Vault.contents, hnone, hl]
    rfl

theorem start_of_build (h : build s observers = .ok c) :
    c.Sound ∧ c.Exact ∧ c.contents = .empty := by
  obtain ⟨ho, rfl⟩ := eq_new_of_build h
  unfold new
  cases s.layout with
  | linked =>
    exact start (v := Linked.new s observers) rfl (.empty 0 0) (LinkedStore.get?_clear {}) ho
  | sharded =>
    exact start (v := Sharded.new s observers) rfl
      (ShardedStore.Valid.new s.isPowerOfTwo_shardCount) (ShardedStore.get?_new _) ho

/-! ### Runs -/

theorem retuned_count (l : Ledger) (h : Happening) : l.Retuned (l.count h) := rfl

theorem contents_count (c : Cache) (h : Happening) : (c.count h).contents = c.contents :=
  contents_editLedger (f := (·.count h)) (retuned_count c.ledger h)

namespace Reaches

theorem mono (hok : ∀ m c r, ok m c r → ok' m c r) (h : Reaches ok c) : Reaches ok' c := by
  induction h with
  | built hb => exact .built hb
  | performed _ hr hx ih => exact .performed ih (hok _ _ _ hr) hx
  | counted a _ ih => exact .counted a ih

theorem sound (h : Reaches ok c) : c.Sound := by
  induction h with
  | built hb => exact (start_of_build hb).1
  | performed _ _ hx ih => exact ((Request.perform_meets _ _ ih).of_ok hx).sound
  | counted a _ ih => exact ih.editLedger (retuned_count _ a)

/-- If there was always room, the sums are exact. -/
theorem exact (h : Reaches HasRoom c) : c.Exact := by
  induction h with
  | built hb => exact (start_of_build hb).2.1
  | performed hc hr hx ih =>
    exact ((Request.perform_meets _ _ hc.sound).of_ok hx).exact ⟨ih, hr⟩
  | counted a _ ih => exact ih.editLedger (retuned_count _ a)

end Reaches

/-- With room for what it caches, a request is answered and serves. -/
theorem Reaches.answers (h : Reaches HasRoom c) (hr : c.HasRoom m r) :
    ∃ x c', (r.perform m).result c = (.ok x, c') ∧
      c.contents.Serves c.layout c.ledger (c'.sight m) r x.1 (Notice.victims x.2) c'.contents := by
  obtain ⟨x, c', hx, ha⟩ := (Request.perform_meets m r h.sound).exists_ok ⟨h.exact, hr⟩
  exact ⟨x, c', hx, ha.serves ⟨h.exact, hr⟩⟩

/-- With room for what it caches, a request leads to such a cache again. -/
theorem Reaches.next (h : Reaches HasRoom c) (hr : c.HasRoom m r) :
    Reaches HasRoom ((r.perform m).result c).2 := by
  obtain ⟨x, c', hx, -⟩ := h.answers hr
  rw [hx]
  exact .performed h hr hx

end Cache

end TileStore
