import TileStore.Proofs.Linked.Lockstep

/-!
# Linked caches do not go by the clock

A linked cache notes in its register when each entry was last used, but does not read it when it looks
for victims: it goes by turns, which count uses. So two caches that are the same but for their registers
do the same, at moments that are the same but for the clock. `Unclocked` says so of each computation,
and `Untimed.victimsOf` of any number of requests one after the other: whatever the clock says, they
evict the same.
-/

namespace TileStore

open Mutation

/-- The same ledger, the same store and any register. -/
def clockless : Kinship where
  offset := 0
  ledger l l' := l' = l
  register _ _ := True
  store s s' := s' = s

theorem map_later_zero (es : List Entry) : es.map (Entry.later 0) = es := List.map_id' es

theorem map_later_zero? (found : Option Entry) : found.map (Entry.later 0) = found := by
  cases found <;> rfl

theorem clockless_ledger : Ledger.InStep 0 clockless.ledger where
  capacity h := congrArg Ledger.capacity h
  threshold h := congrArg Ledger.threshold h
  overhead h := congrArg Ledger.overhead h
  memoryUsed h := congrArg Ledger.memoryUsed h
  nextSeq h := congrArg Ledger.nextSeq h
  make h := by
    obtain rfl := h
    rfl
  account came went := by
    rintro _ l rfl
    exact alike_self _ l
  count x h := congrArg (fun l : Ledger => l.count x) h
  switch on h := by
    obtain rfl := h
    rfl
  withCapacity bytes h := by
    obtain rfl := h
    rfl
  withThreshold t h := by
    obtain rfl := h
    rfl

theorem clockless_store : LinkedStore.InStep 0 clockless.store where
  slots h := congrArg LinkedStore.slots h
  catalogue h := congrArg LinkedStore.catalogue h
  sweepWindow budget h := congrArg (·.sweepWindow budget) h
  entryAt? slot h := (congrArg (·.entryAt? slot) h).trans (map_later_zero? _).symm
  entries h := (congrArg LinkedStore.entries h).trans (map_later_zero _).symm
  schedule h := congrArg (·.schedule.toList.map (·.2)) h
  insert e := by
    rintro _ s rfl
    exact (alike_self _ s).imp fun found _ _ _ h => ⟨h.1.trans (map_later_zero? found).symm, h.2⟩
  use key := by
    rintro _ s rfl
    exact (alike_self _ s).imp fun found _ _ _ h => ⟨h.1.trans (map_later_zero? found).symm, h.2⟩
  removeSlot slot := by
    rintro _ s rfl
    exact alike_self _ s
  moveSweep slot h := by
    obtain rfl := h
    rfl
  clear h := congrArg LinkedStore.clear h

theorem clockless_inStep {m m' : Moment} (halive : m'.alive = m.alive) : clockless.InStep m m' where
  alive := halive
  ledger := clockless_ledger
  register := ⟨fun _ => trivial, fun _ _ => trivial, fun _ _ _ => trivial⟩
  store := clockless_store

namespace Linked

variable {m m' : Moment} {α : Type}

/-- The caches are the same but for their registers. -/
def Untimed (v w : Linked) : Prop := w.ledger = v.ledger ∧ w.store = v.store

/-- From caches that are the same but for their registers, the mutations come to the same and leave such
caches. -/
def Unclocked (f g : Mutation Linked α) : Prop :=
  ∀ v w, Untimed v w → f.Alike g v w fun a v' b w' => b = a ∧ Untimed v' w'

theorem unclocked_of_tracks {φ : α → α} {f g : Mutation Linked α}
    (h : Tracks clockless.Relates φ f g) (hφ : ∀ a, φ a = a) : Unclocked f g := by
  rintro v w ⟨hledger, hstore⟩
  refine (h v w ⟨hledger, trivial, hstore⟩).imp ?_
  rintro a v' _ w' ⟨rfl, hvw'⟩
  exact ⟨hφ a, hvw'.ledger, hvw'.store⟩

/-- A pass reads of the moment which owners exist, and no more. -/
theorem unclocked_evict (halive : m'.alive = m.alive) (protect : Option TileKey) :
    Unclocked (evict m protect) (evict m' protect) :=
  unclocked_of_tracks ((clockless_inStep halive).evict protect) fun pass =>
    congrArg (Vault.Pass.mk · pass.log) (map_later_zero pass.victims)

theorem unclocked_write (halive : m'.alive = m.alive) (e : Entry) :
    Unclocked (write m e) (write m' e) :=
  unclocked_of_tracks ((clockless_inStep halive).write e) fun w =>
    congrArg (fun victims => Written.mk w.entry w.replaced ⟨victims, w.pass.log⟩)
      (map_later_zero w.pass.victims)

end Linked

namespace Cache

variable {m m' : Moment} {c d : Cache}

/-- Linked caches that are the same but for their registers. -/
inductive Untimed : Cache → Cache → Prop where
  | of {v w : Linked} : v.Untimed w → Untimed (linked v) (linked w)

/-- Whatever the clock says, a request announces the same. Its answer may show when entries were last
used. -/
theorem Untimed.perform (h : Untimed c d) (halive : m'.alive = m.alive)
    (q : Request Owner Identity) :
    (q.perform m).Alike (q.perform m') c d fun x c' y d' => y.2 = x.2 ∧ Untimed c' d' := by
  obtain @⟨v, w, hvw⟩ := h
  by_cases hq : q = .reset
  · subst hq
    exact ⟨rfl, ⟨congrArg (fun l : Ledger => { l with counters := l.counters.reset }) hvw.1, hvw.2⟩⟩
  · refine ((clockless_inStep halive).perform q hq ⟨hvw.1, trivial, hvw.2⟩).imp ?_
    rintro x _ y _ ⟨@⟨v', w', hrelates⟩, hnotices, -⟩
    refine ⟨?_, ⟨hrelates.ledger, hrelates.store⟩⟩
    rw [hnotices]
    refine (List.map_congr_left fun n _ => ?_).trans (List.map_id x.2)
    cases n <;> rfl

/-! ### Histories -/

/-- The victims of requests one after the other, each at its moment. -/
def victimsOf (hs : List (Moment × Request Owner Identity)) : Mutation Cache (List (List Entry)) :=
  hs.mapM fun p => (Notice.victims ·.2) <$> p.2.perform p.1

/-- The same requests at moments that are the same but for the clock. -/
def Reclocked : List (Moment × Request Owner Identity) →
    List (Moment × Request Owner Identity) → Prop :=
  List.Forall₂ fun p p' => p'.1.alive = p.1.alive ∧ p'.2 = p.2

/-- Whatever the clock says, the same is evicted. -/
theorem Untimed.victimsOf {hs hs' : List (Moment × Request Owner Identity)} (h : Untimed c d)
    (hhs : Reclocked hs hs') :
    (victimsOf hs).Alike (victimsOf hs') c d fun xs c' ys d' => ys = xs ∧ Untimed c' d' := by
  unfold Cache.victimsOf
  induction hhs generalizing c d with
  | nil => exact ⟨rfl, h⟩
  | @cons p p' hs hs' hp _ ih =>
    obtain ⟨halive, hq⟩ := hp
    rw [List.mapM_cons, List.mapM_cons, hq]
    refine alike_bind (alike_map ((h.perform halive p.2).imp ?_))
    rintro x c' y d' ⟨hnotices, hcd⟩
    refine alike_bind ((ih hcd).imp ?_)
    rintro xs c₂ _ d₂ ⟨rfl, hcd₂⟩
    exact ⟨by rw [hnotices], hcd₂⟩

end Cache

end TileStore
