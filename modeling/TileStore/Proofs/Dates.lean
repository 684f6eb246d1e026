import TileStore.Proofs.Linked.Marks
import TileStore.Proofs.Sharded.Marks
import TileStore.Proofs.Starts

/-!
# When entries were last used

Of the entries that a request uses, the register has the time of the request afterwards, and of all
others the time that it had before: `Cache.perform_dates`. A sharded cache that keeps no track of
recency does so for the entries that it makes only. The register has a status for every entry that was
made, `Reaches.size_register`, so none of this goes astray.
-/

namespace TileStore

open Vault

variable {m : Moment} {q : Request Owner Identity}

namespace Cache

variable {c : Cache}

/-- The register. -/
def register : Cache → Register
  | linked v => v.register
  | sharded v => v.register

/-- The cache notes when it finds something. -/
def notesLookups : Cache → Bool
  | linked _ => true
  | sharded v => v.ledger.trackRecency

/-- The entries of which a request notes that they were used. -/
def noted (c : Cache) (q : Request Owner Identity) : List Entry :=
  if c.notesLookups then c.uses q else q.made c.ledger

/-- What looks nothing up notes what it makes. -/
theorem noted_eq_made (h : c.uses q = q.made c.ledger) : c.noted q = q.made c.ledger := by
  rw [noted, h, ite_self]

theorem relieve_dates (now : Nat) (c : Cache) :
    (relieve m).Meets c False fun _ c' => Register.Dates now 0 [] c.register c'.register := by
  cases c with
  | linked v =>
    refine meets_byLayout_linked.2 (Mutation.meets_bind.2 ((Linked.evict_marks m none v).imp ?_))
    exact fun pass v' hmarks => Register.dates_of_markAll now hmarks
  | sharded v =>
    refine meets_byLayout_sharded.2 (Mutation.meets_bind.2 ((Sharded.evict_marks m none v).imp ?_))
    exact fun pass v' hmarks => Register.dates_of_markAll now hmarks

@[simp] theorem register_editLedger (c : Cache) (f : Ledger → Ledger) :
    (c.editLedger f).register = c.register := by cases c <;> rfl

theorem setCapacity_dates (now : Nat) (bytes : UInt64) (c : Cache) :
    (setCapacity m bytes).Meets c False fun _ c' =>
      Register.Dates now 0 [] c.register c'.register := by
  unfold setCapacity
  rw [Mutation.meets_bind, Mutation.meets_get]
  cases c.ledger.setCapacity bytes with
  | error r => exact .refl _ _
  | ok l =>
    have hregister : (c.editLedger fun _ => l).register = c.register := register_editLedger c _
    rw [Mutation.meets_bind, Mutation.meets_set]
    dsimp only
    split
    · exact Mutation.meets_bind.2 (hregister ▸ relieve_dates now _)
    · exact Mutation.meets_pure.2 (hregister ▸ .refl _ _)

theorem setThreshold_dates (now : Nat) (t : Binary64) (c : Cache) :
    (setThreshold t).Meets c False fun _ c' =>
      Register.Dates now 0 [] c.register c'.register := by
  unfold setThreshold
  rw [Mutation.meets_bind, Mutation.meets_get]
  cases c.ledger.setThreshold t with
  | error r => exact .refl _ _
  | ok l =>
    have hregister : (c.editLedger fun _ => l).register = c.register := register_editLedger c _
    exact Mutation.meets_bind.2 (Mutation.meets_set.2 (hregister ▸ .refl _ _))

/-- What the look-ups of a request find is noted unless the cache has no use for it. -/
theorem seq_noted_getAll (c : Cache) (image : Identity) (points : List Position) :
    (c.noted (.getAll image points)).map (·.seq) =
      seqsFound c.notesLookups c.get? (points.map (TileKey.of image)) := by
  unfold noted seqsFound
  split
  · rw [List.filterMap_map]
    rfl
  · rfl

theorem seq_noted_get (c : Cache) (image : Identity) (p : Position) :
    (c.noted (.get image p)).map (·.seq) = seqsFound c.notesLookups c.get? [.of image p] := by
  unfold noted seqsFound uses
  split
  · cases h : c.get? (.of image p) <;> simp [h]
  · rfl

/-- A request uses what it uses at its own time. -/
theorem perform_dates (q : Request Owner Identity) (h : c.Sound)
    (hsize : c.register.size = c.ledger.nextSeq)
    (hlt : ∀ {k e}, c.get? k = some e → e.seq < c.register.size) :
    (q.perform m).Meets c False fun _ c' =>
      Register.Dates m.now (q.made c.ledger).length ((c.noted q).map (·.seq)) c.register
        c'.register := by
  cases q with
  | add owner p payload cost =>
    refine Mutation.meets_bind.2 ?_
    rw [noted_eq_made rfl, Request.seq_made, ← hsize]
    cases c with
    | linked v => exact meets_byLayout_linked.2 (Linked.add_dates m owner p payload cost v)
    | sharded v => exact meets_byLayout_sharded.2 (Sharded.add_dates m owner p payload cost v)
  | addBatch owner points payloads costs =>
    refine Mutation.meets_map.2 ?_
    rw [noted_eq_made rfl, Request.seq_made, ← hsize]
    obtain ⟨e, hrefused, hbatch⟩ | ⟨tiles, htiles, hbatch⟩ :=
      addBatch_eq m owner points payloads costs
    · rw [hbatch, hrefused.made_eq_nil]
      exact .refl _ _
    · rw [hbatch, Request.made_of_aligned htiles, length_madeFrom]
      refine Mutation.meets_map.2 ?_
      cases c with
      | linked v => exact meets_byLayout_linked.2 (Linked.addBatch_dates m owner tiles v)
      | sharded v => exact meets_byLayout_sharded.2 (Sharded.addBatch_dates m owner tiles v)
  | get image p =>
    refine Mutation.meets_bind.2 ?_
    rw [seq_noted_get]
    cases c with
    | linked v => exact meets_byLayout_linked.2 (Linked.get?_dates m _ h hlt)
    | sharded v => exact meets_byLayout_sharded.2 (Sharded.get?_dates m _ v hlt)
  | getAll image points =>
    refine Mutation.meets_bind.2 ?_
    rw [seq_noted_getAll]
    cases c with
    | linked v => exact meets_byLayout_linked.2 (Linked.getAll_dates m _ h hlt)
    | sharded v => exact meets_byLayout_sharded.2 (Sharded.getAll_dates m _ h hlt)
  | remove image p =>
    refine Mutation.meets_bind.2 ?_
    rw [noted_eq_made rfl]
    cases c with
    | linked v => exact meets_byLayout_linked.2 (Linked.remove_dates m.now _ v)
    | sharded v => exact meets_byLayout_sharded.2 (Sharded.remove_dates m.now _ _ v)
  | removeImage image =>
    refine Mutation.meets_bind.2 ?_
    rw [noted_eq_made rfl]
    cases c with
    | linked v => exact meets_byLayout_linked.2 (Linked.removeImage_dates m.now image h)
    | sharded v => exact meets_byLayout_sharded.2 (Sharded.removeImage_dates m.now image v)
  | flush =>
    refine Mutation.meets_bind.2 ?_
    rw [noted_eq_made rfl]
    cases c with
    | linked v => exact meets_byLayout_linked.2 (Linked.flush_dates m.now v)
    | sharded v => exact meets_byLayout_sharded.2 (Sharded.flush_dates m.now v)
  | relieve =>
    rw [noted_eq_made rfl]
    exact Mutation.meets_bind.2 (relieve_dates m.now c)
  | setCapacity bytes =>
    rw [noted_eq_made rfl]
    exact Mutation.meets_map.2 (setCapacity_dates m.now bytes c)
  | setThreshold t =>
    rw [noted_eq_made rfl]
    exact Mutation.meets_map.2 (setThreshold_dates m.now t c)
  | enable | disable | reset =>
    rw [noted_eq_made rfl]
    exact register_editLedger c _ ▸ .refl _ _
  | tilesOf | contains | report | list =>
    rw [noted_eq_made rfl]
    exact .refl _ _

/-- To begin with no entry has a status. -/
theorem size_register_of_build {s : Settings} {observers : Nat}
    (hb : build s observers = .ok c) : c.register.size = 0 := by
  obtain ⟨-, rfl⟩ := eq_new_of_build hb
  unfold new
  cases s.layout <;> rfl

/-- The register has a status for each entry that was made. -/
theorem Reaches.size_register {ok : Moment → Cache → Request Owner Identity → Prop}
    (h : Reaches ok c) : c.register.size = c.ledger.nextSeq := by
  induction h with
  | built hb =>
    rw [size_register_of_build hb, (fresh_of_build hb).2.1]
    rfl
  | @performed c c' m r x hreach _ hx ih =>
    obtain ⟨layout, hconsistent⟩ := hreach.consistent
    have hdates := (perform_dates r hreach.sound ih fun hk => ih ▸ hconsistent.serial.lt hk).of_ok hx
    rw [hdates.size, ih, ((Request.perform_recorded m r hreach.sound).of_ok hx).nextSeq]
  | @counted c a _ ih =>
    rw [count, ledger_editLedger, register_editLedger]
    exact ih

end Cache

/-! ### Where passes start -/

/-- Where a request starts a pass, all that it makes has been made. -/
theorem Linked.Starts.dates {v w : Linked} {used : List Entry} (h : Linked.Starts m v q used w)
    (hsize : v.register.size = v.ledger.nextSeq) :
    Register.Dates m.now (q.made v.ledger).length ((q.made v.ledger).map (·.seq)) v.register
      w.register := by
  cases h with
  | relieve | setCapacity => exact .refl _ _
  | @add owner p payload cost e replaced v₁ w hmake hput =>
    have hnew : (newEntry m owner p payload cost).Meets v False _ := newEntry_dates ..
    have hmade := hnew.of_ok hmake
    rw [hsize] at hmade
    exact hmade.trans ((put_dates m.now e v₁).of_ok hput)
  | @addBatch owner points payloads costs tiles before after e ws replaced v₁ v₂ w htiles hmake
      hwrites hput =>
    have hnew : (tiles.mapM fun t => newEntry m owner t.1 t.2.1 t.2.2).Meets v False _ :=
      newEntries_dates ..
    have hmade := hnew.of_ok hmake
    rw [hsize] at hmade
    rw [Request.made_of_aligned htiles, seq_madeFrom, length_madeFrom]
    have hwritten := (hmade.trans ((writes_dates m before v₁).of_ok hwrites)).trans
      ((put_dates m.now e v₂).of_ok hput)
    rwa [List.append_nil, List.append_nil] at hwritten

theorem Sharded.Starts.dates {v w : Sharded} (h : Sharded.Starts m v q w)
    (hsize : v.register.size = v.ledger.nextSeq) :
    Register.Dates m.now (q.made v.ledger).length ((q.made v.ledger).map (·.seq)) v.register
      w.register := by
  cases h with
  | relieve | setCapacity => exact .refl _ _
  | @add owner p payload cost e replaced v₁ w hmake hwrite =>
    have hnew : (newEntry m owner p payload cost).Meets v False _ := newEntry_dates ..
    have hmade := hnew.of_ok hmake
    rw [hsize] at hmade
    exact hmade.trans ((write_dates m.now e v₁).of_ok hwrite)
  | @addBatch owner points payloads costs tiles es ws v₁ w htiles hmake hne hwrites =>
    have hnew : (tiles.mapM fun t => newEntry m owner t.1 t.2.1 t.2.2).Meets v False _ :=
      newEntries_dates ..
    have hmade := hnew.of_ok hmake
    rw [hsize] at hmade
    rw [Request.made_of_aligned htiles, seq_madeFrom, length_madeFrom]
    have hwritten := hmade.trans ((writes_dates m.now es v₁).of_ok hwrites)
    rwa [List.append_nil] at hwritten

end TileStore
