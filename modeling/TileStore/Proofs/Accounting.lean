import TileStore.Proofs.Refinement
import TileStore.Proofs.Run
import Mathlib.Data.Nat.ModEq

/-!
# The ledger is right at every instant

Whatever is asked of a cache, by whom and however deep observers call back into it, its ledger charges
exactly the entries it holds: `accounting`. The sums are words, so they may have wrapped. If there
always was room for what was cached they have not, and then no fault can end the run.
-/

namespace TileStore

namespace Cache

variable {c : Cache} {ok : Moment → Cache → Request Owner Identity → Prop}

/-- The ledger counts the entries and their bytes, as far as words can. -/
structure Tallies (c : Cache) : Prop where
  tileCount : c.ledger.tileCount.toNat ≡ c.entries.length [MOD 2 ^ 64]
  tileCount_eq : c.entries.length < 2 ^ 64 → c.ledger.tileCount.toNat = c.entries.length
  memoryUsed : c.ledger.memoryUsed.toNat ≡ total c.entries [MOD 2 ^ 64]

/-- The ledger counts the entries and their bytes. -/
structure TalliesExactly (c : Cache) : Prop where
  tileCount : c.ledger.tileCount.toNat = c.entries.length
  memoryUsed : c.ledger.memoryUsed.toNat = total c.entries

theorem Sound.tallies (h : c.Sound) : c.Tallies := by
  have hb := h.balanced
  refine ⟨?_, hb.tileCount_toNat, ?_⟩
  · rw [hb.tileCount, UInt64.toNat_ofNat']
    exact Nat.mod_modEq _ _
  · rw [hb.memoryUsed, UInt64.toNat_ofNat']
    exact Nat.mod_modEq _ _

theorem Sound.talliesExactly (h : c.Sound) (hx : c.Exact) : c.TalliesExactly :=
  ⟨h.balanced.tileCount_toNat hx.fits.length_lt, h.balanced.memoryUsed_toNat hx.fits⟩

end Cache

/-- In every run of a cache that was built, whatever the scene, the observers and the commands, the
ledger tallies at every instant and at the end, and what observers see are these instants. If there is
room for whatever is cached the sums are exact, and no fault ends the run. -/
theorem accounting {ρ : Type} {s : Settings} {observers : Nat} {c : Cache}
    (hb : Cache.build s observers = .ok c) (scene : Scene) (audience : Audience ρ)
    (allowance depth : Nat) (cs : Script) :
    let r : Run ρ := { session := ⟨scene, c⟩, allowance := allowance }
    let r' := Run.carryOut audience depth cs r
    let is := Run.met audience depth cs r
    (∀ i ∈ is, i.session.cache.Tallies) ∧
    (r'.fault = none → r'.session.cache.Tallies) ∧
    (∀ v, Remark.visit v ∈ r'.journal → ∃ i ∈ is, v.view = audience.view i.session v.entry) ∧
    ((∀ i ∈ is, ∀ q, i.asked = some q → i.session.cache.HasRoom i.session.scene.moment q) →
      r'.fault = none ∧ (∀ i ∈ is, i.session.cache.TalliesExactly) ∧
      r'.session.cache.TalliesExactly) := by
  intro r r' is
  have hany : Run.Goes audience (fun _ _ _ => True) False r is r' :=
    Run.goes_carryOut False.elim depth cs r ⟨fun _ => .built hb, False.elim⟩ fun _ _ _ _ => trivial
  refine ⟨fun i hi => (hany.reaches i hi).sound.tallies,
    fun hf => (hany.sound.reaches hf).sound.tallies, fun v hv => ?_, fun hroom => ?_⟩
  · exact (hany.seen v hv).resolve_left (Array.not_mem_empty _)
  · have hexact : Run.Goes audience Cache.HasRoom True r is r' :=
      Run.goes_carryOut (fun _ m c q hc hq => (hc.answers hq).imp fun x ⟨c', hx, _⟩ => ⟨c', hx⟩)
        depth cs r ⟨fun _ => .built hb, fun _ => rfl⟩ hroom
    have htallies : ∀ {c}, Cache.Reaches Cache.HasRoom c → c.TalliesExactly := fun hc =>
      hc.sound.talliesExactly hc.exact
    have hfault := hexact.sound.unharmed trivial
    exact ⟨hfault, fun i hi => htallies (hexact.reaches i hi), htallies (hexact.sound.reaches hfault)⟩

/-- A tile is cached, and the observer that hears of it takes it out again. -/
theorem accounting_called_back :
    let s : Settings := { layout := .linked, diagnostics := true }
    let scene : Scene := { owners := ({} : Std.TreeMap String Owner).insert "a" ⟨0, .hashed 1⟩ }
    let audience : Audience UInt64 := {
      view s _ := s.cache.ledger.memoryUsed
      react _ _ := some [.request (.remove (.given (.hashed 1)) .origin)] }
    let cs : Script := [.request (.add "a" .origin ⟨⟨8, 100, 1⟩, 0⟩ none)]
    let r : Run UInt64 := { session := ⟨scene, Cache.new s 1⟩, allowance := 1 }
    Cache.build s 1 = .ok (Cache.new s 1) ∧ (Run.met audience 1 cs r).length = 6 ∧
      (Run.carryOut audience 1 cs r).fault = none ∧
      (Run.carryOut audience 1 cs r).session.cache.TalliesExactly := by
  intro s scene audience cs r
  have hbuild : Cache.build s 1 = .ok (Cache.new s 1) := rfl
  have hroom : ∀ i ∈ Run.met audience 1 cs r, ∀ q ∈ i.asked,
      i.session.cache.HasRoom i.session.scene.moment q := by decide +kernel
  obtain ⟨hfault, -, htallies⟩ := (accounting hbuild scene audience 1 1 cs).2.2.2 hroom
  refine ⟨hbuild, by decide +kernel, hfault, ?_⟩
  with_reducible exact htallies

end TileStore
