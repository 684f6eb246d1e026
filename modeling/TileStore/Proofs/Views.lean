import TileStore.Proofs.Linked.Order
import TileStore.Proofs.Run

/-!
# The views of a linked cache agree at every instant

A linked store keeps its entries in a table by key, a recency list, a schedule of turns and a catalogue
by image, which every operation updates one after the other. `LinkedStore.Agreeing` says that they
describe the same entries, and `views_agree` that they do at every instant of every run, whatever
observers call back with. It also says what the list is in terms of the run: the entries that are left,
in the order in which they were last written or looked up.
-/

namespace TileStore

/-- The four views describe the same entries, each in one slot. The turns are those of the entries,
and the recency list is in the order of the ticks. -/
structure LinkedStore.Agreeing (s : LinkedStore) : Prop where
  /-- The recency list shows the slots that are occupied, -/
  listed : ∀ i r, (i, r) ∈ s.recency.toList ↔ s.recency.get? i = some r
  /-- each of them once. -/
  nodup : (s.recency.toList.map (·.1)).Nodup
  /-- A key leads to the slot of its entry. -/
  slots : ∀ k i, s.slots[k]? = some i ↔ ∃ r, s.recency.get? i = some r ∧ r.entry.key = k
  /-- A turn leads to the slot of its resident. -/
  schedule : ∀ t i, s.schedule[t]? = some i ↔ ∃ r, s.recency.get? i = some r ∧ r.turn = t
  cost : ∀ i r, s.recency.get? i = some r → r.turn.cost = (r.entry.cost.getD .zero).bits
  tick_le : ∀ i r, s.recency.get? i = some r → r.turn.tick ≤ s.tick
  /-- No two ticks are equal, and the least recently used entry has the least. -/
  increasing : (s.recency.toList.map (·.2.turn.tick)).Pairwise (· < ·)
  catalogued : ∀ image k, s.catalogue.contains image k ↔
    ∃ i r, s.recency.get? i = some r ∧ r.entry.image = image ∧ r.entry.key = k
  /-- No image is listed without keys. -/
  not_isEmpty : ∀ (image : ImageKey) (keys : KeySet),
    s.catalogue.images[image]? = some keys → keys.isEmpty = false

theorem LinkedStore.Valid.agreeing {s : LinkedStore} (h : s.Valid) : s.Agreeing where
  listed i r := h.linked.mem_toList
  nodup := (List.pairwise_map.1 h.ordered).imp_of_mem (fun {p q} hp hq hlt he => by
    obtain ⟨i, r⟩ := p
    obtain ⟨j, r'⟩ := q
    obtain rfl : i = j := he
    have hsame := (h.linked.mem_toList.1 hp).symm.trans (h.linked.mem_toList.1 hq)
    rw [Option.some.inj hsame] at hlt
    exact absurd hlt (Nat.lt_irrefl _)) |> List.pairwise_map.2
  slots := h.slots
  schedule := h.schedule
  cost i r hi := by
    rw [(h.turn i r hi).1]
    rfl
  tick_le i r hi := (h.turn i r hi).2
  increasing := h.ordered
  catalogued image k := by
    rw [h.indexed.contains_iff]
    constructor
    · rintro ⟨e, he, himage⟩
      obtain ⟨i, r, hi, rfl, hkey⟩ := h.get?_eq_some_iff.1 he
      exact ⟨i, r, hi, himage, hkey⟩
    · rintro ⟨i, r, hi, himage, rfl⟩
      exact ⟨r.entry, h.get?_key hi, himage⟩
  not_isEmpty image keys hkeys := h.indexed.not_isEmpty hkeys

/-! ### Histories -/

/-- The entries that are used by what is asked at an instant. -/
def Instant.uses (i : Instant) : List Entry := i.asked.elim [] i.session.cache.uses

/-- After these instants a linked cache is consistent, and its entries are in the order of their last
use. -/
structure Cache.InOrder (past : List Instant) (c : Cache) : Prop where
  consistent : c.Consistent .linked
  order : c.entries.Sublist (past.flatMap Instant.uses).dedup

/-- A linked cache stays in order all along. -/
theorem trail_inOrder : Trail Cache.InOrder where
  counted {past c} a h := by
    refine ⟨h.consistent.count a, ?_⟩
    have hentries : (c.count a).entries = c.entries := by cases c <;> rfl
    rw [hentries]
    exact h.order
  heeded {past s asked notices c'} h hheeds := by
    refine ⟨h.consistent.heeded hheeds, ?_⟩
    rw [List.flatMap_append, List.flatMap_singleton]
    rcases asked with _ | q
    · rw [hheeds.2]
      simpa [Instant.uses] using h.order
    · obtain ⟨reply, hr⟩ := hheeds
      obtain ⟨scene, c⟩ := s
      obtain ⟨⟨hsound, hlayout, -⟩, horder⟩ := h
      cases c with
      | sharded v => cases hlayout
      | linked v =>
        exact ((Cache.uses_meets q hsound).of_ok hr).trans (foldl_usedLast_sublist_dedup horder _)

theorem Cache.InOrder.views {past : List Instant} {c : Cache} (h : c.InOrder past) :
    ∃ v, c = .linked v ∧ v.store.Agreeing ∧
      v.store.entries.Sublist (past.flatMap Instant.uses).dedup := by
  obtain ⟨⟨hsound, hlayout, -⟩, horder⟩ := h
  cases c with
  | sharded v => cases hlayout
  | linked v => exact ⟨v, rfl, (Vault.Sound.valid hsound).agreeing, horder⟩

/-- In every run of a linked cache that was built, whatever the scene, the observers and the commands,
the views agree at every instant and at the end, and what observers see are these instants. The list
of entries is in the order of the last use of each. -/
theorem views_agree {ρ : Type} {s : Settings} {observers : Nat} {c : Cache}
    (hb : Cache.build s observers = .ok c) (hs : s.layout = .linked) (scene : Scene)
    (audience : Audience ρ) (allowance depth : Nat) (cs : Script) :
    let r : Run ρ := { session := ⟨scene, c⟩, allowance := allowance }
    let r' := Run.carryOut audience depth cs r
    let is := Run.met audience depth cs r
    (∀ before i after, is = before ++ i :: after → ∃ v, i.session.cache = .linked v ∧
      v.store.Agreeing ∧ v.store.entries.Sublist (before.flatMap Instant.uses).dedup) ∧
    (r'.fault = none → ∃ v, r'.session.cache = .linked v ∧
      v.store.Agreeing ∧ v.store.entries.Sublist (is.flatMap Instant.uses).dedup) ∧
    ∀ w, Remark.visit w ∈ r'.journal → ∃ i ∈ is, w.view = audience.view i.session w.entry := by
  intro r r' is
  have hfollows : Run.Follows audience Cache.InOrder (fun _ => False) [] r is r' := by
    refine Run.follows_carryOut trail_inOrder (fun _ _ => id) (fun _ _ _ => False.elim)
      depth [] cs r fun _ => ⟨hs ▸ Cache.consistent_of_build hb, ?_⟩
    rw [show c.entries = [] from (Cache.fresh_of_build hb).2.2.2]
    exact List.nil_sublist _
  refine ⟨fun before i after hsplit => ?_, fun hf => (hfollows.on hf).views, fun w hw => ?_⟩
  · have hthroughout := hfollows.throughout
    rw [hsplit] at hthroughout
    exact hthroughout.before.views
  · exact (hfollows.seen w hw).resolve_left (Array.not_mem_empty _)

/-- Two tiles are cached and the first one is looked up, which moves it to the end of the list. An
observer that hears of the second one looks it up meanwhile. -/
theorem views_agree_looked_up :
    let s : Settings := { layout := .linked, diagnostics := true }
    let scene : Scene := { owners := ({} : Std.TreeMap String Owner).insert "a" ⟨0, .hashed 1⟩ }
    let audience : Audience (List Nat) := {
      view s _ := s.cache.entries.map (·.seq)
      react journal _ :=
        if journal.size = 1 then
          some [.request (.get (.given (.hashed 1)) { Position.origin with x := 1 })] else none }
    let cs : Script := [.request (.add "a" .origin ⟨⟨8, 100, 1⟩, 0⟩ none),
      .request (.add "a" { Position.origin with x := 1 } ⟨⟨8, 100, 1⟩, 0⟩ none),
      .request (.get (.given (.hashed 1)) .origin)]
    let r : Run (List Nat) := { session := ⟨scene, Cache.new s 1⟩, allowance := 1 }
    let r' := Run.carryOut audience 1 cs r
    let is := Run.met audience 1 cs r
    Cache.build s 1 = .ok (Cache.new s 1) ∧ r'.fault = none ∧ is.length = 10 ∧
      (is.flatMap Instant.uses).map (·.seq) = [0, 1, 1, 0] ∧
      r'.session.cache.entries.map (·.seq) = [1, 0] ∧
      ∃ v, r'.session.cache = .linked v ∧ v.store.Agreeing ∧
        v.store.entries.Sublist (is.flatMap Instant.uses).dedup := by
  intro s scene audience cs r r' is
  have hbuild : Cache.build s 1 = .ok (Cache.new s 1) := rfl
  have hfault : r'.fault = none := Option.isNone_iff_eq_none.1 (by decide +kernel)
  obtain ⟨-, hend, -⟩ := views_agree hbuild rfl scene audience 1 1 cs
  have hviews := hend hfault
  refine ⟨hbuild, hfault, by decide +kernel, by decide +kernel, by decide +kernel, ?_⟩
  with_reducible exact hviews

end TileStore
