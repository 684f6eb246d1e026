import TileStore.Proofs.Lookups
import TileStore.Proofs.Refinement

/-!
# Replacing an entry

When an entry comes in place of another, the ledger charges what came before it gives back what went,
and takes it for an underflow if less is charged then than went. Words wrap, so in between it is not
enough that the sums before and after fit in a word: the sum of what was there and what came has to.
`Ledger.result_account_exchanged` says that this is exactly when the exchange is accepted. For a cache
that came about in any way that is `replacement_accounted`, and `replacement_refused` is a replacement
of a tile by one of the same size that is refused although neither sum is too large.
-/

namespace TileStore

/-! ### The ledger -/

/-- Where both sums fit in a word, an entry can be exchanged for another exactly if the sum of all of
them does. The ledger then charges the right sum, and does so even if it refuses. -/
theorem Ledger.result_account_exchanged {l : Ledger} {es : List Entry} (c w : Entry)
    (h : l.Balanced (w :: es)) (hbefore : total (w :: es) < 2 ^ 64)
    (hafter : total (c :: es) < 2 ^ 64) :
    (account (some c.size) (some w.size)).result l =
      (if total (w :: es) + c.size.toNat < 2 ^ 64 then .ok () else .error .memoryUnderflow,
        { l with memoryUsed := UInt64.ofNat (total (c :: es)) }) := by
  have hm := congrArg UInt64.toNat h.memoryUsed
  have hw := w.size.toNat_lt
  have hc := c.size.toNat_lt
  rw [UInt64.toNat_ofNat', Nat.mod_eq_of_lt hbefore] at hm
  rw [total_cons] at hbefore hafter hm
  have hused : (l.charge c.size).memoryUsed - w.size = UInt64.ofNat (total (c :: es)) := by
    refine UInt64.toNat_inj.1 ?_
    simp only [charge, UInt64.toNat_sub, UInt64.toNat_add, UInt64.toNat_ofNat', hm, total_cons]
    omega
  have hrefused : (l.charge c.size).memoryUsed < w.size ↔
      ¬total (w :: es) + c.size.toNat < 2 ^ 64 := by
    rw [UInt64.lt_iff_toNat_lt, charge, UInt64.toNat_add, hm, total_cons]
    omega
  rw [result_account_replaced, result_release, hused]
  by_cases hfits : total (w :: es) + c.size.toNat < 2 ^ 64
  · rw [if_pos hfits, if_neg fun hlt => hrefused.1 hlt hfits]
    rfl
  · rw [if_neg hfits, if_pos (hrefused.2 hfits)]
    rfl

/-! ### The store and the ledger -/

namespace Vault

variable {σ : Type} [Shelved σ] {v v' : Vault σ} {e old : Entry}

/-- What is charged in the end for an entry in place of another. -/
theorem Becomes.total_put (hv : v.Sound) (he : e.Proper) (hold : v.tiles e.key = some old)
    (h : v.Becomes (v.tiles.put e) v') :
    total v'.entries + old.size.toNat = total v.entries + e.size.toNat := by
  have hbefore := total_perm (hv.shelf.perm_split e.key)
  have hafter := total_perm (h.perm_put hv he)
  rw [hold, Option.toList_some, total_append, total_cons, total_nil] at hbefore
  rw [total_cons] at hafter
  omega

/-- Write an entry; the answer is whether it replaced another. -/
def exchange (insert : Mutation σ (Option Entry)) (e : Entry) : Mutation (Vault σ) Bool := do
  let replaced ← inStore insert
  if replaced.isSome then modify (·.mark e .updated)
  account (some e) replaced
  return replaced.isSome

/-- An entry is written in place of another. The store has changed even if the ledger refuses. -/
theorem result_exchange {insert : Mutation σ (Option Entry)} (hv : v.Sound) (he : e.Proper)
    (hold : v.tiles e.key = some old)
    (hinsert : insert.Meets v.store True fun found s =>
      Shelved.Valid s ∧ found = v.tiles e.key ∧ Shelved.get? s = v.tiles.put e)
    (hbefore : total v.entries < 2 ^ 64)
    (hafter : total v.entries + e.size.toNat < 2 ^ 64 + old.size.toNat) :
    ∃ v', (exchange insert e).result v =
        (if total v.entries + e.size.toNat < 2 ^ 64 then .ok true else .error .memoryUnderflow, v') ∧
      v.Becomes (v.tiles.put e) v' := by
  obtain ⟨found, s, hresult, hvalid, hfound, hput⟩ := hinsert.exists_ok trivial
  obtain rfl : found = some old := hfound.trans hold
  let w : Vault σ := { v with store := s, register := v.register.mark e.seq .updated }
  have htiles : w.tiles = v.tiles.put e := hput
  have hsplit := hv.shelf.perm_split e.key
  rw [hold, Option.toList_some, List.singleton_append] at hsplit
  have htotal := total_perm hsplit
  have hwritten : (e :: without v.entries e.key).Perm w.entries :=
    (htiles ▸ hv.shelf.put he : Shelf w.tiles _).perm (Shelved.shelf hvalid)
  have haccount := Ledger.result_account_exchanged e old (hv.balanced.perm hsplit)
    (htotal ▸ hbefore) (by rw [total_cons] at htotal ⊢; omega)
  rw [← htotal] at haccount
  let v' : Vault σ := { w with ledger :=
    { v.ledger with memoryUsed := UInt64.ofNat (total (e :: without v.entries e.key)) } }
  have hbalanced : v'.ledger.Balanced w.entries := by
    refine Ledger.Balanced.perm ⟨rfl, ?_⟩ hwritten
    rw [List.length_cons]
    exact (hv.balanced.perm hsplit).tileCount
  have hbecomes : v.Becomes (v.tiles.put e) v' ∧ v'.store = w.store :=
    becomes_of_recharged (w := w) hvalid htiles rfl rfl hbalanced
  refine ⟨v', ?_, hbecomes.1⟩
  have hwrite : (exchange insert e).result v =
      ((fun _ => true) <$> account (some e) (some old)).result w := by
    simp only [exchange, Mutation.result_bind, inStore, Mutation.result_within, hresult,
      Option.isSome_some, if_true, Mutation.result_modify, map_eq_pure_bind]
    rfl
  have haccount : (account (some e) (some old)).result w =
      (if total v.entries + e.size.toNat < 2 ^ 64 then .ok () else .error .memoryUnderflow, v') := by
    rw [account, Mutation.result_within]
    exact congrArg (fun x => (x.1, { w with ledger := x.2 })) haccount
  rw [hwrite, Mutation.result_map, haccount]
  split <;> rfl

/-- The next entry is made and written in place of another. -/
theorem result_exchange_next {insert : Entry → Mutation σ (Option Entry)} (m : Moment)
    (owner : Owner) (p : Position) (payload : Payload) (cost : Option Binary64) (hv : v.Sound)
    (hold : v.tiles (.of owner.identity p) = some old)
    (hinsert : ∀ e : Entry, e.Proper → (insert e).Meets v.store True fun found s =>
      Shelved.Valid s ∧ found = v.tiles e.key ∧ Shelved.get? s = v.tiles.put e)
    (hbefore : total v.entries < 2 ^ 64)
    (hafter : total v.entries + (v.upcoming owner p payload cost).size.toNat <
      2 ^ 64 + old.size.toNat) :
    ∃ v', (do
          let e ← newEntry m owner p payload cost
          return (e, ← exchange (insert e) e) : Mutation (Vault σ) (Entry × Bool)).result v =
        (if total v.entries + (v.upcoming owner p payload cost).size.toNat < 2 ^ 64 then
          .ok (v.upcoming owner p payload cost, true) else .error .memoryUnderflow, v') ∧
      v'.Sound ∧ total v'.entries + old.size.toNat =
        total v.entries + (v.upcoming owner p payload cost).size.toNat := by
  obtain ⟨e, v₁, hnew, rfl, hn⟩ := (newEntry_meets m owner p payload cost v).exists_ok trivial
  have hproper : (v.upcoming owner p payload cost).Proper := Entry.proper_new ..
  have hsound := hn.sound hv
  have htiles : v₁.tiles = v.tiles := congrArg Shelved.get? hn.1
  have hold₁ : v₁.tiles (v.upcoming owner p payload cost).key = some old := htiles ▸ hold
  rw [← hn.entries_eq] at hbefore hafter ⊢
  obtain ⟨v', hresult, hb⟩ := result_exchange hsound hproper hold₁
    (by rw [hn.1, htiles]; exact hinsert _ hproper) hbefore hafter
  refine ⟨v', ?_, hb.sound, hb.total_put hsound hproper hold₁⟩
  rw [Mutation.result_bind, hnew]
  dsimp only
  rw [← map_eq_pure_bind, Mutation.result_map, hresult]
  split <;> rfl

end Vault

/-! ### A cache -/

namespace Cache

variable {c : Cache} {m : Moment} {e : Entry} {owner : Owner} {p : Position} {payload : Payload}
  {cost : Option Binary64}

/-- The entry that would be made next. -/
def upcoming (c : Cache) (owner : Owner) (p : Position) (payload : Payload)
    (cost : Option Binary64) : Entry :=
  .new owner p payload cost c.ledger.overhead c.ledger.nextSeq

/-- The first half of caching a tile: make the entry and write it. -/
def exchange (m : Moment) (owner : Owner) (p : Position) (payload : Payload)
    (cost : Option Binary64) : Mutation Cache (Entry × Bool) :=
  byLayout
    (do let e ← Vault.newEntry m owner p payload cost
        return (e, ← Linked.put e))
    (do let e ← Vault.newEntry m owner p payload cost
        return (e, ← Sharded.write e))

/-- The second half: restore the bound on the memory and announce what happened. -/
def conclude (m : Moment) (w : Entry × Bool) : Mutation Cache (List Notice) :=
  byLayout
    (do let pass ← Linked.restoreBound m w.1
        return pass.log.map .log ++ (Notice.written w.1 w.2 ++ Notice.evicted pass.victims))
    (do let pass ← Sharded.restoreBound m w.1
        return pass.log.map .log ++ (Notice.written w.1 w.2 ++ Notice.evicted pass.victims))

theorem add_eq (m : Moment) (owner : Owner) (p : Position) (payload : Payload)
    (cost : Option Binary64) :
    add m owner p payload cost = exchange m owner p payload cost >>= conclude m := by
  refine Eq.trans ?_ (byLayout_bind _ _ _ _).symm
  unfold add
  congr 1
  · simp only [Linked.add, Linked.write_eq, bind_assoc, pure_bind, Linked.Written.notices]
  · simp only [Sharded.add, bind_assoc, pure_bind]

/-- Where both sums fit in a word, a tile is exchanged for another exactly if the sum of all that is
cached and the new tile fits. -/
theorem result_exchange (h : c.Sound) {old : Entry} (hold : c.get? (.of owner.identity p) = some old)
    (hbefore : total c.entries < 2 ^ 64)
    (hafter : total c.entries + (c.upcoming owner p payload cost).size.toNat <
      2 ^ 64 + old.size.toNat) :
    ∃ c₁, (exchange m owner p payload cost).result c =
        (if total c.entries + (c.upcoming owner p payload cost).size.toNat < 2 ^ 64 then
          .ok (c.upcoming owner p payload cost, true) else .error .memoryUnderflow, c₁) ∧
      c₁.Sound ∧ total c₁.entries + old.size.toNat =
        total c.entries + (c.upcoming owner p payload cost).size.toNat := by
  cases c with
  | linked v =>
    obtain ⟨v₁, hresult, hs, ht⟩ := Vault.result_exchange_next m owner p payload cost h hold
      (fun e he => (LinkedStore.insert_meets (Vault.Sound.valid h) he).imp
        fun _ _ ⟨hvalid, hfound, hput, _⟩ => ⟨hvalid, hfound, hput⟩) hbefore hafter
    exact ⟨.linked v₁, congrArg (Prod.map id linked) hresult, hs, ht⟩
  | sharded v =>
    obtain ⟨v₁, hresult, hs, ht⟩ := Vault.result_exchange_next m owner p payload cost h hold
      (fun e he => ShardedStore.insert_meets (Vault.Sound.valid h) he) hbefore hafter
    exact ⟨.sharded v₁, congrArg (Prod.map id sharded) hresult, hs, ht⟩

/-- The second half cannot fail while the sums fit. -/
theorem conclude_meets (h : c.Sound) (w : Entry × Bool) :
    (conclude m w).Meets c (Fits c.entries 0) fun _ _ => True := by
  cases c with
  | linked v =>
    refine meets_byLayout_linked.2 (Mutation.meets_bind.2 ?_)
    exact (Linked.restoreBound_meets m w.1 h).imp fun _ _ _ => trivial
  | sharded v =>
    refine meets_byLayout_sharded.2 (Mutation.meets_bind.2 ?_)
    exact (Sharded.restoreBound_meets m w.1 h).imp fun _ _ _ => trivial

theorem perform_add_eq (m : Moment) (owner : Owner) (p : Position) (payload : Payload)
    (cost : Option Binary64) :
    (Request.add owner p payload cost).perform m =
      (fun notices => (.done, notices)) <$> (exchange m owner p payload cost >>= conclude m) := by
  rw [← add_eq, map_eq_pure_bind]
  rfl

/-- A tile that is not exchanged is not cached. -/
theorem perform_refused {f : Fault} {c₁ : Cache}
    (h : (exchange m owner p payload cost).result c = (.error f, c₁)) :
    ((Request.add owner p payload cost).perform m).result c = (.error f, c₁) := by
  rw [perform_add_eq, Mutation.result_map, Mutation.result_bind, h]
  rfl

theorem perform_concluded {w : Entry × Bool} {c₁ c' : Cache} {notices : List Notice}
    (h : (exchange m owner p payload cost).result c = (.ok w, c₁))
    (h' : (conclude m w).result c₁ = (.ok notices, c')) :
    ((Request.add owner p payload cost).perform m).result c = (.ok (.done, notices), c') := by
  rw [perform_add_eq, Mutation.result_map, Mutation.result_bind, h]
  dsimp only
  rw [h']
  rfl

theorem Sound.memoryUsed_toNat (h : c.Sound) (hfits : total c.entries < 2 ^ 64) :
    c.ledger.memoryUsed.toNat = total c.entries := by
  rw [(Cache.Sound.balanced h).memoryUsed, UInt64.toNat_ofNat', Nat.mod_eq_of_lt hfits]

end Cache

/-- A tile is cached under a key that holds one already, and the sum of all sizes fits in a word both
before and after the exchange. Then the ledger charges exactly the new sum. But the exchange is refused,
and with it the call fails, exactly if the old sum and the size of the new tile together do not fit. If
they do and no entry is without a size, the whole call is answered. -/
theorem replacement_accounted {ok : Moment → Cache → Request Owner Identity → Prop} {c : Cache}
    (h : Cache.Reaches ok c) (m : Moment) {owner : Owner} {p : Position} {old : Entry}
    (hold : c.get? (.of owner.identity p) = some old) (payload : Payload) (cost : Option Binary64)
    (hbefore : total c.entries < 2 ^ 64)
    (hafter : total c.entries - old.size.toNat + (c.upcoming owner p payload cost).size.toNat <
      2 ^ 64) :
    let e := c.upcoming owner p payload cost
    let call := (Request.add owner p payload cost).perform m
    ∃ c₁, (Cache.exchange m owner p payload cost).result c =
        (if total c.entries + e.size.toNat < 2 ^ 64 then .ok (e, true) else .error .memoryUnderflow,
          c₁) ∧
      c₁.ledger.memoryUsed.toNat = total c.entries - old.size.toNat + e.size.toNat ∧
      total c₁.entries = total c.entries - old.size.toNat + e.size.toNat ∧
      (2 ^ 64 ≤ total c.entries + e.size.toNat → call.result c = (.error .memoryUnderflow, c₁)) ∧
      (total c.entries + e.size.toNat < 2 ^ 64 → (∀ f ∈ c₁.entries, 0 < f.size.toNat) →
        ∃ x c', call.result c = (.ok x, c')) := by
  intro e call
  have hle : old.size.toNat ≤ total c.entries :=
    le_total ((Cache.Sound.shelf h.sound).mem_of_get hold)
  change total c.entries - old.size.toNat + e.size.toNat < 2 ^ 64 at hafter
  have hsums : total c.entries + e.size.toNat < 2 ^ 64 + old.size.toNat := by omega
  obtain ⟨c₁, hresult, hs, ht⟩ : ∃ c₁, (Cache.exchange m owner p payload cost).result c =
      (if total c.entries + e.size.toNat < 2 ^ 64 then .ok (e, true) else .error .memoryUnderflow,
        c₁) ∧ c₁.Sound ∧ total c₁.entries + old.size.toNat = total c.entries + e.size.toNat :=
    Cache.result_exchange h.sound hold hbefore hsums
  have hsum : total c₁.entries = total c.entries - old.size.toNat + e.size.toNat := by omega
  refine ⟨c₁, hresult, (hs.memoryUsed_toNat (hsum ▸ hafter)).trans hsum, hsum, fun hlarge => ?_,
    fun hsmall hsizes => ?_⟩
  · rw [if_neg (Nat.not_lt.2 hlarge)] at hresult
    exact Cache.perform_refused hresult
  · rw [if_pos hsmall] at hresult
    obtain ⟨notices, c', hnotices, -⟩ := (Cache.conclude_meets (m := m) hs (e, true)).exists_ok
      ⟨hsum ▸ hafter, hsizes⟩
    exact ⟨(.done, notices), c', Cache.perform_concluded hresult hnotices⟩

/-- A tile is replaced by a smaller one. -/
theorem replacement_accounted_smaller :
    let m : Moment := ⟨0, fun _ => true⟩
    let owner : Owner := ⟨0, .hashed 1⟩
    let large : Payload := ⟨⟨8, 100, 1⟩, 0⟩
    let small : Payload := ⟨⟨8, 50, 1⟩, 0⟩
    let c := (((Request.add owner .origin large none).perform m).result (Cache.new {} 0)).2
    Cache.Reaches Cache.HasRoom c ∧ c.ledger.memoryUsed = 356 ∧
      ∃ c₁, (Cache.exchange m owner .origin small none).result c =
          (.ok (c.upcoming owner .origin small none, true), c₁) ∧
        c₁.ledger.memoryUsed.toNat = 306 ∧ total c₁.entries = 306 := by
  intro m owner large small c
  have hc : Cache.Reaches Cache.HasRoom c := .next (.built (s := {}) rfl) (by decide +kernel)
  let old : Entry := (Cache.new {} 0).upcoming owner .origin large none
  have hold : c.get? (.of owner.identity .origin) = some old := by decide +kernel
  have hsum : total c.entries = 356 := by decide +kernel
  have hsizes : old.size.toNat = 356 ∧ (c.upcoming owner .origin small none).size.toNat = 306 := by
    decide +kernel
  have hused : c.ledger.memoryUsed = 356 := by decide +kernel
  clear_value c old
  obtain ⟨hlarge, hsmall⟩ := hsizes
  obtain ⟨c₁, hresult, hmemory, htotal, -⟩ := replacement_accounted hc m hold small none
    (by omega) (by omega)
  rw [hsum, hsmall, hlarge] at *
  exact ⟨hc, hused, c₁, hresult, hmemory, htotal⟩

/-- A tile of half the words is replaced by one of the same size. The sum is the same before and after,
and the replacement is refused. -/
theorem replacement_refused :
    let m : Moment := ⟨0, fun _ => true⟩
    let owner : Owner := ⟨0, .hashed 1⟩
    let payload : Payload := ⟨⟨8, 0, 1⟩, 0⟩
    let s : Settings :=
      { layout := .linked, capacity := 0xffffffffffffffff, threshold := .one,
        overhead := 0x8000000000000000 }
    let q : Request Owner Identity := .add owner .origin payload none
    let c := ((q.perform m).result (Cache.new s 0)).2
    Cache.Reaches Cache.HasRoom c ∧
      ∃ old, c.get? (.of owner.identity .origin) = some old ∧ total c.entries < 2 ^ 64 ∧
        total c.entries - old.size.toNat + (c.upcoming owner .origin payload none).size.toNat <
          2 ^ 64 ∧
        ∃ c', (q.perform m).result c = (.error .memoryUnderflow, c') := by
  intro m owner payload s q c
  have hc : Cache.Reaches Cache.HasRoom c := .next (.built (s := s) rfl) (by decide +kernel)
  let old : Entry := (Cache.new s 0).upcoming owner .origin payload none
  have hold : c.get? (.of owner.identity .origin) = some old := by decide +kernel
  have hsum : total c.entries = 2 ^ 63 := by decide +kernel
  have hsizes : old.size.toNat = 2 ^ 63 ∧
      (c.upcoming owner .origin payload none).size.toNat = 2 ^ 63 := by decide +kernel
  clear_value c old
  obtain ⟨hwent, hcame⟩ := hsizes
  obtain ⟨c', hresult, -⟩ := Cache.result_exchange (m := m) hc.sound hold
    (by omega) (by omega : total c.entries + (c.upcoming owner .origin payload none).size.toNat < _)
  rw [if_neg (by omega)] at hresult
  exact ⟨hc, old, hold, by omega, by omega, c', Cache.perform_refused hresult⟩

end TileStore
