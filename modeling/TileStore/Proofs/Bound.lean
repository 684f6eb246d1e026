import TileStore.Proofs.Refinement

/-!
# The bound on the memory

Between calls a cache is within its capacity, or one tile is all it holds: `memory_bound`. The one
tile is there because a write never evicts what it writes. What is known of a pass is enough for it,
`Contents.Serves`, provided that every target computed is within the capacity in force.

`Contents.Bounded` is the invariant. A write establishes it whatever was before, since the pass after
it goes down to the target or leaves the entry written alone; everything else only takes away, or
leaves things as they are.
-/

namespace TileStore

namespace Contents

variable {c c' : Contents} {l : Ledger} {e last : Entry} {es victims : List Entry} {t : Tile}
  {target capacity : Nat} {layout : Layout}

/-- No other tile is held. -/
def Only (c : Contents) (t : Tile) : Prop := ∀ u, (c.get? u).isSome → u = t

/-- No more than the capacity is in use, or no other tile is held. -/
def Bounded (capacity : Nat) (t : Tile) (c : Contents) : Prop := c.used ≤ capacity ∨ c.Only t

/-- Entries written together take more than the capacity when a pass could set in. -/
def Overflows (layout : Layout) (l : Ledger) (es : List Entry) (c : Contents) : Prop :=
  match layout with
  | .linked => ∃ written, written ≠ [] ∧ written <+: es ∧
      l.capacity.toNat < (written.foldl put c).used
  | .sharded => es ≠ [] ∧ l.capacity.toNat < (es.foldl put c).used

theorem get?_put_self (c : Contents) (e : Entry) : (c.put e).get? e.tile = some e := if_pos rfl

/-- Where nothing comes, the bound stays. -/
theorem Bounded.mono (h : c.Bounded capacity t) (hu : c'.used ≤ c.used)
    (hc : ∀ u, (c'.get? u).isSome → (c.get? u).isSome) : c'.Bounded capacity t :=
  h.imp hu.trans fun ho u hu => ho u (hc u hu)

theorem Bounded.drop (h : c.Bounded capacity t) (u : Tile) : (c.drop u).Bounded capacity t := by
  refine h.mono (Nat.sub_le _ _) fun w hw => ?_
  unfold Contents.drop at hw
  dsimp only at hw
  split at hw
  · cases hw
  · exact hw

theorem Bounded.without (h : c.Bounded capacity t) (es : List Entry) :
    (c.without es).Bounded capacity t := by
  refine h.mono (Nat.sub_le _ _) fun w hw => ?_
  obtain ⟨e, he⟩ := Option.isSome_iff_exists.1 hw
  rw [(Option.filter_eq_some_iff.1 he).1]
  rfl

/-! ### Passes -/

/-- What a pass spares is still there. -/
theorem Sheds.get?_protected (h : c.Sheds target (some e.tile) victims c')
    (he : c.get? e.tile = some e) : c'.get? e.tile = some e := by
  have hspared : e ∉ victims := fun hm => h.spared e hm rfl
  rw [h.result]
  unfold Contents.without
  dsimp only
  rw [he]
  simp [Option.filter, hspared]

theorem Sheds.bounded (h : c.Sheds target (some t) victims c') (hl : target ≤ capacity) :
    c'.Bounded capacity t :=
  h.enough.imp (·.trans hl) fun hall u hu => Option.some.inj (hall u hu)

theorem Sheds.bounded_of_none (h : c.Sheds target none victims c') (hl : target ≤ capacity)
    (t : Tile) : c'.Bounded capacity t :=
  h.enough.imp (·.trans hl) fun hall u hu => nomatch hall u hu

theorem Restored.get?_self (h : c.Restored l e victims c') (he : c.get? e.tile = some e) :
    c'.get? e.tile = some e := by
  unfold Restored at h
  split at h
  · exact h.get?_protected he
  · rw [h.2]
    exact he

theorem Restored.bounded (h : c.Restored l e victims c')
    (hl : l.capacity.toNat < c.used → l.target ≤ l.capacity) :
    c'.Bounded l.capacity.toNat e.tile := by
  unfold Restored at h
  split at h
  · next hover => exact h.bounded (UInt64.le_iff_toNat_le.1 (hl hover))
  · next hover =>
    rw [h.2]
    exact .inl (Nat.not_lt.1 hover)

/-- A pass brings nothing in. -/
theorem Restored.get?_of_some {f : Entry} (h : c.Restored l e victims c')
    (hf : c'.get? t = some f) : c.get? t = some f := by
  unfold Restored at h
  split at h
  · rw [h.result] at hf
    exact (Option.filter_eq_some_iff.1 hf).1
  · rwa [h.2] at hf

/-- With a pass after each entry, the last one is there and the bound holds. The passes before are
of no account. -/
theorem RestoredEach.bounded (h : RestoredEach l es c victims c') (hlast : es.getLast? = some last)
    (hl : Overflows .linked l es c → l.target ≤ l.capacity) :
    c'.get? last.tile = some last ∧ c'.Bounded l.capacity.toNat last.tile := by
  induction es generalizing c victims with
  | nil => cases hlast
  | cons e es ih =>
    obtain ⟨c₁, first, rest, hfirst, hrest, -⟩ := h
    have hover : l.capacity.toNat < (c.put e).used → l.target ≤ l.capacity := fun hover =>
      hl ⟨[e], List.cons_ne_nil _ _, List.prefix_append [e] es, hover⟩
    cases es with
    | nil =>
      obtain rfl : e = last := Option.some.inj hlast
      obtain ⟨-, rfl⟩ := hrest
      exact ⟨hfirst.get?_self (get?_put_self c e), hfirst.bounded hover⟩
    | cons f es =>
      refine ih hrest hlast fun ⟨written, hne, hprefix, hused⟩ => ?_
      by_cases hover' : l.capacity.toNat < (c.put e).used
      · exact hover hover'
      · -- no pass so far, so what was written is all there
        unfold Restored at hfirst
        rw [if_neg hover'] at hfirst
        obtain ⟨-, rfl⟩ := hfirst
        exact hl ⟨e :: written, List.cons_ne_nil _ _, (List.prefix_cons_inj e).2 hprefix, hused⟩

theorem Batched.bounded (h : Batched layout l es c victims c') (hlast : es.getLast? = some last)
    (hl : Overflows layout l es c → l.target ≤ l.capacity) :
    c'.get? last.tile = some last ∧ c'.Bounded l.capacity.toNat last.tile := by
  cases layout with
  | linked => exact RestoredEach.bounded h hlast hl
  | sharded =>
    simp only [Batched, hlast] at h
    have hput : (es.foldl put c).get? last.tile = some last := by
      obtain ⟨init, rfl⟩ := List.getLast?_eq_some_iff.1 hlast
      rw [List.foldl_append]
      exact get?_put_self _ last
    have hne : es ≠ [] := fun hnil => by rw [hnil] at hlast; cases hlast
    exact ⟨Restored.get?_self h hput, Restored.bounded h fun hover => hl ⟨hne, hover⟩⟩

theorem Batched.of_nil (h : Batched layout l [] c victims c') : c' = c := by
  cases layout <;> exact h.2

end Contents

namespace Cache

variable {c c' : Cache} {m : Moment} {r : Request Owner Identity} {t : Tile} {e : Entry}

/-- If a request computes an eviction target, it is within the capacity then in force. -/
def TargetFits (c : Cache) : Request Owner Identity → Prop
  | .add owner p payload cost =>
    let e := Entry.new owner p payload cost c.ledger.overhead c.ledger.nextSeq
    c.ledger.capacity.toNat < (c.contents.put e).used → c.ledger.target ≤ c.ledger.capacity
  | .addBatch owner points payloads costs => ∀ tiles, Aligned points payloads costs tiles →
    let es := Vault.madeFrom owner c.ledger.overhead c.ledger.nextSeq tiles
    c.contents.Overflows c.layout c.ledger es → c.ledger.target ≤ c.ledger.capacity
  | .relieve => c.ledger.target ≤ c.ledger.capacity
  | .setCapacity bytes => bytes ≠ 0 → bytes < c.ledger.memoryUsed →
    { c.ledger with capacity := bytes }.target ≤ bytes
  | _ => True

/-- There is room for what a request caches, and the targets that it computes are within the
capacity. -/
def Allows (m : Moment) (c : Cache) (r : Request Owner Identity) : Prop :=
  c.HasRoom m r ∧ c.TargetFits r

/-- More than the capacity is in use only if one tile is all there is. -/
def Bounded (c : Cache) : Prop := ∃ t, c.contents.Bounded c.ledger.capacity.toNat t

theorem entries_eq_of_only (h : c.Sound) (ho : c.contents.Only t)
    (he : c.contents.get? t = some e) : c.entries = [e] := by
  obtain ⟨hnodup, hmem⟩ := h.lists_entries
  have hsame : ∀ f ∈ c.entries, f = e := by
    intro f hf
    obtain ⟨-, hf⟩ := (hmem f).1 hf
    obtain rfl := ho f.tile (by rw [hf]; rfl)
    exact Option.some.inj (hf.symm.trans he)
  have htile := h.tile_eq he
  have hin : e ∈ c.entries := (hmem e).2 ⟨trivial, htile ▸ he⟩
  exact List.perm_singleton.1 ((List.perm_ext_iff_of_nodup hnodup (List.nodup_singleton e)).2
    fun f => ⟨fun hf => List.mem_singleton.2 (hsame f hf), fun hf => List.mem_singleton.1 hf ▸ hin⟩)

/-- Where nothing is found, nothing is in use. -/
theorem memoryUsed_eq_zero (h : c.Sound) (hx : c.Exact) (hnone : ∀ u, c.contents.get? u = none) :
    c.ledger.memoryUsed = 0 := by
  have hnil : c.entries = [] := by
    refine List.eq_nil_iff_forall_not_mem.2 fun f hf => ?_
    obtain ⟨-, hf⟩ := (h.lists_entries.2 f).1 hf
    rw [hnone f.tile] at hf
    cases hf
  refine UInt64.toNat_inj.1 ?_
  rw [h.balanced.memoryUsed_toNat hx.fits, hnil]
  rfl

theorem length_eq_one_of_bounded (h : c.Sound) (hx : c.Exact) (hb : c.Bounded) :
    c.ledger.memoryUsed ≤ c.ledger.capacity ∨ c.entries.length = 1 := by
  obtain ⟨t, hused | ho⟩ := hb
  · exact .inl (UInt64.le_iff_toNat_le.2 hused)
  · rcases he : c.contents.get? t with _ | e
    · refine .inl ?_
      rw [memoryUsed_eq_zero h hx fun u => Option.not_isSome_iff_eq_none.1 fun hu => ?_]
      · exact UInt64.zero_le
      · rw [ho u hu, he] at hu
        cases hu
    · exact .inr (by rw [entries_eq_of_only h ho he]; rfl)

/-- With the same capacity, whatever keeps the bound on the contents keeps it on the cache. -/
theorem Bounded.of_contents (h : c.Bounded) (hcapacity : c'.ledger.capacity = c.ledger.capacity)
    (hc : ∀ n t, c.contents.Bounded n t → c'.contents.Bounded n t) : c'.Bounded := by
  obtain ⟨t, ht⟩ := h
  exact ⟨t, hcapacity ▸ hc _ t ht⟩

theorem Bounded.stays {victims : List Entry} (h : c.Bounded)
    (hcapacity : c'.ledger.capacity = c.ledger.capacity)
    (hs : c.contents.Stays victims c'.contents) : c'.Bounded :=
  h.of_contents hcapacity fun _ _ ht => hs.2 ▸ ht

theorem Bounded.batched {es victims : List Entry} (h : c.Bounded)
    (hcapacity : c'.ledger.capacity = c.ledger.capacity)
    (hb : Contents.Batched c.layout c.ledger es c.contents victims c'.contents)
    (hl : c.contents.Overflows c.layout c.ledger es → c.ledger.target ≤ c.ledger.capacity) :
    c'.Bounded := by
  cases hlast : es.getLast? with
  | none =>
    rw [List.getLast?_eq_none_iff.1 hlast] at hb
    exact h.stays hcapacity ⟨rfl, hb.of_nil⟩
  | some last => exact ⟨last.tile, hcapacity ▸ (hb.bounded hlast hl).2⟩

/-- A capacity below what is in use sets off a pass, and one that is not is kept to anyway. -/
theorem Bounded.setCapacity {bytes : UInt64} {x : Reply × List Notice} (h : c.Bounded)
    (hx : c.Exact) (hl : c.TargetFits (.setCapacity bytes))
    (ha : (Request.setCapacity bytes).Answered m c x c') : c'.Bounded := by
  have hc := (ha.serves ⟨hx, trivial⟩).2
  have hcapacity : c'.ledger.capacity = _ := ha.bounds.1
  rw [Request.rebound, Ledger.setCapacity_eq] at hcapacity
  by_cases hzero : bytes = 0
  · rw [if_neg fun hc => hc.1 hzero] at hc
    rw [if_pos hzero] at hcapacity
    exact h.stays hcapacity hc
  · rw [if_neg hzero] at hcapacity
    have hcapacity : c'.ledger.capacity = bytes := hcapacity
    refine ⟨(.hashed 0, .origin), hcapacity ▸ ?_⟩
    split at hc
    · next hover =>
      have htarget := hl hzero (UInt64.lt_iff_toNat_lt.2 hover.2)
      exact hc.bounded_of_none (UInt64.le_iff_toNat_le.1 htarget) _
    · next hover =>
      refine .inl ?_
      rw [hc.2]
      exact Nat.not_lt.1 fun hlt => hover ⟨hzero, hlt⟩

/-- Every request keeps the bound. -/
theorem Bounded.answered {x : Reply × List Notice} (h : c.Bounded) (hx : c.Exact)
    (hr : c.Allows m r) (ha : r.Answered m c x c') : c'.Bounded := by
  have hserves := ha.serves ⟨hx, hr.1⟩
  have htarget := hr.2
  have hcapacity : c'.ledger.capacity = (r.rebound c.ledger).capacity := ha.bounds.1
  cases r with
  | add owner p payload cost => exact ⟨_, hcapacity ▸ hserves.2.2.bounded htarget⟩
  | addBatch owner points payloads costs =>
    rcases hserves with ⟨-, -, -, hstays⟩ | ⟨tiles, htiles, -, -, hbatch⟩
    · exact h.stays hcapacity hstays
    · exact h.batched hcapacity hbatch (htarget tiles htiles)
  | remove image p =>
    exact h.of_contents hcapacity fun n t ht => hserves.2.2 ▸ ht.drop (image, p)
  | removeImage image =>
    obtain ⟨es, -, -, -, hc⟩ := hserves
    exact h.of_contents hcapacity fun n t ht => hc ▸ ht.without es
  | flush => exact ⟨(.hashed 0, .origin), .inl (by rw [hserves.2.2]; exact Nat.zero_le _)⟩
  | relieve =>
    exact ⟨(.hashed 0, .origin),
      hcapacity ▸ hserves.2.bounded_of_none (UInt64.le_iff_toNat_le.1 htarget) _⟩
  | setCapacity bytes => exact h.setCapacity hx htarget ha
  | setThreshold t =>
    refine h.stays (hcapacity.trans ?_) hserves.2
    rw [Request.rebound, Ledger.setThreshold_eq]
    split <;> rfl
  | get | getAll | tilesOf | contains | enable | disable | reset | report | list =>
    exact h.stays hcapacity hserves.2

theorem Reaches.hasRoom (h : Reaches Allows c) : Reaches HasRoom c := h.mono fun _ _ _ => And.left

theorem Reaches.bounded (h : Reaches Allows c) : c.Bounded := by
  induction h with
  | built hb =>
    refine ⟨(.hashed 0, .origin), .inl ?_⟩
    rw [(start_of_build hb).2.2]
    exact Nat.zero_le _
  | performed hc hr hx ih =>
    exact ih.answered hc.hasRoom.exact hr ((Request.perform_meets _ _ hc.sound).of_ok hx)
  | @counted c a hc ih =>
    exact ih.of_contents (by rw [count, ledger_editLedger]; rfl) fun n t ht =>
      (contents_count c a).symm ▸ ht

/-- After a write: the entry is there, and the memory is within the capacity unless the entry is all
that is there. -/
def KeepsLast (e : Entry) (c : Cache) : Prop :=
  c.get? e.key = some e ∧ (c.ledger.memoryUsed ≤ c.ledger.capacity ∨ c.entries = [e])

theorem keepsLast_of_bounded (h : c.Sound) (he : c.contents.get? e.tile = some e)
    (hb : c.contents.Bounded c.ledger.capacity.toNat e.tile) (hproper : e.Proper) :
    c.KeepsLast e :=
  ⟨hproper.key_tile ▸ he,
    hb.imp UInt64.le_iff_toNat_le.2 fun ho => entries_eq_of_only h ho he⟩

/-- What is larger than the capacity is alone. -/
theorem KeepsLast.not_mem {old : Entry} (h : c.KeepsLast e) (hs : c.Sound) (hx : c.Exact)
    (hsize : c.ledger.capacity < old.size) (hne : old ≠ e) : old ∉ c.entries := by
  intro hold
  rcases h.2 with hused | hentries
  · have hle := le_total hold
    rw [← hs.balanced.memoryUsed_toNat hx.fits] at hle
    have hused := UInt64.le_iff_toNat_le.1 hused
    have hsize := UInt64.lt_iff_toNat_lt.1 hsize
    omega
  · rw [hentries] at hold
    exact hne (List.mem_singleton.1 hold)

/-- What is written last is there, and nothing that was there before is left of what is larger than
the capacity. -/
theorem add_keepsLast {owner : Owner} {p : Position} {payload : Payload} {cost : Option Binary64}
    {x : Reply × List Notice} (h : c.Sound) (hx : c.Exact)
    (hr : c.Allows m (.add owner p payload cost))
    (ha : (Request.add owner p payload cost).Answered m c x c') :
    let e := Entry.new owner p payload cost c.ledger.overhead c.ledger.nextSeq
    c'.KeepsLast e ∧ ∀ old ∈ c.entries, c.ledger.capacity < old.size → old.key ≠ e.key →
      c'.get? old.key = none := by
  intro e
  obtain ⟨-, -, hrestored⟩ := ha.serves ⟨hx, hr.1⟩
  have hproper : e.Proper := Entry.proper_new ..
  have hcapacity : c'.ledger.capacity = c.ledger.capacity := ha.bounds.1
  have hlast : c'.KeepsLast e := by
    refine keepsLast_of_bounded ha.sound
      (hrestored.get?_self (Contents.get?_put_self _ _)) ?_ hproper
    rw [hcapacity]
    exact hrestored.bounded hr.2
  refine ⟨hlast, fun old hold hsize hne => Option.eq_none_iff_forall_ne_some.2 fun f hf => ?_⟩
  have hkey := (h.proper hold).key_tile
  have hf : c'.contents.get? old.tile = some f := by rwa [← hkey] at hf
  -- it can only be the old entry itself
  have hput := hrestored.get?_of_some hf
  have htile : old.tile ≠ e.tile := fun ht => hne (hkey.symm.trans (ht ▸ hproper.key_tile))
  obtain rfl : old = f := by
    have hbefore : c.contents.get? old.tile = some f := (if_neg htile).symm.trans hput
    exact Option.some.inj (((h.lists_entries.2 old).1 hold).2.symm.trans hbefore)
  refine hlast.not_mem ha.sound (ha.exact ⟨hx, hr.1⟩) (hcapacity ▸ hsize)
    (fun heq => hne (heq ▸ rfl)) ?_
  exact (ha.sound.lists_entries.2 old).2 ⟨trivial, hf⟩

theorem addBatch_keepsLast {owner : Owner} {points : List Position} {payloads : List Payload}
    {costs : Option (List Binary64)} {tiles : List (Position × Payload × Option Binary64)}
    {last : Entry} {x : Reply × List Notice} (hx : c.Exact)
    (hr : c.Allows m (.addBatch owner points payloads costs))
    (htiles : Aligned points payloads costs tiles)
    (hlast : (Vault.madeFrom owner c.ledger.overhead c.ledger.nextSeq tiles).getLast? = some last)
    (ha : (Request.addBatch owner points payloads costs).Answered m c x c') :
    x.1 = .accepted ∧ c'.KeepsLast last := by
  obtain ⟨e, he, -⟩ | ⟨tiles', htiles', hreply, -, hbatch⟩ := ha.serves ⟨hx, hr.1⟩
  · exact absurd he htiles.not_refused
  rw [htiles.unique htiles'] at hbatch
  obtain ⟨hthere, hbounded⟩ := hbatch.bounded hlast (hr.2 tiles htiles)
  have hcapacity : c'.ledger.capacity = c.ledger.capacity := ha.bounds.1
  exact ⟨hreply, keepsLast_of_bounded ha.sound hthere (hcapacity ▸ hbounded)
    (Vault.of_mem_madeFrom (List.mem_of_getLast? hlast)).1⟩

end Cache

/-- A cache whose eviction targets are within the capacity in force is within its capacity between
calls, or holds one tile. After a write it holds the entry written last, and is within the capacity
unless this is all it holds, so a tile larger than the capacity is gone after the next. -/
theorem memory_bound :
    ∀ c, Cache.Reaches Cache.Allows c →
      (c.ledger.memoryUsed ≤ c.ledger.capacity ∨ c.entries.length = 1) ∧
      (∀ m owner p payload cost, c.Allows m (.add owner p payload cost) →
        let e := Entry.new owner p payload cost c.ledger.overhead c.ledger.nextSeq
        ∃ notices c',
          ((Request.add owner p payload cost).perform m).result c = (.ok (.done, notices), c') ∧
          c'.KeepsLast e ∧
          ∀ old ∈ c.entries, c.ledger.capacity < old.size → old.key ≠ e.key →
            c'.get? old.key = none) ∧
      ∀ m owner points payloads (costs : Option (List Binary64)),
        payloads.length = points.length → (∀ cs ∈ costs, cs.length = points.length) →
        points ≠ [] → c.Allows m (.addBatch owner points payloads costs) →
        ∃ p payload notices c', points.getLast? = some p ∧ payloads.getLast? = some payload ∧
          ((Request.addBatch owner points payloads costs).perform m).result c =
            (.ok (.accepted, notices), c') ∧
          c'.KeepsLast (.new owner p payload (costs.bind (·.getLast?)) c.ledger.overhead
            (c.ledger.nextSeq + (points.length - 1))) := by
  intro c hc
  have hs := hc.sound
  have hx := hc.hasRoom.exact
  refine ⟨Cache.length_eq_one_of_bounded hs hx hc.bounded, ?_, ?_⟩
  · intro m owner p payload cost hr e
    obtain ⟨⟨reply, notices⟩, c', hresult, ha⟩ :=
      (Request.perform_meets m (.add owner p payload cost) hs).exists_ok ⟨hx, hr.1⟩
    obtain ⟨rfl, -⟩ := ha.serves ⟨hx, hr.1⟩
    exact ⟨notices, c', hresult, Cache.add_keepsLast hs hx hr ha⟩
  · intro m owner points payloads costs hpayloads hcosts hne hr
    obtain ⟨tiles, htiles⟩ := exists_aligned_iff.2 ⟨hpayloads, hcosts⟩
    have hnil : tiles ≠ [] := by
      rintro rfl
      exact hne htiles.points_eq.symm
    obtain ⟨hpoint, hpayload, hcost⟩ := htiles.of_getLast? (List.getLast?_eq_some_getLast hnil)
    have hlast := Vault.getLast?_madeFrom owner c.ledger.overhead c.ledger.nextSeq tiles
    rw [List.getLast?_eq_some_getLast hnil, Option.map_some, hcost, htiles.length_tiles] at hlast
    obtain ⟨⟨reply, notices⟩, c', hresult, ha⟩ :=
      (Request.perform_meets m (.addBatch owner points payloads costs) hs).exists_ok ⟨hx, hr.1⟩
    obtain ⟨rfl, hkeeps⟩ := Cache.addBatch_keepsLast hx hr htiles hlast ha
    exact ⟨_, _, notices, c', hpoint, hpayload, hresult, hkeeps⟩

/-- A tile of a hundred million bytes stays in a cache of sixty-four mebibytes until the next one
comes. The last of a batch stays just so. -/
theorem memory_bound_oversized :
    let m : Moment := ⟨0, fun _ => true⟩
    let owner : Owner := ⟨0, .hashed 1⟩
    let large : Payload := ⟨⟨8, 100000000, 1⟩, 0⟩
    let small : Payload := ⟨⟨8, 100, 1⟩, 0⟩
    let c := (((Request.add owner .origin large none).perform m).result (Cache.new {} 0)).2
    c.ledger.capacity < c.ledger.memoryUsed ∧ c.entries.length = 1 ∧
      (∃ notices c', ((Request.add owner ⟨1, 0⟩ small none).perform m).result c =
        (.ok (.done, notices), c') ∧ c'.get? (.of (.hashed 1) .origin) = none) ∧
      ∃ notices c', ((Request.addBatch owner [⟨1, 0⟩, ⟨2, 0⟩] [small, large]
        (some [.zero, .one])).perform m).result c = (.ok (.accepted, notices), c') ∧
        c'.KeepsLast (.new owner ⟨2, 0⟩ large (some .one) 256 2) := by
  intro m owner large small c
  have hbuild : Cache.build {} 0 = .ok (Cache.new {} 0) := rfl
  have hbuilt : Cache.Reaches Cache.Allows (Cache.new {} 0) := .built hbuild
  have hlarge : (Cache.new {} 0).Allows m (.add owner .origin large none) := by
    exact ⟨by decide +kernel, fun _ => by decide +kernel⟩
  have htarget : c.ledger.target ≤ c.ledger.capacity := by decide +kernel
  have hsmall : c.Allows m (.add owner ⟨1, 0⟩ small none) := ⟨by decide +kernel, fun _ => htarget⟩
  have hbatch : c.Allows m (.addBatch owner [⟨1, 0⟩, ⟨2, 0⟩] [small, large] (some [.zero, .one])) :=
    ⟨by decide +kernel, fun _ _ _ => htarget⟩
  obtain ⟨notices, c', hresult, -⟩ := (memory_bound _ hbuilt).2.1 _ _ _ _ _ hlarge
  have hc : Cache.Reaches Cache.Allows c := by
    show Cache.Reaches _ (((Request.add owner .origin large none).perform m).result _).2
    rw [hresult]
    exact .performed hbuilt hlarge hresult
  have hlength : ∀ cs ∈ some [Binary64.zero, .one], cs.length = 2 := by
    rintro _ ⟨⟩
    rfl
  have hledger : c.ledger.overhead = 256 ∧ c.ledger.nextSeq = 1 := by decide +kernel
  refine ⟨by decide +kernel, by decide +kernel, ?_, ?_⟩
  · obtain ⟨notices, c', hresult, -, hgone⟩ := (memory_bound c hc).2.1 _ _ _ _ _ hsmall
    refine ⟨notices, c', hresult, ?_⟩
    exact hgone (.new owner .origin large none 256 0) (by decide +kernel) (by decide +kernel)
      (by decide +kernel)
  · obtain ⟨p, payload, notices, c', hp, hpayload, hresult, hkeeps⟩ :=
      (memory_bound c hc).2.2 _ _ _ _ _ rfl hlength (List.cons_ne_nil _ _) hbatch
    obtain rfl := Option.some.inj hp
    obtain rfl := Option.some.inj hpayload
    rw [hledger.1, hledger.2] at hkeeps
    exact ⟨notices, c', hresult, hkeeps⟩

end TileStore
