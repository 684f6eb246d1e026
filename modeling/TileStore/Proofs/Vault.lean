import TileStore.Vault
import TileStore.Proofs.Ledger
import Mathlib.Data.List.Forall2

/-!
# What happens to a vault

Both kinds of store look alike to their vault: `Shelved` says what a vault relies on. Here the
changes a vault goes through are described by what it holds before and after. A vault that is
`Sound` has a valid store, and a ledger that charges exactly its entries. `Becomes` is the one way in
which a vault changes: it holds something else, its ledger charges for that, and its settings stay.
Evictions one after the other are `Evicts`, a whole pass `Relieves`, the pass that may follow a write
`Restores`.
-/

namespace TileStore

/-- A store as its vault sees it. -/
class Shelved (σ : Type) where
  /-- The entry under a key. -/
  get? : σ → TileKey → Option Entry
  /-- All entries. -/
  entries : σ → List Entry
  /-- The keys that are catalogued for an image. -/
  keysOf : σ → ImageKey → List TileKey
  /-- All parts of the store agree. -/
  Valid : σ → Prop
  shelf : ∀ {s}, Valid s → Shelf (get? s) (entries s)
  nodup_keysOf : ∀ {s}, Valid s → ∀ image, (keysOf s image).Nodup
  mem_keysOf : ∀ {s}, Valid s → ∀ image k,
    k ∈ keysOf s image ↔ ∃ e, get? s k = some e ∧ e.image = image

namespace Vault

variable {σ : Type} [Shelved σ] {v v' v'' w : Vault σ} {g g' : Tiles} {e f : Entry}
  {es fs : List Entry} {k : TileKey} {ks : List TileKey} {protect : Option TileKey} {target : UInt64}

/-- What is found under each key. -/
def tiles (v : Vault σ) : Tiles := Shelved.get? v.store

/-- All entries. -/
def entries (v : Vault σ) : List Entry := Shelved.entries v.store

/-- The store is valid and the ledger charges exactly its entries. -/
structure Sound (v : Vault σ) : Prop where
  valid : Shelved.Valid v.store
  balanced : v.ledger.Balanced v.entries

theorem Sound.shelf (h : v.Sound) : Shelf v.tiles v.entries := Shelved.shelf h.valid

/-- The entry has a size, and the sum of all sizes with it fits in a word. -/
structure Admits (v : Vault σ) (e : Entry) : Prop where
  fits : Fits v.entries e.size.toNat
  size_pos : 0 < e.size.toNat

/-! ### Accounts -/

/-- Charging an entry that came into the store in place of another. -/
theorem account_put (hv : Shelf v.tiles v.entries) (hb : v.ledger.Balanced v.entries)
    (hw : Shelf w.tiles w.entries) (hl : w.ledger = v.ledger) (ht : w.tiles = v.tiles.put e)
    (he : e.Proper) :
    (account (some e) (v.tiles e.key)).Meets w (Fits v.entries e.size.toNat) fun _ v' =>
      v' = { w with ledger := v'.ledger } ∧ v.ledger.Recharged v'.ledger ∧
        v'.ledger.Balanced w.entries := by
  have hsplit := hv.perm_split e.key
  have hafter : (e :: without v.entries e.key).Perm w.entries := (ht ▸ hv.put he).perm hw
  have haccount := Ledger.account_meets (some e) (v.tiles e.key) (hb.perm hsplit)
  rw [← hl] at haccount ⊢
  exact Mutation.meets_within.2 <| haccount.mono (fun h => h.perm hsplit)
    fun _ l ⟨hr, hbal⟩ => ⟨rfl, hr, hbal.perm hafter⟩

/-- Giving back an entry that went out of the store. -/
theorem account_drop (hv : Shelf v.tiles v.entries) (hb : v.ledger.Balanced v.entries)
    (hw : Shelf w.tiles w.entries) (hl : w.ledger = v.ledger) (ht : w.tiles = v.tiles.drop e.key)
    (he : v.tiles e.key = some e) :
    (account none (some e)).Meets w (Fits v.entries 0) fun _ v' =>
      v' = { w with ledger := v'.ledger } ∧ v.ledger.Recharged v'.ledger ∧
        v'.ledger.Balanced w.entries := by
  have hsplit := hv.perm_split e.key
  rw [he] at hsplit
  have hafter : (without v.entries e.key).Perm w.entries := (ht ▸ hv.drop e.key).perm hw
  have haccount := Ledger.account_meets none (some e) (hb.perm hsplit)
  rw [← hl] at haccount ⊢
  exact Mutation.meets_within.2 <| haccount.mono (fun h => h.perm hsplit)
    fun _ l ⟨hr, hbal⟩ => ⟨rfl, hr, hbal.perm hafter⟩

omit [Shelved σ] in
/-- Giving back all that is charged. -/
theorem accountAll_meets (es : List Entry) {v : Vault σ} (hb : v.ledger.Balanced es) :
    (es.forM fun e => account none (some e)).Meets v (Fits es 0) fun _ v' =>
      v'.store = v.store ∧ v.ledger.Recharged v'.ledger ∧ v'.ledger.Balanced [] := by
  induction es generalizing v with
  | nil => exact ⟨rfl, rfl, hb⟩
  | cons e es ih =>
    refine Mutation.meets_forM_cons.2 (Mutation.meets_within.2 ?_)
    refine (Ledger.account_meets none (some e) hb).imp ?_
    intro _ l ⟨hr, hbal⟩
    refine (ih (v := { v with ledger := l }) hbal).mono Fits.tail ?_
    intro _ v' ⟨hs, hr', hb'⟩
    exact ⟨hs, hr.trans hr', hb'⟩

/-! ### Changes -/

/-- What `v` turns into holds `g`, is charged for it, and has the settings of `v`. -/
structure Becomes (v : Vault σ) (g : Tiles) (v' : Vault σ) : Prop where
  sound : v'.Sound
  tiles : v'.tiles = g
  recharged : v.ledger.Recharged v'.ledger

namespace Becomes

theorem refl (h : v.Sound) : v.Becomes v.tiles v := ⟨h, rfl, rfl⟩

theorem trans (h : v.Becomes g v') (h' : v'.Becomes g' v'') : v.Becomes g' v'' :=
  ⟨h'.sound, h'.tiles, h.recharged.trans h'.recharged⟩

/-- Marks in the register change nothing that matters here. -/
theorem of_eq (h : v.Becomes g v') (hs : v''.store = v'.store) (hl : v''.ledger = v'.ledger) :
    v.Becomes g v'' := by
  obtain ⟨_, _, _⟩ := v'
  obtain ⟨_, _, _⟩ := v''
  cases hs
  cases hl
  exact ⟨⟨h.sound.valid, h.sound.balanced⟩, h.tiles, h.recharged⟩

/-- A store that shows the same takes the place of another. -/
theorem of_store {s : σ} (hv : v.Sound) (hs : Shelved.Valid s) (ht : Shelved.get? s = v.tiles) :
    v.Becomes v.tiles { v with store := s } :=
  ⟨⟨hs, hv.balanced.perm (hv.shelf.perm (ht ▸ Shelved.shelf hs))⟩, ht, rfl⟩

/-- A vault that holds the same lists the same entries and charges the same. -/
theorem perm (hv : v.Sound) (h : v.Becomes v.tiles v') : v.entries.Perm v'.entries :=
  hv.shelf.perm (h.tiles ▸ h.sound.shelf)

theorem memoryUsed_eq (hv : v.Sound) (h : v.Becomes v.tiles v') :
    v'.ledger.memoryUsed = v.ledger.memoryUsed := by
  rw [hv.balanced.memoryUsed, h.sound.balanced.memoryUsed, total_perm (h.perm hv)]

/-- The entry written, and those under other keys. -/
theorem perm_put (hv : v.Sound) (he : e.Proper) (h : v.Becomes (v.tiles.put e) v') :
    v'.entries.Perm (e :: without v.entries e.key) :=
  h.sound.shelf.perm (h.tiles ▸ hv.shelf.put he)

/-- The entry removed, and those that are left. -/
theorem perm_drop (hv : v.Sound) (he : v.tiles e.key = some e)
    (h : v.Becomes (v.tiles.drop e.key) v') : v.entries.Perm (e :: v'.entries) := by
  have hsplit := hv.shelf.perm_split e.key
  rw [he] at hsplit
  exact hsplit.trans ((h.tiles ▸ hv.shelf.drop e.key : Shelf v'.tiles _).perm h.sound.shelf |>.cons e)

/-- Sums that fit with an entry on top still fit when it has been written. -/
theorem fits_put (hv : v.Sound) (he : e.Proper) (ha : v.Admits e)
    (h : v.Becomes (v.tiles.put e) v') : Fits v'.entries 0 := by
  refine .perm ⟨?_, ?_⟩ (h.perm_put hv he).symm
  · have := ha.fits.total_lt
    have : total (without v.entries e.key) ≤ total v.entries := total_filter_le _ _
    rw [total_cons]
    omega
  · rintro f hm
    rcases List.mem_cons.1 hm with rfl | hm
    · exact ha.size_pos
    · exact ha.fits.size_pos f (List.mem_of_mem_filter hm)

theorem fits_drop {spare : Nat} (hv : v.Sound) (he : v.tiles e.key = some e)
    (hf : Fits v.entries spare) (h : v.Becomes (v.tiles.drop e.key) v') : Fits v'.entries spare :=
  (hf.perm (h.perm_drop hv he)).tail

theorem entries_eq_nil (h : v.Becomes (fun _ => none) v') : v'.entries = [] :=
  (h.tiles ▸ h.sound.shelf : Shelf _ _).eq_nil

end Becomes

/-- A ledger catches up with a store that has changed already. -/
theorem becomes_of_recharged (hs : Shelved.Valid w.store) (ht : w.tiles = g)
    (hw : v' = { w with ledger := v'.ledger }) (hr : v.ledger.Recharged v'.ledger)
    (hb : v'.ledger.Balanced w.entries) : v.Becomes g v' ∧ v'.store = w.store := by
  have hstore : v'.store = w.store := by rw [hw]
  have hentries : v'.entries = w.entries := congrArg Shelved.entries hstore
  refine ⟨⟨⟨hstore ▸ hs, hentries ▸ hb⟩, ?_, hr⟩, hstore⟩
  rw [← ht]
  exact congrArg Shelved.get? hstore

/-- An entry came into the store in place of another, and is charged. -/
theorem becomes_put (hv : v.Sound) (he : e.Proper) (hs : Shelved.Valid w.store)
    (hl : w.ledger = v.ledger) (ht : w.tiles = v.tiles.put e) :
    (account (some e) (v.tiles e.key)).Meets w (Fits v.entries e.size.toNat) fun _ v' =>
      v.Becomes (v.tiles.put e) v' ∧ v'.store = w.store := by
  refine (account_put hv.shelf hv.balanced (Shelved.shelf hs) hl ht he).imp ?_
  exact fun _ v' ⟨hw, hr, hb⟩ => becomes_of_recharged hs ht hw hr hb

/-- An entry went out of the store, and is given back. -/
theorem becomes_drop (hv : v.Sound) (he : v.tiles e.key = some e) (hs : Shelved.Valid w.store)
    (hl : w.ledger = v.ledger) (ht : w.tiles = v.tiles.drop e.key) :
    (account none (some e)).Meets w (Fits v.entries 0) fun _ v' =>
      v.Becomes (v.tiles.drop e.key) v' ∧ v'.store = w.store := by
  refine (account_drop hv.shelf hv.balanced (Shelved.shelf hs) hl ht he).imp ?_
  exact fun _ v' ⟨hw, hr, hb⟩ => becomes_of_recharged hs ht hw hr hb

/-! ### Evictions -/

/-- One eviction after the other. Each takes an entry that is there and is not protected, while more
memory is charged than the target allows. -/
inductive Evicts (protect : Option TileKey) (target : UInt64) :
    Vault σ → List Entry → Vault σ → Prop where
  | rest {v v' : Vault σ} : v.Becomes v.tiles v' → Evicts protect target v [] v'
  | step {v v' v'' : Vault σ} {e : Entry} {es : List Entry} :
    target < v.ledger.memoryUsed → v.tiles e.key = some e → some e.key ≠ protect →
    v.Becomes (v.tiles.drop e.key) v' → Evicts protect target v' es v'' →
    Evicts protect target v (e :: es) v''

namespace Evicts

theorem of_becomes (hv : v.Sound) (hb : v.Becomes v.tiles v')
    (h : Evicts protect target v' es v'') : Evicts protect target v es v'' := by
  cases h with
  | rest h => exact .rest (hb.trans (hb.tiles ▸ h))
  | step ht he hp h hrest =>
    rw [hb.memoryUsed_eq hv] at ht
    rw [hb.tiles] at he h
    exact .step ht he hp (hb.trans h) hrest

theorem append (hv : v.Sound) (h : Evicts protect target v es v')
    (h' : Evicts protect target v' fs v'') : Evicts protect target v (es ++ fs) v'' := by
  induction h with
  | rest hb => exact h'.of_becomes hv hb
  | step ht he hp hb _ ih => exact .step ht he hp hb (ih hb.sound h')

/-- What is left when the victims are gone. -/
theorem becomes (h : Evicts protect target v es v') :
    v.Becomes (v.tiles.dropAll (es.map (·.key))) v' := by
  induction h with
  | rest hb => rwa [List.map_nil, Tiles.dropAll_nil]
  | step _ _ _ hb _ ih =>
    rw [hb.tiles, Tiles.dropAll_drop] at ih
    exact hb.trans ih

/-- The victims are entries, and the other entries are left. -/
theorem perm (hv : v.Sound) (h : Evicts protect target v es v') :
    v.entries.Perm (es ++ v'.entries) := by
  induction h with
  | rest hb => exact hb.perm hv
  | step _ he _ hb _ ih => exact (hb.perm_drop hv he).trans ((ih hb.sound).cons _)

theorem ne_protect (h : Evicts protect target v es v') : ∀ e ∈ es, some e.key ≠ protect := by
  induction h with
  | rest _ => nofun
  | step _ _ hp _ _ ih =>
    rintro f hf
    rcases List.mem_cons.1 hf with rfl | hf
    · exact hp
    · exact ih f hf

/-- Right before each eviction the memory is still above the target. -/
theorem exists_before {pre post : List Entry} (h : Evicts protect target v (pre ++ e :: post) v')
    (hv : v.Sound) :
    ∃ u, Evicts protect target v pre u ∧ target < u.ledger.memoryUsed := by
  induction pre generalizing v with
  | nil =>
    cases h with
    | step ht _ _ _ _ => exact ⟨v, .rest (.refl hv), ht⟩
  | cons f pre ih =>
    cases h with
    | step ht he hp hb hrest =>
      obtain ⟨u, hu, htu⟩ := ih hrest hb.sound
      exact ⟨u, .step ht he hp hb hu, htu⟩

end Evicts

/-- An eviction pass with its victims. It ends at the target, or when all that is left is
protected, provided that a word can count the entries. -/
structure Relieves (protect : Option TileKey) (v : Vault σ) (victims : List Entry)
    (v' : Vault σ) : Prop where
  evicts : Evicts protect v.ledger.target v victims v'
  met : v.entries.length < 2 ^ 64 →
    v'.ledger.memoryUsed ≤ v.ledger.target ∨ ∀ e ∈ v'.entries, some e.key = protect

/-- Nothing, or a pass that spares an entry if more memory is charged than the capacity allows. -/
def Restores (e : Entry) (v : Vault σ) (victims : List Entry) (v' : Vault σ) : Prop :=
  if v.ledger.isOverCapacity then Relieves (some e.key) v victims v' else victims = [] ∧ v' = v

/-- An entry is written, and a pass may follow. -/
def Writes (e : Entry) (v : Vault σ) (victims : List Entry) (v' : Vault σ) : Prop :=
  ∃ v₁, v.Becomes (v.tiles.put e) v₁ ∧ Restores e v₁ victims v'

theorem Restores.becomes (hv : v.Sound) (h : Restores e v es v') :
    v.Becomes (v.tiles.dropAll (es.map (·.key))) v' := by
  unfold Restores at h
  split at h
  · exact h.evicts.becomes
  · obtain ⟨rfl, rfl⟩ := h
    simpa using .refl hv

theorem Restores.perm (hv : v.Sound) (h : Restores e v es v') :
    v.entries.Perm (es ++ v'.entries) := by
  unfold Restores at h
  split at h
  · exact h.evicts.perm hv
  · obtain ⟨rfl, rfl⟩ := h
    exact .refl _

/-! ### Room -/

/-- The sums are exact, and will be as long as there is room. -/
structure Exact (v : Vault σ) : Prop where
  fits : Fits v.entries 0
  overhead : v.ledger.overhead ≠ 0

/-- The sum of all sizes and what an entry takes fits in a word. -/
def RoomFor (v : Vault σ) (e : Entry) : Prop :=
  total v.entries + (e.payload.footprint.toNat + v.ledger.overhead.toNat) < 2 ^ 64

/-- While a batch is written there is room for each entry in turn. -/
def RoomForAll {α : Type} (write : Entry → Mutation (Vault σ) α) (m : Moment) (owner : Owner)
    (tiles : List (Position × Payload × Option Binary64)) (v : Vault σ) : Prop :=
  ∀ es v₁, (tiles.mapM fun (p, payload, cost) => newEntry m owner p payload cost).result v =
    (.ok es, v₁) → Mutation.Along (fun e w => w.RoomFor e) write es v₁

instance decidableRoomFor (v : Vault σ) (e : Entry) : Decidable (v.RoomFor e) :=
  inferInstanceAs (Decidable (_ < _))

instance decidableRoomForAll {α : Type} (write : Entry → Mutation (Vault σ) α) (m : Moment)
    (owner : Owner) (tiles : List (Position × Payload × Option Binary64)) (v : Vault σ) :
    Decidable (v.RoomForAll write m owner tiles) :=
  Mutation.decidableOfResult _ _ _

/-- An entry for which there is room has the size that it takes. -/
theorem Exact.admits (h : v.Exact) (hr : v.RoomFor e)
    (hs : e.size = e.payload.footprint + v.ledger.overhead) : v.Admits e := by
  unfold RoomFor at hr
  have hpos : v.ledger.overhead.toNat ≠ 0 := fun h0 => h.overhead (UInt64.toNat_inj.1 h0)
  have hsize : e.size.toNat = e.payload.footprint.toNat + v.ledger.overhead.toNat := by
    rw [hs, UInt64.toNat_add]
    exact Nat.mod_eq_of_lt (by omega)
  exact ⟨⟨by omega, h.fits.size_pos⟩, by omega⟩

theorem Exact.put (hv : v.Sound) (h : v.Exact) (he : e.Proper) (ha : v.Admits e)
    (hb : v.Becomes (v.tiles.put e) v') : v'.Exact :=
  ⟨hb.fits_put hv he ha, hb.recharged.overhead ▸ h.overhead⟩

theorem Exact.of_perm (h : v.Exact) (hp : v.entries.Perm (es ++ v'.entries))
    (hr : v.ledger.Recharged v'.ledger) : v'.Exact :=
  ⟨(h.fits.perm hp).of_append_right, hr.overhead ▸ h.overhead⟩

theorem Writes.exact (hv : v.Sound) (h : v.Exact) (he : e.Proper) (ha : v.Admits e)
    (hw : v.Writes e es v') : v'.Exact := by
  obtain ⟨v₁, hb, hr⟩ := hw
  exact (h.put hv he ha hb).of_perm (hr.perm hb.sound) (hr.becomes hb.sound).recharged

theorem Writes.recharged (hw : v.Writes e es v') : v.ledger.Recharged v'.ledger := by
  obtain ⟨v₁, hb, hr⟩ := hw
  exact hb.recharged.trans (hr.becomes hb.sound).recharged

theorem Writes.sound (hw : v.Writes e es v') : v'.Sound := by
  obtain ⟨v₁, hb, hr⟩ := hw
  exact (hr.becomes hb.sound).sound

/-! ### New entries -/

/-- The entry that would be made next. -/
def upcoming (v : Vault σ) (owner : Owner) (p : Position) (payload : Payload)
    (cost : Option Binary64) : Entry :=
  .new owner p payload cost v.ledger.overhead v.ledger.nextSeq

/-- Entries of one owner that are made one after the other, from a sequence number on. -/
def madeFrom (owner : Owner) (overhead : UInt64) :
    Nat → List (Position × Payload × Option Binary64) → List Entry
  | _, [] => []
  | seq, (p, payload, cost) :: tiles =>
    .new owner p payload cost overhead seq :: madeFrom owner overhead (seq + 1) tiles

theorem length_madeFrom (owner : Owner) (overhead : UInt64) (seq : Nat)
    (tiles : List (Position × Payload × Option Binary64)) :
    (madeFrom owner overhead seq tiles).length = tiles.length := by
  induction tiles generalizing seq with
  | nil => rfl
  | cons t tiles ih => exact congrArg Nat.succ (ih (seq + 1))

/-- What entries have from their tiles, they have in the order of these. -/
theorem map_madeFrom {α : Type} {owner : Owner} {overhead : UInt64} {f : Entry → α}
    {g : Position × Payload × Option Binary64 → α}
    (h : ∀ t seq, f (.new owner t.1 t.2.1 t.2.2 overhead seq) = g t) (seq : Nat)
    (tiles : List (Position × Payload × Option Binary64)) :
    (madeFrom owner overhead seq tiles).map f = tiles.map g := by
  induction tiles generalizing seq with
  | nil => rfl
  | cons t tiles ih => exact congrArg₂ List.cons (h t seq) (ih (seq + 1))

theorem getLast?_madeFrom (owner : Owner) (overhead : UInt64) (seq : Nat)
    (tiles : List (Position × Payload × Option Binary64)) :
    (madeFrom owner overhead seq tiles).getLast? = tiles.getLast?.map fun t =>
      .new owner t.1 t.2.1 t.2.2 overhead (seq + (tiles.length - 1)) := by
  induction tiles generalizing seq with
  | nil => rfl
  | cons t tiles ih =>
    cases tiles with
    | nil => rfl
    | cons t' tiles =>
      have hlength : seq + 1 + ((t' :: tiles).length - 1) = seq + ((t :: t' :: tiles).length - 1) := by
        simp only [List.length_cons]
        omega
      rw [List.getLast?_cons_cons, ← hlength, ← ih (seq + 1)]
      exact List.getLast?_cons_cons

/-- An entry of these was made with the key and the size it should have. -/
theorem of_mem_madeFrom {owner : Owner} {overhead : UInt64} {seq : Nat}
    {tiles : List (Position × Payload × Option Binary64)} (h : e ∈ madeFrom owner overhead seq tiles) :
    e.Proper ∧ e.size = e.payload.footprint + overhead := by
  induction tiles generalizing seq with
  | nil => cases h
  | cons t tiles ih =>
    rcases List.mem_cons.1 h with rfl | h
    · exact ⟨Entry.proper_new .., rfl⟩
    · exact ih h

/-- The vault is the same but for the number of entries made. -/
def Numbered (v : Vault σ) (n : Nat) (v' : Vault σ) : Prop :=
  v'.store = v.store ∧ v'.ledger = { v.ledger with nextSeq := v.ledger.nextSeq + n }

omit [Shelved σ] in
theorem newEntry_meets {safe : Prop} (m : Moment) (owner : Owner) (p : Position)
    (payload : Payload) (cost : Option Binary64) (v : Vault σ) :
    (newEntry m owner p payload cost).Meets v safe fun e v' =>
      e = v.upcoming owner p payload cost ∧ v.Numbered 1 v' := ⟨rfl, rfl, rfl⟩

omit [Shelved σ] in
theorem newEntries_meets {safe : Prop} (m : Moment) (owner : Owner)
    (tiles : List (Position × Payload × Option Binary64)) (v : Vault σ) :
    (tiles.mapM fun (p, payload, cost) => newEntry m owner p payload cost).Meets v safe
      fun es v' => es = madeFrom owner v.ledger.overhead v.ledger.nextSeq tiles ∧
        v.Numbered tiles.length v' := by
  induction tiles generalizing v with
  | nil => exact ⟨rfl, rfl, rfl⟩
  | cons t tiles ih =>
    obtain ⟨p, payload, cost⟩ := t
    rw [List.mapM_cons, Mutation.meets_bind]
    refine (newEntry_meets m owner p payload cost v).imp ?_
    rintro _ v₁ ⟨rfl, hs, hl⟩
    rw [Mutation.meets_bind]
    refine (ih v₁).imp ?_
    rintro _ v' ⟨rfl, hs', hl'⟩
    refine ⟨?_, hs'.trans hs, ?_⟩
    · rw [hl]
      rfl
    · rw [hl', hl, List.length_cons]
      simp only [Ledger.mk.injEq, true_and, and_true]
      omega

theorem Numbered.sound {n : Nat} (hv : v.Sound) (h : v.Numbered n v') : v'.Sound := by
  obtain ⟨hs, hl⟩ := h
  refine ⟨hs ▸ hv.valid, ?_⟩
  rw [hl, entries, hs]
  exact ⟨hv.balanced.memoryUsed, hv.balanced.tileCount⟩

theorem Numbered.entries_eq {n : Nat} (h : v.Numbered n v') : v'.entries = v.entries := by
  rw [entries, h.1]
  rfl

omit [Shelved σ] in
theorem Numbered.sameBounds {n : Nat} (h : v.Numbered n v') : v.ledger.SameBounds v'.ledger := by
  rw [h.2]
  exact ⟨rfl, rfl⟩

theorem Numbered.admits {n : Nat} (h : v.Numbered n v') (ha : v.Admits e) : v'.Admits e :=
  ⟨h.entries_eq ▸ ha.fits, ha.size_pos⟩

theorem Numbered.exact {n : Nat} (hv : v.Exact) (h : v.Numbered n v') : v'.Exact := by
  obtain ⟨hs, hl⟩ := h
  refine ⟨?_, hl ▸ hv.overhead⟩
  rw [entries, hs]
  exact hv.fits

/-- While entries are written one after the other: these are left. They are sized as they should be,
and if that is safe there will be room for each in turn. -/
structure Writing {α : Type} (write : Entry → Mutation (Vault σ) α) (safe : Prop)
    (overhead : UInt64) (es : List Entry) (v : Vault σ) : Prop where
  made : ∀ e ∈ es, e.Proper ∧ e.size = e.payload.footprint + overhead
  sound : v.Sound
  overhead_eq : v.ledger.overhead = overhead
  room : safe → v.Exact ∧ Mutation.Along (fun e w => w.RoomFor e) write es v

section Writing

variable {α : Type} {write : Entry → Mutation (Vault σ) α} {safe : Prop} {overhead : UInt64}

theorem Writing.proper (h : Writing write safe overhead (e :: es) v) : e.Proper :=
  (h.made e List.mem_cons_self).1

theorem Writing.admits (h : Writing write safe overhead (e :: es) v) (hsafe : safe) :
    v.Admits e := by
  obtain ⟨hx, hroom, -⟩ := h.room hsafe
  exact hx.admits hroom (h.overhead_eq ▸ (h.made e List.mem_cons_self).2)

theorem Writing.next {a : α} (h : Writing write safe overhead (e :: es) v)
    (hw : (write e).result v = (.ok a, v')) (hs : v'.Sound) (hr : v.ledger.Recharged v'.ledger)
    (hx : safe → v'.Exact) : Writing write safe overhead es v' where
  made f hf := h.made f (List.mem_cons_of_mem e hf)
  sound := hs
  overhead_eq := hr.overhead.trans h.overhead_eq
  room hsafe := ⟨hx hsafe, (h.room hsafe).2.2 a v' hw⟩

/-- A batch is made, and can be written. -/
theorem Numbered.writing {n : Nat} {m : Moment} {owner : Owner}
    {tiles : List (Position × Payload × Option Binary64)} (hv : v.Sound) (h : v.Numbered n v')
    (hr : (tiles.mapM fun (p, payload, cost) => newEntry m owner p payload cost).result v =
      (.ok (madeFrom owner v.ledger.overhead v.ledger.nextSeq tiles), v')) :
    Writing write (v.Exact ∧ v.RoomForAll write m owner tiles) v.ledger.overhead
      (madeFrom owner v.ledger.overhead v.ledger.nextSeq tiles) v' where
  made _ := of_mem_madeFrom
  sound := h.sound hv
  overhead_eq := by rw [h.2]
  room hsafe := ⟨h.exact hsafe.1, hsafe.2 _ v' hr⟩

end Writing

/-! ### Look-ups and removals -/

/-- The vault holds and charges the same; counters may have moved. -/
structure Keeps (v v' : Vault σ) : Prop where
  sound : v'.Sound
  tiles : v'.tiles = v.tiles
  ledger : v'.ledger = { v.ledger with counters := v'.ledger.counters }
  enabled : v'.ledger.counters.enabled = v.ledger.counters.enabled

theorem Keeps.refl (h : v.Sound) : v.Keeps v := ⟨h, rfl, rfl, rfl⟩

theorem Keeps.trans (h : v.Keeps v') (h' : v'.Keeps v'') : v.Keeps v'' :=
  ⟨h'.sound, h'.tiles.trans h.tiles, by rw [h'.ledger, h.ledger], h'.enabled.trans h.enabled⟩

theorem Keeps.count (h : v.Keeps v') (x : Happening) : v.Keeps (v'.count x) := by
  refine ⟨⟨h.sound.valid, h.sound.balanced.memoryUsed, h.sound.balanced.tileCount⟩, h.tiles, ?_,
    (Counters.enabled_count _ x).trans h.enabled⟩
  rw [Vault.count, Ledger.count, h.ledger]

/-- Look-ups one after the other find what is there, if each one does. -/
theorem lookUps_meets {safe : Prop} {f : TileKey → Mutation (Vault σ) (Option Entry)}
    (hf : ∀ k w, w.Sound → (f k).Meets w safe fun found w' => found = w.tiles k ∧ w.Keeps w')
    (ks : List TileKey) (h : v.Sound) :
    (ks.mapM f).Meets v safe fun found v' => found = ks.map v.tiles ∧ v.Keeps v' := by
  have hseries : (ks.mapM f).Meets v safe fun found w =>
      Mutation.Series (fun k _ f _ => f = v.tiles k) ks v found w ∧ v.Keeps w := by
    refine Mutation.meets_mapM (fun _ w => v.Keeps w) ?_ ks v (.refl h)
    intro k ks w hw
    refine (hf k w hw.sound).imp ?_
    rintro _ w' ⟨rfl, hkeeps⟩
    exact ⟨congrFun hw.tiles k, hw.trans hkeeps⟩
  exact hseries.imp fun found w ⟨hfound, hw⟩ => ⟨hfound.eq_map, hw⟩

/-- While keys are removed one after the other: these are left. -/
structure Due (v : Vault σ) (ks : List TileKey) (w : Vault σ) : Prop where
  nodup : ks.Nodup
  found : ∀ k ∈ ks, ∃ e, w.tiles k = some e
  fits : Fits v.entries 0 → Fits w.entries 0

theorem Due.next {w w' : Vault σ} {k : TileKey} (h : Due v (k :: ks) w)
    (ht : w'.tiles = w.tiles.drop k) (hf : Fits w.entries 0 → Fits w'.entries 0) :
    Due v ks w' := by
  obtain ⟨hnotin, hd⟩ := List.nodup_cons.1 h.nodup
  refine ⟨hd, fun j hj => ?_, fun hv => hf (h.fits hv)⟩
  obtain ⟨f, hf⟩ := h.found j (List.mem_cons_of_mem k hj)
  rw [ht, Tiles.drop, if_neg fun hjk : j = k => hnotin (hjk ▸ hj)]
  exact ⟨f, hf⟩

/-- Entries under some keys are removed, one for each key. -/
structure Removes (v : Vault σ) (ks : List TileKey) (es : List Entry) (v' : Vault σ) : Prop where
  becomes : v.Becomes (v.tiles.dropAll ks) v'
  found : List.Forall₂ (fun k e => v.tiles k = some e) ks es

theorem Removes.of_eq (h : v.Removes ks es v') (hs : v''.store = v'.store)
    (hl : v''.ledger = v'.ledger) : v.Removes ks es v'' := ⟨h.becomes.of_eq hs hl, h.found⟩

theorem Removes.map_key (hv : v.Sound) (h : v.Removes ks es v') : es.map (·.key) = ks := by
  have hfound := h.found
  clear h
  induction hfound with
  | nil => rfl
  | cons he _ ih => rw [List.map_cons, ih, hv.shelf.key he]

theorem Removes.mem_iff (hv : v.Sound) (h : v.Removes ks es v') :
    e ∈ es ↔ e.key ∈ ks ∧ v.tiles e.key = some e := by
  have hfound := h.found
  clear h
  induction hfound with
  | nil => simp
  | @cons k f ks es hf _ ih =>
    simp only [List.mem_cons, ih, or_and_right]
    refine or_congr_left ⟨?_, ?_⟩
    · rintro rfl
      obtain rfl := hv.shelf.key hf
      exact ⟨rfl, hf⟩
    · rintro ⟨rfl, he⟩
      exact Option.some.inj (he.symm.trans hf)

/-- The entries removed, and those that are left. -/
theorem Removes.perm (hv : v.Sound) (h : v.Removes ks es v') (hd : ks.Nodup) :
    v.entries.Perm (es ++ v'.entries) := by
  have hleft : ∀ e, e ∈ v'.entries ↔ e.key ∉ ks ∧ v.tiles e.key = some e := by
    intro e
    rw [h.becomes.sound.shelf.mem, h.becomes.tiles, Tiles.dropAll]
    split <;> simp [*]
  have hes : es.Nodup := .of_map (·.key) (h.map_key hv ▸ hd)
  have hdisjoint : ∀ e ∈ es, ∀ f ∈ v'.entries, e ≠ f := by
    rintro e he _ hf rfl
    exact ((hleft e).1 hf).1 ((h.mem_iff hv).1 he).1
  refine (List.perm_ext_iff_of_nodup hv.shelf.nodup
    (List.nodup_append.2 ⟨hes, h.becomes.sound.shelf.nodup, hdisjoint⟩)).2 fun e => ?_
  rw [List.mem_append, h.mem_iff hv, hleft, hv.shelf.mem, ← or_and_right]
  exact (and_iff_right (em _)).symm

/-- What is removed bit by bit is in the end all that is missing. -/
theorem perm_of_series {β : Type} {xs : List β} {parts : List (List Entry)}
    (h : Mutation.Series (fun _ w es w' => w.entries.Perm (es ++ w'.entries)) xs v parts v') :
    v.entries.Perm (parts.flatten ++ v'.entries) := by
  induction h with
  | nil => exact .refl _
  | cons hes _ ih =>
    rw [List.flatten_cons, List.append_assoc]
    exact hes.trans (ih.append_left _)

/-- Keys that are removed one after the other are all removed. -/
theorem removed_of_series (h : Mutation.Series (fun k w e w' => w.tiles k = some e ∧
      w'.tiles = w.tiles.drop k ∧ w.ledger.Recharged w'.ledger) ks v es v') :
    v'.tiles = v.tiles.dropAll ks ∧ v.ledger.Recharged v'.ledger ∧
      List.Forall₂ (fun k e => v.tiles k = some e) ks es := by
  induction h with
  | nil => exact ⟨(Tiles.dropAll_nil _).symm, rfl, .nil⟩
  | cons hk _ ih =>
    obtain ⟨he, hdrop, hr⟩ := hk
    obtain ⟨hall, hr', hfound⟩ := ih
    rw [hdrop, Tiles.dropAll_drop] at hall
    refine ⟨hall, hr.trans hr', .cons he (hfound.imp fun j f hf => ?_)⟩
    rw [hdrop, Tiles.drop] at hf
    split at hf
    · cases hf
    · exact hf

omit [Shelved σ] in
/-- Removed entries are marked, which is all. -/
theorem dismiss_meets {safe : Prop} (es : List Entry) (v : Vault σ) :
    (dismiss es).Meets v safe fun notices v' =>
      notices = Notice.removed es ∧ v'.store = v.store ∧ v'.ledger = v.ledger := by
  unfold dismiss
  rw [Mutation.meets_bind]
  refine Mutation.meets_of_result (Mutation.result_forM_modify _ es v) ⟨rfl, ?_⟩
  induction es generalizing v with
  | nil => exact ⟨rfl, rfl⟩
  | cons e es ih => exact ih (v.mark e .removed)

end Vault

end TileStore
