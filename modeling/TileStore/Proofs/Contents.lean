import TileStore.Proofs.Arguments
import TileStore.Proofs.Vault

/-!
# What a cache is to its users

To those who use it a cache is a map from images and positions to entries, and a number of bytes in
use: its `Contents`. What requests do is stated here in these terms alone, for both kinds of store at
once: `Serves`. A pass is any choice of victims that keeps to the rules, `Sheds`.
-/

namespace TileStore

/-- A tile: its image and its position there. -/
abbrev Tile := Identity × Position

/-- The key of a tile. -/
def Tile.key (t : Tile) : TileKey := .of t.1 t.2

/-- The tile that an entry is of. -/
def Entry.tile (e : Entry) : Tile := (e.image.identity, e.position)

/-- The entries that notices announce as evicted. -/
def Notice.victims (notices : List Notice) : List Entry :=
  notices.filterMap fun
    | .tell e .evicted => some e
    | _ => none

/-- What a cache holds. -/
@[ext] structure Contents where
  /-- The entry of each tile. -/
  get? : Tile → Option Entry
  /-- Bytes in use. -/
  used : Nat

namespace Contents

/-! ### Changes -/

/-- Nothing. -/
def empty : Contents := ⟨fun _ => none, 0⟩

/-- Bytes in use for a tile. -/
def usedFor (c : Contents) (t : Tile) : Nat := (c.get? t).elim 0 (·.size.toNat)

/-- An entry, in place of the one there was of its tile. -/
def put (c : Contents) (e : Entry) : Contents where
  get? t := if t = e.tile then some e else c.get? t
  used := c.used - c.usedFor e.tile + e.size.toNat

/-- One tile less. -/
def drop (c : Contents) (t : Tile) : Contents where
  get? u := if u = t then none else c.get? u
  used := c.used - c.usedFor t

/-- Some entries less. -/
def without (c : Contents) (es : List Entry) : Contents where
  get? t := (c.get? t).filter (· ∉ es)
  used := c.used - total es

/-- The entries of some tiles, each once. -/
def Lists (c : Contents) (P : Tile → Prop) (es : List Entry) : Prop :=
  es.Nodup ∧ ∀ e, e ∈ es ↔ P e.tile ∧ c.get? e.tile = some e

/-! ### Eviction passes -/

/-- An eviction pass. Its victims are entries that were there, not the protected one; each of them was
needed to get down to the target, and they were enough unless nothing else is left. -/
structure Sheds (target : Nat) (protect : Option Tile) (c : Contents) (victims : List Entry)
    (c' : Contents) : Prop where
  nodup : victims.Nodup
  held : ∀ e ∈ victims, c.get? e.tile = some e
  spared : ∀ e ∈ victims, some e.tile ≠ protect
  result : c' = c.without victims
  needed : ∀ before e after, victims = before ++ e :: after → target + total before < c.used
  enough : c'.used ≤ target ∨ ∀ t, (c'.get? t).isSome → some t = protect

/-- No pass. -/
def Stays (c : Contents) (victims : List Entry) (c' : Contents) : Prop := victims = [] ∧ c' = c

/-- A pass that spares an entry, if more is in use than the capacity, else none. -/
def Restored (l : Ledger) (e : Entry) (c : Contents) (victims : List Entry) (c' : Contents) : Prop :=
  if l.capacity.toNat < c.used then c.Sheds l.target.toNat (some e.tile) victims c'
  else c.Stays victims c'

/-- Entries written one after the other, each with a pass after it if need be. -/
def RestoredEach (l : Ledger) : List Entry → Contents → List Entry → Contents → Prop
  | [], c, victims, c' => c.Stays victims c'
  | e :: es, c, victims, c' => ∃ c₁ first rest, (c.put e).Restored l e first c₁ ∧
    RestoredEach l es c₁ rest c' ∧ victims = first ++ rest

/-- Entries written together: by a linked cache with a pass after each, by a sharded one with a pass
after all that spares the last. -/
def Batched (layout : Layout) (l : Ledger) (es : List Entry) (c : Contents) (victims : List Entry)
    (c' : Contents) : Prop :=
  match layout with
  | .linked => RestoredEach l es c victims c'
  | .sharded =>
    match es.getLast? with
    | none => c.Stays victims c'
    | some last => (es.foldl put c).Restored l last victims c'

/-! ### Requests -/

/-- The entries are of these positions of an image, in order, with these payloads, and are charged for
them. -/
structure Carry (image : Identity) (overhead : UInt64) (points : List Position)
    (payloads : List Payload) (es : List Entry) : Prop where
  tiles_eq : es.map (·.tile) = points.map (image, ·)
  payloads_eq : es.map (·.payload) = payloads
  sizes_eq : es.map (·.size) = payloads.map (·.footprint + overhead)

theorem carry_madeFrom {owner : Owner} {overhead : UInt64} {points : List Position}
    {payloads : List Payload} {costs : Option (List Binary64)}
    {tiles : List (Position × Payload × Option Binary64)} (h : Aligned points payloads costs tiles)
    (seq : Nat) :
    Carry owner.identity overhead points payloads (Vault.madeFrom owner overhead seq tiles) where
  tiles_eq := by
    rw [← h.points_eq, List.map_map]
    exact Vault.map_madeFrom (fun _ _ => rfl) seq tiles
  payloads_eq := by
    rw [← h.payloads_eq]
    exact Vault.map_madeFrom (fun _ _ => rfl) seq tiles
  sizes_eq := by
    rw [← h.payloads_eq, List.map_map]
    exact Vault.map_madeFrom (fun _ _ => rfl) seq tiles

/-- What a request answers, evicts and leaves, given the ledger it finds and what entries look like
when it is done. A batch is refused or taken for the tiles that its lists stand for. -/
def Serves (c : Contents) (layout : Layout) (l : Ledger) (seen : Entry → Sighting)
    (r : Request Owner Identity) (reply : Reply) (victims : List Entry) (c' : Contents) : Prop :=
  match r with
  | .add owner p payload cost =>
    let e := Entry.new owner p payload cost l.overhead l.nextSeq
    reply = .done ∧ Carry owner.identity l.overhead [p] [payload] [e] ∧
      (c.put e).Restored l e victims c'
  | .addBatch owner points payloads costs =>
    (∃ e, r.Refused e ∧ reply = .rejected e ∧ c.Stays victims c') ∨
      ∃ tiles, Aligned points payloads costs tiles ∧
        let es := Vault.madeFrom owner l.overhead l.nextSeq tiles
        reply = .accepted ∧ Carry owner.identity l.overhead points payloads es ∧
          Batched layout l es c victims c'
  | .get image p => reply = .entry ((c.get? (image, p)).map seen) ∧ c.Stays victims c'
  | .getAll image points =>
    reply = .entries (points.map fun p => (c.get? (image, p)).map seen) ∧ c.Stays victims c'
  | .tilesOf image =>
    (∃ es, c.Lists (·.1 = image) es ∧ reply = .entries (es.map (some <| seen ·))) ∧
      c.Stays victims c'
  | .contains image p => reply = .flag (c.get? (image, p)).isSome ∧ c.Stays victims c'
  | .remove image p =>
    reply = .entry ((c.get? (image, p)).map seen) ∧ (c.drop (image, p)).Stays victims c'
  | .removeImage image =>
    ∃ es, c.Lists (·.1 = image) es ∧ reply = .count es.length ∧ (c.without es).Stays victims c'
  | .flush => reply = .done ∧ empty.Stays victims c'
  | .relieve => reply = .done ∧ c.Sheds l.target.toNat none victims c'
  | .setCapacity bytes =>
    r.Replies reply ∧
      if bytes ≠ 0 ∧ bytes.toNat < c.used then
        c.Sheds { l with capacity := bytes }.target.toNat none victims c'
      else c.Stays victims c'
  | .setThreshold _ => r.Replies reply ∧ c.Stays victims c'
  | .enable | .disable | .reset => reply = .done ∧ c.Stays victims c'
  | .report =>
    (∃ shards, reply = .report
        ⟨layout, l.counters, l.tileCount, l.memoryUsed, l.capacity, l.threshold⟩ shards) ∧
      c.Stays victims c'
  | .list =>
    (∃ es, c.Lists (fun _ => True) es ∧ reply = .entries (es.map (some <| seen ·))) ∧
      c.Stays victims c'

end Contents

end TileStore
