import TileStore.Key
import TileStore.PowerOfTwo
import Std.Data.TreeSet

/-!
# Sets of keys and the order they are listed in

The tiles of one image are listed in an order fixed by where their keys lie in a table of buckets.
A key is looked for in groups of sixteen buckets, beginning at its digest modulo the number of
buckets and going on in steps that grow by sixteen; a new key takes the first bucket of the first
group that has one to offer. A key that leaves vacates its bucket, which counts as used up where a
search may have to pass over it. A table without room is laid out anew, in the same buckets if at
least half of what it can hold is vacated, else in more.

`members` leads from each key to its bucket and `toList` lists the keys by bucket, so that what the
set contains does not depend on the layout: `contains_insert` and `contains_erase` say what it is,
`toList_perm` that the list shows it.
-/

namespace TileStore

open Std (LawfulEqCmp ReflCmp TreeMap TreeSet)

/-- What a bucket can offer to a new key. -/
inductive Mark where
  /-- Never used since the table was laid out. -/
  | free
  /-- Used and left, and still passed over by searches. -/
  | vacated
  /-- Holds a key. -/
  | taken
deriving DecidableEq

/-- The marks of a table's buckets. Their number is a power of two. -/
structure Buckets where
  marks : Array Mark

namespace Buckets

/-- Buckets looked at together. -/
def groupWidth : Nat := 16

/-- How many buckets there are. -/
def count (b : Buckets) : Nat := b.marks.size

/-- How many keys so many buckets hold: all but one of few, seven eighths of many. -/
def capacity (count : Nat) : Nat := if count ≤ 8 then count - 1 else count / 8 * 7

/-- How many buckets hold so many keys. -/
def countFor (keys : Nat) : Nat :=
  if keys < 4 then 4 else if keys < 8 then 8 else powerOfTwoFrom (keys * 8 / 7)

/-- The table of a set that never held a key. -/
def single : Buckets := ⟨#[.free]⟩

/-- A table of unused buckets. -/
def unused (count : Nat) : Buckets := ⟨Array.replicate count .free⟩

/-- The mark of a bucket. -/
def mark (b : Buckets) (i : Nat) : Mark := b.marks[i]?.getD .free

/-- Change the mark of a bucket. -/
def set (b : Buckets) (i : Nat) (m : Mark) : Buckets := ⟨b.marks.setIfInBounds i m⟩

/-- The mark at a place of the line of places that groups are cut from: the buckets, then the first
ones again. A small table fills the rest of a group with places that are free for ever. -/
def place (b : Buckets) (i : Nat) : Mark :=
  if i < b.count then b.mark i
  else if b.count < groupWidth then
    if i < groupWidth then .free else b.mark (i - groupWidth)
  else b.mark (i - b.count)

/-- The marks of the group that starts at a place. -/
def group (b : Buckets) (start : Nat) : List Mark :=
  (List.range groupWidth).map fun i => b.place (start + i)

/-- Where the `i`th group starts that a digest is looked for in. -/
def start (b : Buckets) (hash : UInt64) (i : Nat) : Nat :=
  (hash.toNat + groupWidth * (i * (i + 1) / 2)) % b.count

/-- The bucket on offer in the first group that has one, from the `i`th on, of so many. -/
def search (b : Buckets) (hash : UInt64) (i : Nat) : Nat → Option Nat
  | 0 => none
  | groups + 1 =>
    match (b.group (b.start hash i)).findIdx? (· ≠ .taken) with
    | some j => some ((b.start hash i + j) % b.count)
    | none => b.search hash (i + 1) groups

/-- The bucket for a new key with a digest. A place of a small table that stands for no bucket sends
the key to the first bucket on offer. -/
def offer (b : Buckets) (hash : UInt64) : Nat :=
  let i := (b.search hash 0 b.count).getD 0
  if b.mark i = .taken then ((b.group 0).findIdx? (· ≠ .taken)).getD 0 else i

/-- The mark a bucket gets when its key leaves: it is free again unless it lies in a run of a whole
group's width in which nothing is. -/
def markOnLeaving (b : Buckets) (i : Nat) : Mark :=
  let before := (b.group ((i + b.count * groupWidth - groupWidth) % b.count)).reverse
  let run := (before.takeWhile (· ≠ .free)).length
    + ((b.group i).takeWhile (· ≠ .free)).length
  if groupWidth ≤ run then .vacated else .free

/-- Which of the groups a digest is looked for in has a bucket, counted from the start. -/
def groupOf (b : Buckets) (hash : UInt64) (i : Nat) : Nat :=
  (i + b.count - hash.toNat % b.count) % b.count / groupWidth

end Buckets

/-- The order of buckets with their keys: by bucket. -/
abbrev bucketOrder : Nat × TileKey → Nat × TileKey → Ordering := orderBy (·.1) (·.2)

instance : LawfulEqCmp bucketOrder := lawfulEqCmp_orderBy fun _ _ => Prod.ext

/-- A set of keys. -/
structure KeySet where
  /-- The bucket of each key. -/
  members : TreeMap TileKey Nat := {}
  buckets : Buckets := .single
  /-- How many keys can still take an unused bucket before the table is laid out anew. -/
  room : Nat := 0

/-- Keys on their way to new places among the buckets they have. -/
structure KeySet.Moving where
  /-- The key in each bucket. -/
  keys : Array (Option TileKey)
  buckets : Buckets

namespace KeySet

/-! ### Reading -/

/-- The keys, whatever their buckets. -/
def keys (s : KeySet) : List TileKey := s.members.keys

/-- Whether a key is a member. -/
def contains (s : KeySet) (k : TileKey) : Bool := s.members.contains k

/-- There is no member. -/
def isEmpty (s : KeySet) : Bool := s.members.isEmpty

/-- The members in the order of their buckets. -/
def byBucket (s : KeySet) : TreeSet (Nat × TileKey) bucketOrder :=
  .ofList (s.members.toList.map Prod.swap) bucketOrder

/-- The keys in the order of their buckets. -/
def toList (s : KeySet) : List TileKey := s.byBucket.toList.map (·.2)

/-! ### Layout -/

/-- Put a key into the bucket on offer. -/
def place (s : KeySet) (k : TileKey) : KeySet :=
  let i := s.buckets.offer k.hash
  let room := if s.buckets.mark i = .free then s.room - 1 else s.room
  { members := s.members.insert k i
    buckets := s.buckets.set i .taken
    room := room }

/-- The set laid out in unused buckets. -/
def spread (s : KeySet) (count : Nat) : KeySet :=
  s.toList.foldl place ⟨{}, .unused count, Buckets.capacity count⟩

namespace Moving

/-- Every key of a set in its bucket, none of them in its new place. A bucket with a key is marked
vacated until the key has found its place. -/
def of (s : KeySet) : Moving where
  keys := s.members.foldl (fun ks k i => ks.setIfInBounds i (some k))
    (Array.replicate s.buckets.count none)
  buckets := ⟨s.buckets.marks.map fun m => if m = .taken then .vacated else .free⟩

/-- Exchange what two buckets hold. -/
def swap (m : Moving) (i j : Nat) : Moving := { m with keys := m.keys.swapIfInBounds i j }

/-- Change the mark of a bucket. -/
def setMark (m : Moving) (i : Nat) (x : Mark) : Moving :=
  { m with buckets := m.buckets.set i x }

/-- Find the key in bucket `i` its place. A key that takes a bucket whose own key has no place yet
sends that one to bucket `i`, where it is treated in turn. -/
def settle (i : Nat) : Nat → Moving → Moving
  | 0, m => m
  | fuel + 1, m =>
    match m.buckets.mark i, m.keys[i]?.join with
    | .vacated, some k =>
      let j := m.buckets.offer k.hash
      if m.buckets.groupOf k.hash i = m.buckets.groupOf k.hash j then m.setMark i .taken
      else
        match m.buckets.mark j with
        | .free => ((m.setMark j .taken).setMark i .free).swap i j
        | _ => settle i fuel ((m.setMark j .taken).swap i j)
    | _, _ => m

/-- All keys in their new places. -/
def settleAll (m : Moving) : Moving :=
  let n := m.buckets.count
  (List.range n).foldl (fun m i => settle i n m) m

/-- The bucket of each key. -/
def places (m : Moving) : TreeMap TileKey Nat :=
  m.keys.toList.zipIdx.foldl (fun t p => p.1.elim t fun k => t.insert k p.2) {}

end Moving

/-- The set laid out anew in the buckets it has. -/
def tidy (s : KeySet) : KeySet :=
  let m := (Moving.of s).settleAll
  let places := m.places
  { members := s.members.map fun k i => places.getD k i
    buckets := m.buckets
    room := Buckets.capacity m.buckets.count - s.members.size }

/-- Make room for one more key. -/
def makeRoom (s : KeySet) : KeySet :=
  let full := Buckets.capacity s.buckets.count
  let needed := s.members.size + 1
  if 0 < s.room then s
  else if needed ≤ full / 2 then s.tidy
  else s.spread (Buckets.countFor (max needed (full + 1)))

/-! ### Operations -/

/-- Add a key. -/
def insert (s : KeySet) (k : TileKey) : KeySet :=
  if s.contains k then s.makeRoom else s.makeRoom.place k

/-- Remove a key. -/
def erase (s : KeySet) (k : TileKey) : KeySet :=
  match s.members[k]? with
  | none => s
  | some i =>
    let m := s.buckets.markOnLeaving i
    { members := s.members.erase k
      buckets := s.buckets.set i m
      room := if m = .free then s.room + 1 else s.room }

/-- The set without a key, if another key is left. -/
def without? (s : KeySet) (k : TileKey) : Option KeySet :=
  let rest := s.erase k
  if rest.isEmpty then none else some rest

/-! ### What the layout does not change -/

theorem contains_iff (s : KeySet) (k : TileKey) : s.contains k ↔ k ∈ s.keys :=
  TreeMap.mem_keys.symm

theorem contains_iff_exists (s : KeySet) (k : TileKey) :
    s.contains k ↔ ∃ i, s.members[k]? = some i := by
  rw [contains, TreeMap.contains_eq_isSome_getElem?, Option.isSome_iff_exists]

theorem isEmpty_iff (s : KeySet) : s.isEmpty ↔ ∀ k, s.contains k = false :=
  TreeMap.isEmpty_iff_forall_contains

theorem nodup_keys (s : KeySet) : s.keys.Nodup := TreeMap.nodup_keys

theorem mem_byBucket (s : KeySet) (i : Nat) (k : TileKey) :
    (i, k) ∈ s.byBucket ↔ s.members[k]? = some i := by
  rw [byBucket, TreeSet.mem_ofList, List.contains_iff_mem, List.mem_map,
    ← TreeMap.mem_toList_iff_getElem?_eq_some]
  refine ⟨?_, fun h => ⟨_, h, rfl⟩⟩
  rintro ⟨⟨_, _⟩, hp, he⟩
  cases he
  exact hp

theorem mem_toList (s : KeySet) (k : TileKey) : k ∈ s.toList ↔ s.contains k := by
  simp [toList, mem_byBucket, contains_iff_exists]

theorem nodup_toList (s : KeySet) : s.toList.Nodup := by
  refine List.pairwise_map.2 ((TreeSet.distinct_toList (t := s.byBucket)).imp_of_mem ?_)
  rintro ⟨i, k⟩ ⟨j, l⟩ hp hq hne (rfl : k = l)
  rw [TreeSet.mem_toList, mem_byBucket] at hp hq
  cases hp.symm.trans hq
  exact hne ReflCmp.compare_self

/-- Listing a set shows each key once. -/
theorem toList_perm (s : KeySet) : s.toList.Perm s.keys :=
  (List.perm_ext_iff_of_nodup s.nodup_toList s.nodup_keys).2 fun k =>
    (s.mem_toList k).trans (s.contains_iff k)

theorem contains_place (s : KeySet) (k j : TileKey) :
    (s.place k).contains j ↔ j = k ∨ s.contains j := by
  rw [contains, place, TreeMap.contains_insert, Bool.or_eq_true, beq_iff_eq,
    Std.compare_eq_iff_eq, eq_comm]
  rfl

theorem contains_foldl_place (ks : List TileKey) (s : KeySet) (j : TileKey) :
    (ks.foldl place s).contains j ↔ j ∈ ks ∨ s.contains j := by
  induction ks generalizing s with
  | nil => simp
  | cons k ks ih => simp [ih, contains_place, or_left_comm, or_assoc]

theorem contains_spread (s : KeySet) (count : Nat) (j : TileKey) :
    (s.spread count).contains j = s.contains j := by
  rw [Bool.eq_iff_iff, spread, contains_foldl_place, mem_toList]
  exact or_iff_left (by simp [contains_iff_exists])

theorem contains_tidy (s : KeySet) (j : TileKey) : s.tidy.contains j = s.contains j :=
  TreeMap.contains_map

theorem contains_makeRoom (s : KeySet) (j : TileKey) : s.makeRoom.contains j = s.contains j := by
  unfold makeRoom
  dsimp only
  split
  · rfl
  · split
    · exact s.contains_tidy j
    · exact s.contains_spread _ j

/-- Adding a key adds it and nothing else. -/
theorem contains_insert (s : KeySet) (k j : TileKey) :
    (s.insert k).contains j ↔ j = k ∨ s.contains j := by
  unfold insert
  split
  · next h =>
    rw [contains_makeRoom]
    exact ⟨.inr, fun hj => hj.elim (fun e => e ▸ h) id⟩
  · rw [contains_place, contains_makeRoom]

/-- Removing a key removes it and nothing else. -/
theorem contains_erase (s : KeySet) (k j : TileKey) :
    (s.erase k).contains j ↔ j ≠ k ∧ s.contains j := by
  unfold erase
  split
  · next h =>
    refine ⟨fun hj => ⟨?_, hj⟩, And.right⟩
    rintro rfl
    simp [contains_iff_exists, h] at hj
  · rw [contains, TreeMap.contains_erase, Bool.and_eq_true, bne_iff_ne, ne_eq,
      Std.compare_eq_iff_eq, eq_comm]
    rfl

/-- A set of which nothing is left contains nothing. -/
theorem contains_without? (s : KeySet) (k j : TileKey) :
    (s.without? k).elim false (·.contains j) ↔ j ≠ k ∧ s.contains j := by
  rw [← contains_erase, without?]
  split
  · next h => simp [(isEmpty_iff _).1 h]
  · simp

end KeySet

end TileStore
