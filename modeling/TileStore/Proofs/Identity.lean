import TileStore.Proofs.Key
import TileStore.Rejection

/-!
# Identities from a mint

A mint numbers its identities from one and writes each number in eight bytes. Whoever makes an identity
from bytes of their own is trusted to keep it apart from all others, and nothing else does: the eight
bytes of a number that the mint issues are as good as any. `issued_eq_iff` says that this is the only
way in which an identity from the mint is made twice, whatever else is made before and after it, and
`issued_twice` is a case of it.
-/

namespace TileStore

/-- A way to make an identity. -/
inductive Making where
  /-- From a hash. -/
  | hashed (hash : UInt64)
  /-- From what is hashed of a value. -/
  | hashOf (content : List Piece)
  /-- From bytes that are trusted to be unique. -/
  | bytes (bs : List UInt8)
  /-- From the mint. -/
  | issued
deriving DecidableEq

namespace Making

/-- The identity that is made, and the mint afterwards. -/
def make (m : Mint) : Making → Except Rejection Identity × Mint
  | hashed hash => (.ok (.hashed hash), m)
  | hashOf content => (.ok (.ofContent content), m)
  | bytes bs => (Identity.ofBytes bs, m)
  | issued => (.ok m.issue.1, m.issue.2)

/-- What is made, one after the other. -/
def makeAll : Mint → List Making → List (Except Rejection Identity)
  | _, [] => []
  | m, x :: xs => (x.make m).1 :: makeAll (x.make m).2 xs

variable {m : Mint} {x : Making} {xs : List Making} {i j n : Nat} {a b : Identity}

/-- The mint moves on with each identity it issues, and with nothing else. -/
theorem next_make (m : Mint) (x : Making) :
    (x.make m).2.next = m.next + UInt64.ofNat ([x].count issued) := by
  cases x <;> simp [make, Mint.issue]

/-- What is made at some place is made when the mint has issued what was asked of it before. -/
theorem getElem?_makeAll (m : Mint) (xs : List Making) (i : Nat) :
    (makeAll m xs)[i]? =
      xs[i]?.map fun x => (x.make ⟨m.next + UInt64.ofNat ((xs.take i).count issued)⟩).1 := by
  induction xs generalizing m i with
  | nil => rfl
  | cons y ys ih =>
    cases i with
    | zero =>
      change some (y.make m).1 = some (y.make ⟨m.next + 0⟩).1
      rw [UInt64.add_zero]
    | succ i =>
      have hcount : ([y] ++ ys.take i).count issued = [y].count issued + (ys.take i).count issued :=
        List.count_append
      rw [List.singleton_append] at hcount
      rw [makeAll, List.getElem?_cons_succ, ih, List.getElem?_cons_succ, List.take_succ_cons, hcount,
        next_make, UInt64.ofNat_add, UInt64.add_assoc]

/-- An identity from the mint is the number of those issued so far, this one included. -/
theorem eq_of_issued (hi : xs[i]? = some issued) (ha : (makeAll .fresh xs)[i]? = some (.ok a)) :
    a = .bytes (Hex.wordBytes (UInt64.ofNat ((xs.take i).count issued + 1))) := by
  rw [getElem?_makeAll, hi, Option.map_some, Option.some.injEq] at ha
  rw [Nat.add_comm, UInt64.ofNat_add]
  exact (Except.ok.inj ha).symm

/-- Up to a place the mint has issued fewer than up to a later one if it issues one there. -/
theorem count_take_lt (hi : xs[i]? = some issued) (hij : i < j) :
    (xs.take i).count issued < (xs.take j).count issued := by
  have hone : (xs.take (i + 1)).count issued = (xs.take i).count issued + 1 := by
    rw [List.take_add_one, hi, List.count_append]
    rfl
  have hmono : (xs.take (i + 1)).count issued ≤ (xs.take j).count issued :=
    (List.take_prefix_take_left hij).sublist.count_le issued
  omega

/-- The mint issues different numbers at different places. -/
theorem count_take_ne (hi : xs[i]? = some issued) (hj : xs[j]? = some issued) (hne : i ≠ j) :
    (xs.take i).count issued ≠ (xs.take j).count issued := by
  rcases Nat.lt_or_gt_of_ne hne with h | h
  · exact Nat.ne_of_lt (count_take_lt hi h)
  · exact Nat.ne_of_gt (count_take_lt hj h)

end Making

open Making (makeAll)

/-- While the mint has numbers left, an identity that it issues is made again, before or after, exactly
by whoever passes off the eight bytes of its number as their own. That is when the images share a key,
and when tiles of theirs do. -/
theorem issued_eq_iff (xs : List Making) (hcount : xs.count .issued < 2 ^ 64) {i j : Nat} (hne : i ≠ j)
    {a b : Identity} (hi : xs[i]? = some .issued) (ha : (makeAll .fresh xs)[i]? = some (.ok a))
    (hb : (makeAll .fresh xs)[j]? = some (.ok b)) :
    let forged := xs[j]? = some (.bytes (Hex.wordBytes (UInt64.ofNat ((xs.take i).count .issued + 1))))
    (a = b ↔ forged) ∧ (ImageKey.of a = ImageKey.of b ↔ forged) ∧
      ((∃ p q, TileKey.of a p = TileKey.of b q) ↔ forged) := by
  intro forged
  have hsame : a = b ↔ forged := by
    have ha' := Making.eq_of_issued hi ha
    have hb' := hb
    rw [Making.getElem?_makeAll, Option.map_eq_some_iff] at hb'
    obtain ⟨x, hj, hx⟩ := hb'
    cases x with
    | hashed | hashOf =>
      obtain rfl := Except.ok.inj hx
      simp [forged, ha', hj, Identity.ofContent]
    | bytes bs =>
      unfold Making.make Identity.ofBytes at hx
      dsimp only at hx
      split at hx
      · cases hx
      · cases hx
        simp [forged, ha', hj, eq_comm]
    | issued =>
      have hforged : ¬forged := by simp [forged, hj]
      refine iff_of_false (fun hab => ?_) hforged
      rw [ha', Making.eq_of_issued hj hb, Identity.bytes.injEq, Hex.wordBytes_inj] at hab
      have hlt : ∀ {k}, xs[k]? = some .issued → (xs.take k).count .issued + 1 < 2 ^ 64 := by
        intro k hk
        have hlater := Making.count_take_lt hk (Nat.lt_succ_self k)
        have hall := (List.take_sublist k.succ xs).count_le Making.issued
        omega
      have htoNat := congrArg UInt64.toNat hab
      rw [UInt64.toNat_ofNat_of_lt' (hlt hi), UInt64.toNat_ofNat_of_lt' (hlt hj)] at htoNat
      exact Making.count_take_ne hi hj hne (Nat.succ.inj htoNat)
  refine ⟨hsame, ImageKey.of_inj.trans hsame, ?_⟩
  rw [← hsame]
  exact ⟨fun ⟨p, q, h⟩ => (TileKey.of_inj.1 h).1, fun h => ⟨.origin, .origin, by rw [h]⟩⟩

/-- The first identity from the mint, the bytes of its number, and the next one from the mint. -/
theorem issued_eq_iff_forged :
    let xs : List Making := [.issued, .bytes [0, 0, 0, 0, 0, 0, 0, 1], .issued]
    xs.count .issued < 2 ^ 64 ∧ ∃ a b c, makeAll .fresh xs = [.ok a, .ok b, .ok c] ∧
      ImageKey.of a = ImageKey.of b ∧ ∀ p q, TileKey.of a p ≠ TileKey.of c q := by
  intro xs
  have hcount : xs.count .issued < 2 ^ 64 := by decide
  refine ⟨hcount, .bytes (Hex.wordBytes 1), .bytes [0, 0, 0, 0, 0, 0, 0, 1], .bytes (Hex.wordBytes 2),
    rfl, ?_, fun p q h => ?_⟩
  · exact (issued_eq_iff xs hcount (i := 0) (j := 1) (by decide) rfl rfl rfl).2.1.2 (by decide)
  · have hforged :=
      (issued_eq_iff xs hcount (i := 0) (j := 2) (by decide) rfl rfl rfl).2.2.1 ⟨p, q, h⟩
    exact absurd hforged (by decide)

/-- An identity from the mint and one made from bytes may be the same, and then they share all tiles. -/
theorem issued_twice :
    ∃ a b, makeAll .fresh [.issued, .bytes [0, 0, 0, 0, 0, 0, 0, 1]] = [.ok a, .ok b] ∧ a = b ∧
      ImageKey.of a = ImageKey.of b ∧ ∀ p, TileKey.of a p = TileKey.of b p :=
  ⟨.bytes (Hex.wordBytes 1), .bytes [0, 0, 0, 0, 0, 0, 0, 1], rfl, rfl, rfl, fun _ => rfl⟩

end TileStore
