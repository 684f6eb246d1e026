import TileStore.Key
import Mathlib.Algebra.Ring.Nat

/-!
# Keys tell tiles apart

No two positions share an index and no two tiles a key, whatever their images are: `TileKey.of_inj`.
The digest plays no part in it, since a key carries its content.
-/

namespace TileStore

/-- The two halves of an index. -/
theorem Position.toNat_index (p : Position) :
    p.index.toNat = p.y.toUInt32.toNat * 2 ^ 32 + p.x.toUInt32.toNat := by
  have hx : p.x.toUInt32.toNat < 2 ^ 32 := p.x.toUInt32.toNat_lt
  have hy : p.y.toUInt32.toNat < 2 ^ 32 := p.y.toUInt32.toNat_lt
  have hshift : p.y.toUInt32.toNat <<< 32 < 2 ^ 64 := by
    rw [Nat.shiftLeft_eq]
    omega
  rw [index, UInt64.toNat_or, UInt64.toNat_shiftLeft, UInt32.toNat_toUInt64, UInt32.toNat_toUInt64]
  change p.y.toUInt32.toNat <<< 32 % 2 ^ 64 ||| _ = _
  rw [Nat.mod_eq_of_lt hshift, ← Nat.shiftLeft_add_eq_or_of_lt hx, Nat.shiftLeft_eq]

theorem Position.index_inj {p q : Position} : p.index = q.index ↔ p = q := by
  refine ⟨fun h => ?_, fun h => h ▸ rfl⟩
  have h := congrArg UInt64.toNat h
  rw [toNat_index, toNat_index] at h
  have hp : p.x.toUInt32.toNat < 2 ^ 32 := p.x.toUInt32.toNat_lt
  have hq : q.x.toUInt32.toNat < 2 ^ 32 := q.x.toUInt32.toNat_lt
  obtain ⟨⟨x⟩, ⟨y⟩⟩ := p
  obtain ⟨⟨u⟩, ⟨v⟩⟩ := q
  have hx : x = u := UInt32.toNat_inj.1 (by dsimp only at *; omega)
  have hy : y = v := UInt32.toNat_inj.1 (by dsimp only at *; omega)
  rw [hx, hy]

theorem Hex.wordBytes_inj {v w : UInt64} : wordBytes v = wordBytes w ↔ v = w := by
  refine ⟨fun h => ?_, fun h => h ▸ rfl⟩
  simp only [wordBytes, List.map_cons, List.map_nil, List.cons.injEq, and_true] at h
  apply UInt64.toNat_inj.1
  have hbyte : ∀ {a b : UInt64}, a.toUInt8 = b.toUInt8 → a.toNat % 256 = b.toNat % 256 := by
    intro a b h
    simpa using congrArg UInt8.toNat h
  obtain ⟨h₇, h₆, h₅, h₄, h₃, h₂, h₁, h₀⟩ := h
  have := hbyte h₀; have := hbyte h₁; have := hbyte h₂; have := hbyte h₃
  have := hbyte h₄; have := hbyte h₅; have := hbyte h₆; have := hbyte h₇
  have hv : v.toNat < 2 ^ 64 := v.toNat_lt
  have hw : w.toNat < 2 ^ 64 := w.toNat_lt
  simp [Nat.shiftRight_eq_div_pow] at *
  omega

@[simp] theorem Hex.length_wordBytes (w : UInt64) : (wordBytes w).length = 8 := rfl

/-- A tile is known from its content. -/
theorem TileKey.contentOf_inj {i j : Identity} {p q : Position} :
    contentOf i p = contentOf j q ↔ i = j ∧ p = q := by
  refine ⟨fun h => ?_, by rintro ⟨rfl, rfl⟩; rfl⟩
  cases i <;> cases j <;> simp only [contentOf, reduceCtorEq, TileContent.packed.injEq,
    TileContent.bytes.injEq] at h
  · exact ⟨congrArg _ h.1, Position.index_inj.1 h.2⟩
  · obtain ⟨hb, hw⟩ := List.append_inj' h
      ((Hex.length_wordBytes _).trans (Hex.length_wordBytes _).symm)
    exact ⟨congrArg _ hb, Position.index_inj.1 (Hex.wordBytes_inj.1 hw)⟩

/-- Different tiles have different keys. -/
theorem TileKey.of_inj {i j : Identity} {p q : Position} :
    TileKey.of i p = TileKey.of j q ↔ i = j ∧ p = q :=
  ⟨fun h => contentOf_inj.1 (congrArg TileKey.content h), by rintro ⟨rfl, rfl⟩; rfl⟩

/-- Different images have different keys. -/
theorem ImageKey.of_inj {i j : Identity} : ImageKey.of i = ImageKey.of j ↔ i = j :=
  ⟨fun h => congrArg ImageKey.identity h, fun h => h ▸ rfl⟩

end TileStore
