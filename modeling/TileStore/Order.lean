import Std.Data.TreeMap

/-!
# Orders by parts

A structure is put in order by one part and then by another. Such an order is lawful, so that it
can rule a search tree, if the two parts together determine the whole.
-/

namespace TileStore

open Std (LawfulEqCmp LawfulEqOrd)

variable {α β γ : Type} [Ord β] [Ord γ]

/-- The order by one part and then by another. -/
abbrev orderBy (f : α → β) (g : α → γ) : α → α → Ordering := compareLex (compareOn f) (compareOn g)

/-- What is equal in the order by two parts that determine the whole is equal. -/
theorem lawfulEqCmp_orderBy [LawfulEqOrd β] [LawfulEqOrd γ] {f : α → β} {g : α → γ}
    (h : ∀ a b, f a = f b → g a = g b → a = b) : LawfulEqCmp (orderBy f g) where
  compare_self := by simp [orderBy, compareLex, compareOn]
  eq_of_compare {a b} hab := by
    obtain ⟨h₁, h₂⟩ := Ordering.then_eq_eq.1 hab
    exact h a b (LawfulEqOrd.eq_of_compare h₁) (LawfulEqOrd.eq_of_compare h₂)

end TileStore
