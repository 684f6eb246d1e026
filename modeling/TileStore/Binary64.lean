/-!
# Binary64 numbers as bit patterns

Costs, thresholds and ratios are binary64 numbers. They are kept as their bit patterns, and every
operation is exact arithmetic on natural numbers followed by one rounding, so that each result can
be computed and reasoned about without a floating-point unit.

Every finite number is a whole multiple of `2 ^ (-1074)`, the least positive one; `units` is that
multiple for the magnitude. The bit patterns of the non-negative numbers are ordered as their
values, which is what makes `ofRatio` a sum: a number `r * 2 ^ s` with `2 ^ 52 ≤ r` has the
pattern `s * 2 ^ 52 + r`.
-/

namespace TileStore

/-- A binary64 number, given by its bit pattern. -/
structure Binary64 where
  /-- The sign, the exponent field and the fraction, from the highest bit down. -/
  bits : UInt64
deriving DecidableEq, Inhabited

namespace Binary64

/-! ### Fields -/

/-- The pattern of the sign alone. -/
def signBit : Nat := 1 <<< 63

/-- The pattern of the least positive exponent alone. The patterns below it are the fractions. -/
def exponentStep : Nat := 1 <<< 52

/-- The sign bit is set. -/
def isNegative (x : Binary64) : Bool := signBit ≤ x.bits.toNat

/-- The pattern without the sign bit. -/
def magnitude (x : Binary64) : Nat := x.bits.toNat % signBit

/-- The pattern of positive infinity. -/
def infinityBits : Nat := 2047 * exponentStep

/-- Not a number. -/
def isNaN (x : Binary64) : Bool := infinityBits < x.magnitude

/-- Infinite, of either sign. -/
def isInfinite (x : Binary64) : Bool := x.magnitude = infinityBits

/-- Zero, of either sign. -/
def isZero (x : Binary64) : Bool := x.magnitude = 0

/-- The significand: the fraction, with the leading one of a normal number. -/
def significand (x : Binary64) : Nat :=
  if x.magnitude < exponentStep then x.magnitude else exponentStep + x.magnitude % exponentStep

/-- How far the significand is shifted: `units = significand * 2 ^ shift`. -/
def shift (x : Binary64) : Nat := x.magnitude / exponentStep - 1

/-- The magnitude as a multiple of `2 ^ (-1074)`. Infinity counts as the number that would follow
the greatest finite one. -/
def units (x : Binary64) : Nat := x.significand <<< x.shift

/-- How many units make one. -/
def unitsPerOne : Nat := 1 <<< 1074

/-! ### Numbers -/

/-- The number with the given sign and magnitude. -/
def ofMagnitude (negative : Bool) (m : Nat) : Binary64 :=
  ⟨UInt64.ofNat (if negative then signBit + m else m)⟩

/-- Positive zero. -/
def zero : Binary64 := ⟨0⟩

/-- One. -/
def one : Binary64 := ⟨0x3ff0000000000000⟩

/-- The NaN that operations give. -/
def nan : Binary64 := ⟨0x7ff8000000000000⟩

/-- The quotient `num / den`, to the nearest whole number; a half goes to the even neighbour. -/
def roundedQuotient (num den : Nat) : Nat :=
  let q := num / den
  let twice := 2 * (num % den)
  if den < twice ∨ (twice = den ∧ q % 2 = 1) then q + 1 else q

/-- The magnitude nearest to `num / den`; a tie goes to the even pattern, and what is beyond the
greatest finite number is infinite. -/
def magnitudeOfRatio (num den : Nat) : Nat :=
  let scaled := num * unitsPerOne
  let s := (scaled / den).log2 - 52
  min (s * exponentStep + roundedQuotient scaled (den <<< s)) infinityBits

/-- The number nearest to `num / den`. -/
def ofRatio (num den : Nat) : Binary64 := ofMagnitude false (magnitudeOfRatio num den)

/-- The number nearest to a natural number. -/
def ofNat (n : Nat) : Binary64 := ofRatio n 1

/-- The product, rounded once. -/
def mul (x y : Binary64) : Binary64 :=
  if x.isNaN || y.isNaN || (x.isInfinite && y.isZero) || (x.isZero && y.isInfinite) then nan
  else
    ofMagnitude (x.isNegative != y.isNegative) <|
      if x.isInfinite || y.isInfinite then infinityBits
      else magnitudeOfRatio (x.units * y.units) (unitsPerOne * unitsPerOne)

/-- The quotient of two finite numbers of which the second is not zero, rounded once. -/
def div (x y : Binary64) : Binary64 :=
  ofMagnitude (x.isNegative != y.isNegative) (magnitudeOfRatio x.units y.units)

/-- The whole part as a word: what is negative or no number gives 0, what is too large the
greatest word. -/
def toWord (x : Binary64) : UInt64 :=
  if x.isNaN || x.isNegative then 0
  else UInt64.ofNat (min (x.units / unitsPerOne) (UInt64.size - 1))

/-! ### Order -/

/-- Greater than zero. -/
def isPositive (x : Binary64) : Bool := !x.isNaN && !x.isNegative && !x.isZero

/-- Between zero and one, both included. Negative zero is zero, and a NaN lies nowhere. -/
def isFraction (x : Binary64) : Bool :=
  !x.isNaN && (x.isZero || (!x.isNegative && x.magnitude ≤ one.magnitude))

/-- A number's place in the total order of all patterns: the negative ones below the others, each
further down the greater its magnitude. -/
def place (x : Binary64) : Int :=
  if x.isNegative then -1 - (x.magnitude : Int) else x.magnitude

/-- The total order of all patterns. -/
def totalCompare (x y : Binary64) : Ordering := compare x.place y.place

end Binary64

end TileStore
