import TileStore.Binary64

/-!
# Decimal texts of binary64 numbers

A finite number is written with the fewest decimal digits that read back to it. The reals that
round to a number form an interval, closed when its significand is even; `shortest` tries grids of
1, 2, … 17 digits and takes from the first grid with a point in the interval the point nearest to
the number. A `Notation` then says how such digits are laid out.
-/

namespace TileStore.Binary64

/-! ### The fewest digits -/

/-- The decimal number `digits * 10 ^ exponent`. -/
structure Decimal where
  digits : Nat
  exponent : Int
deriving DecidableEq

/-- `10 ^ e` as a ratio. -/
def tenPower (e : Int) : Nat × Nat := (Nat.pow 10 e.toNat, Nat.pow 10 (-e).toNat)

/-- Quarter units in one: in quarter units the ends of every rounding interval are whole. -/
def quartersPerOne : Nat := 4 * unitsPerOne

/-- The magnitude in quarter units, with the two ends of the interval that rounds to it. Below a
power of two the neighbour is only half as far. -/
def interval (x : Binary64) : Nat × Nat × Nat :=
  let step := 1 <<< x.shift
  let down := if x.significand = exponentStep ∧ 0 < x.shift then step else 2 * step
  (4 * x.units - down, 4 * x.units, 4 * x.units + 2 * step)

/-- The exponent of the first decimal digit of a number other than zero. -/
def leadingExponent (x : Binary64) : Int :=
  ((Nat.toDigits 10 (x.units * Nat.pow 10 400 / unitsPerOne)).length : Int) - 401

/-- The point nearest to `x` among the two neighbours of `x` on the grid of multiples of
`10 ^ e`, if it reads back; of two points equally near the greater. -/
def onGrid? (x : Binary64) (e : Int) : Option Nat :=
  let (low, value, high) := x.interval
  let (num, den) := tenPower e
  let cell := num * quartersPerOne
  let reads (d : Nat) : Bool :=
    if x.significand % 2 = 0 then low * den ≤ d * cell ∧ d * cell ≤ high * den
    else low * den < d * cell ∧ d * cell < high * den
  let below := value * den / cell
  let rest := value * den % cell
  match reads below, reads (below + 1) with
  | true, true => some (if 2 * rest < cell then below else below + 1)
  | true, false => some below
  | false, true => some (below + 1)
  | false, false => none

/-- The decimal without its final zeros; the fuel bounds how many are dropped. -/
def Decimal.trim : Nat → Decimal → Decimal
  | fuel + 1, ⟨digits, exponent⟩ =>
    if digits ≠ 0 ∧ digits % 10 = 0 then trim fuel ⟨digits / 10, exponent + 1⟩
    else ⟨digits, exponent⟩
  | 0, d => d

/-- The decimal with the fewest digits that rounds to the magnitude of a finite number other than
zero, and the nearest of those. -/
def shortest (x : Binary64) : Decimal :=
  let found := (List.range 17).findSome? fun k : Nat =>
    let e := x.leadingExponent - k
    (x.onGrid? e).map (Decimal.mk · e)
  (found.getD ⟨x.units, 0⟩).trim 20

/-! ### Layout -/

/-- How a number is laid out as text. -/
structure Notation where
  /-- Whether a number whose first digit has this exponent is written without an exponent. -/
  positional : Int → Bool
  /-- What follows the digits of a whole number that is written without an exponent. -/
  wholeSuffix : String

/-- No exponent ever, and nothing after a whole number: `2`, `-0.0000001`, `NaN`. -/
def Notation.plain : Notation := ⟨fun _ => true, ""⟩

/-- Recognisable as no integer: an exponent below `10 ^ (-4)` and from `10 ^ 16` on, and `.0` after
a whole number: `2.0`, `1e-7`, `1.5e300`. -/
def Notation.marked : Notation := ⟨fun e => -4 ≤ e && e < 16, ".0"⟩

/-- Digits with the point `places` digits from the right. -/
def pointed (digits : List Char) (places : Nat) : List Char :=
  let padded := List.replicate (places + 1 - digits.length) '0' ++ digits
  padded.take (padded.length - places) ++ '.' :: padded.drop (padded.length - places)

/-- The text of a decimal. -/
def Notation.decimalText (style : Notation) (d : Decimal) : String :=
  let digits := Nat.toDigits 10 d.digits
  let leading := d.exponent + digits.length - 1
  if style.positional leading then
    if 0 ≤ d.exponent then
      String.ofList (digits ++ List.replicate d.exponent.toNat '0') ++ style.wholeSuffix
    else String.ofList (pointed digits (-d.exponent).toNat)
  else
    let mantissa := if digits.length = 1 then digits else pointed digits (digits.length - 1)
    String.ofList mantissa ++ "e" ++ toString leading

/-- The text of a number. -/
def text (style : Notation) (x : Binary64) : String :=
  if x.isNaN then "NaN"
  else
    (if x.isNegative then "-" else "") ++
      if x.isInfinite then "inf"
      else if x.isZero then "0" ++ style.wholeSuffix
      else style.decimalText x.shortest

end TileStore.Binary64
