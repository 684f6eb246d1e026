/-!
# Tile payloads

A cache needs to know of a tile only how much memory its samples take: the footprint of its shape,
in 64-bit arithmetic. A `Raster` is a payload with real samples, kept as banks of bytes.
-/

namespace TileStore

/-! ### Shapes -/

/-- The shape of a tile's samples. -/
structure Shape where
  /-- Bits of one sample. -/
  sampleBits : UInt64
  /-- Samples in each bank. -/
  elements : UInt64
  banks : UInt64
deriving DecidableEq

/-- Bytes the samples take. -/
def Shape.footprint (s : Shape) : UInt64 := s.sampleBits / 8 * s.elements * s.banks

/-- A tile as the cache sees it: a shape, and a tag that tells tiles apart. -/
structure Payload extends Shape where
  tag : UInt64
deriving DecidableEq

/-! ### Rasters -/

/-- The type of one sample. -/
inductive SampleType where
  | u8 | i16 | u16 | i32 | f32 | f64
deriving DecidableEq

namespace SampleType

/-- Bits of one sample. -/
def bits : SampleType → Nat
  | .u8 => 8
  | .i16 | .u16 => 16
  | .i32 | .f32 => 32
  | .f64 => 64

/-- Bytes of one sample. -/
def bytes (t : SampleType) : Nat := t.bits / 8

/-- The name of a type. -/
def name : SampleType → String
  | .u8 => "U8"
  | .i16 => "I16"
  | .u16 => "U16"
  | .i32 => "I32"
  | .f32 => "F32"
  | .f64 => "F64"

/-- All types. -/
def all : List SampleType := [.u8, .i16, .u16, .i32, .f32, .f64]

/-- The type with a name. -/
def ofName? (s : String) : Option SampleType := all.find? (·.name = s)

@[simp] theorem ofName?_name (t : SampleType) : ofName? t.name = some t := by cases t <;> rfl

end SampleType

/-- A tile with its samples. -/
structure Raster where
  sampleType : SampleType
  /-- Samples in each bank. -/
  elements : UInt64
  banks : List (List UInt8)
deriving DecidableEq

namespace Raster

/-- Bytes of so many samples, in 64-bit arithmetic. -/
def bankBytes (t : SampleType) (elements : UInt64) : Nat :=
  (elements * UInt64.ofNat t.bytes).toNat

/-- A raster whose every byte is `value`. -/
def filled (t : SampleType) (elements : UInt64) (bankCount : Nat) (value : UInt8) : Raster :=
  ⟨t, elements, (List.range bankCount).map fun _ => List.replicate (bankBytes t elements) value⟩

/-- A raster of zeros. -/
def blank (t : SampleType) (elements : UInt64) (bankCount : Nat) : Raster :=
  filled t elements bankCount 0

/-- The raster with these banks, if all have one length and hold whole samples. -/
def ofBanks? (t : SampleType) (banks : List (List UInt8)) : Option Raster :=
  let n := (banks.head?.map List.length).getD 0
  if n % t.bytes = 0 ∧ banks.all (·.length = n) then
    some ⟨t, UInt64.ofNat (n / t.bytes), banks⟩
  else none

/-- The bytes of a bank. -/
def bank? (r : Raster) (i : Nat) : Option (List UInt8) := r.banks[i]?

/-- The shape of a raster. -/
def shape (r : Raster) : Shape :=
  ⟨UInt64.ofNat r.sampleType.bits, r.elements, UInt64.ofNat r.banks.length⟩

end Raster

end TileStore
