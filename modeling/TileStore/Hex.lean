/-!
# Hexadecimal texts

Words and byte strings are written in lower-case hexadecimal digits, two for each byte and the
highest first.
-/

namespace TileStore.Hex

/-- The two digits of a byte. -/
def ofByte (b : UInt8) : List Char := [Nat.digitChar (b.toNat / 16), Nat.digitChar (b.toNat % 16)]

/-- The digits of a byte string. -/
def ofBytes (bs : List UInt8) : String := String.ofList (bs.flatMap ofByte)

/-- The eight bytes of a word, the highest first. -/
def wordBytes (w : UInt64) : List UInt8 :=
  [w >>> 56, w >>> 48, w >>> 40, w >>> 32, w >>> 24, w >>> 16, w >>> 8, w].map (·.toUInt8)

/-- The sixteen digits of a word. -/
def ofWord (w : UInt64) : String := ofBytes (wordBytes w)

end TileStore.Hex
