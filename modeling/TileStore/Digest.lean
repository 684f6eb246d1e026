/-!
# Keyed digests

A key is found by a 64-bit digest of its content. The content is a list of pieces, single words
and byte strings; a digest absorbs one piece after the other into a buffer and is finished by
mixing the buffer with a pad. The mixing step is the folded product: both halves of a 128-bit
product, one exclusive-or the other. All keys share one set of four seeds, so equal contents have
equal digests.
-/

namespace TileStore

/-- A piece of a key's content. -/
inductive Piece where
  /-- One word. -/
  | word (w : UInt64)
  /-- A byte string. -/
  | bytes (bs : List UInt8)
deriving DecidableEq

/-- The word turned left by `n` bits. -/
def rotateLeft (w n : UInt64) : UInt64 := (w <<< n) ||| (w >>> (64 - n))

/-- The low half of the 128-bit product, exclusive-or its high half. -/
def foldedProduct (a b : UInt64) : UInt64 :=
  let p := a.toNat * b.toNat
  UInt64.ofNat p ^^^ UInt64.ofNat (p >>> 64)

/-- A digest in the making. -/
structure Digest where
  /-- What has been absorbed. -/
  buffer : UInt64
  /-- The word the buffer is mixed with in the end. -/
  pad : UInt64

namespace Digest

/-- The odd multiplier of all mixing steps. -/
def multiplier : UInt64 := 6364136223846793005

/-- The seed of the pad. -/
def padSeed : UInt64 := 0x61174b6ebd731ba4

/-- The seed of the buffer. -/
def bufferSeed : UInt64 := 0xad4dece137997f28

/-- The seed mixed with the low half of a wide block. -/
def lowSeed : UInt64 := 0x64a51195e0e3610d

/-- The seed mixed with the high half of a wide block. -/
def highSeed : UInt64 := 0x37aa2f2d5909659e

/-- The digest of nothing. -/
def start : Digest := ⟨bufferSeed, padSeed⟩

/-- Absorb one word. -/
def word (d : Digest) (w : UInt64) : Digest :=
  { d with buffer := foldedProduct (w ^^^ d.buffer) multiplier }

/-- Absorb a block of two words. -/
def block (d : Digest) (low high : UInt64) : Digest :=
  let mixed := foldedProduct (low ^^^ lowSeed) (high ^^^ highSeed)
  { d with buffer := rotateLeft ((d.buffer + d.pad) ^^^ mixed) 23 }

/-- The word whose bytes these are, the lowest first. -/
def littleEndian (bs : List UInt8) : UInt64 := bs.foldr (fun b w => w <<< 8 ||| b.toUInt64) 0

/-- Absorb the sixteen bytes in front. -/
def block16 (d : Digest) (bs : List UInt8) : Digest :=
  d.block (littleEndian (bs.take 8)) (littleEndian ((bs.drop 8).take 8))

/-- Absorb a byte string: its length, then blocks that cover it, the last of which may overlap.
Of a long string the last sixteen bytes come first, and then all whole blocks but the last. -/
def bytes (d : Digest) (bs : List UInt8) : Digest :=
  let n := bs.length
  let d := { d with buffer := (d.buffer + UInt64.ofNat n) * multiplier }
  if 16 < n then
    (List.range ((n - 1) / 16)).foldl (fun d i => d.block16 (bs.drop (16 * i)))
      (d.block16 (bs.drop (n - 16)))
  else
    let width := if 8 < n then 8 else if 3 < n then 4 else min n 2
    let width' := if 3 < n then width else min n 1
    d.block (littleEndian (bs.take width)) (littleEndian (bs.drop (n - width')))

/-- Absorb a piece. -/
def piece (d : Digest) : Piece → Digest
  | .word w => d.word w
  | .bytes bs => d.bytes bs

/-- The finished digest. -/
def finish (d : Digest) : UInt64 := rotateLeft (foldedProduct d.buffer d.pad) (d.buffer % 64)

end Digest

/-- The digest of a content. -/
def digest (content : List Piece) : UInt64 := (content.foldl Digest.piece .start).finish

end TileStore
