import SeriesFile.Bytes.Bits

/-!
# Bits read backward, by place

The bits of some bytes are read from their end on, eight bytes being in view at a time. Where they
are not refused for it, reads go on past the last bit: what is beyond it counts as 0, but a read
that starts beyond it starts in the last eight bytes again.
-/

namespace SeriesFile.Codec.Zstd

/-- Bits in the order in which they are read, and the place of the first after those that only mark
the end. -/
structure BackwardBits where
  bits : Array Bool
  start : Nat

namespace BackwardBits

/-- The bits of some bytes, read as eight if they are fewer. -/
def ofBytes (bytes : Bytes) : BackwardBits :=
  let last := (bytes.getLast?.getD 0).toNat
  { bits := (Bits.unpack (bytes ++ List.replicate (8 - bytes.length) 0).reverse).toArray
    start := 8 * (8 - bytes.length) + if last = 0 then 0 else 8 - last.log2 }

/-- The bits of some bytes, of which the last must mark the end. -/
def ofBytes? (bytes : Bytes) : Option BackwardBits :=
  if bytes.getLast?.getD 0 = 0 then none else some (ofBytes bytes)

/-- Where reading goes on. -/
def settle (s : BackwardBits) (place : Nat) : Nat :=
  if place < s.bits.size then place else s.bits.size - 64 + (place - s.bits.size) % 64

/-- The number of `n` bits at a place, the highest first. -/
def numberAt (s : BackwardBits) (n place : Nat) : Nat :=
  Bits.toNat ((List.range n).map fun i => s.bits.getD (s.settle place + i) false)

end BackwardBits

end SeriesFile.Codec.Zstd
