import SeriesFile.Bytes.Bits

/-!
# Timestamps as changed bits

The first timestamp is written in 64 bits. A later one is written as the change of its distance
from the one before: a steady rhythm costs a bit for each timestamp. Distances and their changes
wrap around, so every sequence of timestamps can be written.

| change            | bits                       |
|-------------------|----------------------------|
| 0                 | `0`                        |
| -63 to 64         | `10`, then 7 bits          |
| -255 to 256       | `110`, then 9 bits         |
| -2047 to 2048     | `1110`, then 12 bits       |
| any other         | `1111`, then 64 bits       |

A change in one of the three middle ranges is counted from the range's least value.
-/

namespace SeriesFile.Page.TimeBits

/-- The change of a distance, in the shortest form whose range holds it. -/
def encodeChange (change : Int64) : List Bool :=
  let c := change.toInt
  if c = 0 then [false]
  else if -63 ≤ c ∧ c ≤ 64 then [true, false] ++ Bits.ofNat 7 (c + 63).toNat
  else if -255 ≤ c ∧ c ≤ 256 then [true, true, false] ++ Bits.ofNat 9 (c + 255).toNat
  else if -2047 ≤ c ∧ c ≤ 2048 then [true, true, true, false] ++ Bits.ofNat 12 (c + 2047).toNat
  else [true, true, true, true] ++ Bits.ofNat 64 change.toUInt64.toNat

/-- A number counted from the least value of its range. -/
def readOffset (width : Nat) (least : Int) : Bits.Reader Int64 := do
  return Int64.ofInt (Int.ofNat (← Bits.Reader.nat width) + least)

/-- The change of a distance. -/
def readChange : Bits.Reader Int64 := do
  if !(← Bits.Reader.bit) then return 0
  if !(← Bits.Reader.bit) then return ← readOffset 7 (-63)
  if !(← Bits.Reader.bit) then return ← readOffset 9 (-255)
  if !(← Bits.Reader.bit) then return ← readOffset 12 (-2047)
  return (UInt64.ofNat (← Bits.Reader.nat 64)).toInt64

/-- The timestamps after `previous`, which had the given distance from the one before it. -/
def encodeFollowing (previous distance : Int64) : List Int64 → List Bool
  | [] => []
  | t :: times =>
    encodeChange (t - previous - distance) ++ encodeFollowing t (t - previous) times

def encodeBits : List Int64 → List Bool
  | [] => []
  | t :: times => Bits.ofNat 64 t.toUInt64.toNat ++ encodeFollowing t 0 times

/-- The next `count` timestamps after `previous`. -/
def readFollowing (previous distance : Int64) : (count : Nat) → Bits.Reader (List Int64)
  | 0 => pure []
  | count + 1 => do
    let change ← readChange
    let distance := distance + change
    let t := previous + distance
    let times ← readFollowing t distance count
    return t :: times

def readBits : (count : Nat) → Bits.Reader (List Int64)
  | 0 => pure []
  | count + 1 => do
    let t := (UInt64.ofNat (← Bits.Reader.nat 64)).toInt64
    let times ← readFollowing t 0 count
    return t :: times

def encode (times : List Int64) : Bytes :=
  Bits.pack (encodeBits times)

def decode (count : Nat) : Reader (List Int64) :=
  (readBits count).onBytes

end SeriesFile.Page.TimeBits
