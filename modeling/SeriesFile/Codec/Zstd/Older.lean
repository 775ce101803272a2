import SeriesFile.Codec.Zstd.Frame
import SeriesFile.Codec.Zstd.Older.Literals
import SeriesFile.Codec.Zstd.Older.Sequences

/-!
# Frames of earlier editions

In the last four editions before the format settled, a frame is a header, blocks, and a mark of the
end, which may hold a checksum. A block takes its place in a buffer that starts again from its front
when the next block may not fit. A block that takes up nothing ends the frame like the mark does,
and one that repeats a byte is refused.
-/

namespace SeriesFile.Codec.Zstd.Older

/-! ### Headers -/

/-- What a frame is restored with: the largest block, the size of the buffer, and whether a checksum
is in the mark of the end. -/
structure Header where
  block : Nat
  capacity : Nat
  hasChecksum : Bool

namespace Header

/-- The buffer for a window. -/
def ofWindow (window : Nat) (hasChecksum : Bool) : Header :=
  let block := min window mostBlock
  { block, capacity := window + block + 16, hasChecksum }

/-- The header of the fourth and the fifth edition. The window is all that the buffer holds. -/
def readFifth (data : Bytes) : Option (Header × Bytes) := do
  let (b, data) ← data.split? 1
  if 16 ≤ b.ofLittleEndian then none
  let capacity := 2 ^ (11 + b.ofLittleEndian)
  return ({ block := mostBlock, capacity, hasChecksum := false }, data)

/-- The header of the sixth edition. The size of the restored data may follow, and is not used. -/
def readSixth (data : Bytes) : Option (Header × Bytes) := do
  let (b, data) ← data.split? 1
  let flags := b.ofLittleEndian
  if flags.testBit 5 then none
  let (_, data) ← data.split? ([0, 1, 2, 8].getD (flags / 64) 0)
  return (ofWindow (2 ^ (12 + flags % 16)) false, data)

/-- The header of the seventh edition. The size of the restored data is the window, of which there
are 32 bits, where no other is given. A frame that needs a dictionary is refused. -/
def readSeventh (data : Bytes) : Option (Header × Bytes) := do
  let (first, data) ← data.split? 1
  let flags := first.ofLittleEndian
  if flags.testBit 3 then none
  let isSingle := flags.testBit 5
  let (window, data) ← readWindow isSingle data
  let (dictionary, data) ← data.split? ([0, 1, 2, 4].getD (flags % 4) 0)
  if dictionary.ofLittleEndian ≠ 0 then none
  let length := if isSingle ∧ flags < 64 then 1 else [0, 2, 4, 8].getD (flags / 64) 0
  let (size, data) ← data.split? length
  let size := size.ofLittleEndian + if flags / 64 = 1 then 256 else 0
  let window := window.getD (size % 2 ^ 32)
  if 2 ^ 27 < window then none
  return (ofWindow (max window 1024) (flags.testBit 2), data)

def read : Edition → Bytes → Option (Header × Bytes)
  | .fourth => readFifth
  | .fifth => readFifth
  | .sixth => readSixth
  | .seventh => readSeventh

end Header

/-! ### Blocks -/

/-- The steps of a block, and what is carried to the next block. Only the seventh edition carries
anything. -/
def readSteps (edition : Edition) (carried : Carried) (data : Bytes) :
    Option (List Step × Option Tables × History) := do
  match edition with
  | .fourth => return (← readFourth data, none, carried.history)
  | .fifth => return (← readFifth data, none, carried.history)
  | .sixth =>
    let (sequences, _) ← readSequences edition none data
    return ((stepsOf ⟨1, 1, 1⟩ sequences).1, none, carried.history)
  | .seventh =>
    let (sequences, tables) ← readSequences edition carried.tables data
    let (steps, history) := stepsOf carried.history sequences
    return (steps, tables, history)

/-- Restores a block of literals and sequences. Where a copy goes, there must be room for eight
bytes. -/
def codedBlock (edition : Edition) (floor most : Nat) (carried : Carried) (data : Bytes)
    (out : Array UInt8) : Option (Carried × Array UInt8) := do
  if mostBlock < data.length + (if edition = .fourth then 0 else 1) then none
  let (literals, code, rest) ← readLiterals edition carried.code data
  let (steps, tables, history) ← readSteps edition carried rest
  return (⟨code, tables, history⟩, ← execute floor most 8 steps literals out)

/-- Restores the block after its front; the bytes after the block are left. -/
def readBlock (edition : Edition) (floor most : Nat) (isPlain : Bool) (size : Nat)
    (carried : Carried) (out : Array UInt8) (data : Bytes) :
    Option (Carried × Array UInt8 × Bytes) := do
  let (bytes, data) ← data.split? size
  if isPlain then
    if most < out.size + size then none
    return (carried, out ++ bytes, data)
  else
    let (carried, out) ← codedBlock edition floor most carried bytes out
    return (carried, out, data)

/-- The bits of a checksum that the mark of the end holds. -/
def checksum (out : Array UInt8) : Nat :=
  (XxHash64.hash 0 out.toList).toNat / 2 ^ 11 % 2 ^ 22

/-- Starts the buffer again, where another block may not fit. -/
def turn (header : Header) (restored : Restored) : Restored :=
  if header.capacity < restored.bytes.size - restored.start + header.block then
    { restored with start := restored.bytes.size, floor := restored.start }
  else restored

/-- Restores blocks, `limit` at most, into a buffer. -/
def readBlocks (edition : Edition) (header : Header) :
    (limit : Nat) → Carried → Restored → Bytes → Option (Array UInt8 × Bytes)
  | 0, _, _, _ => none
  | limit + 1, carried, restored, data => do
    let (front, data) ← data.split? 3
    let n := Bytes.ofLittleEndian front.reverse
    let kind := n / 2 ^ 22
    let size := n % 2 ^ 19
    if kind = 3 then
      if header.hasChecksum ∧ n % 2 ^ 22 ≠ checksum restored.bytes then none
      return (restored.bytes, data)
    if kind = 2 then none
    if size = 0 then return (restored.bytes, data)
    let most := restored.start + header.capacity
    let (carried, bytes, data) ←
      readBlock edition restored.floor most (kind = 1) size carried restored.bytes data
    let isMore := restored.bytes.size < bytes.size
    let restored := { restored with bytes }
    readBlocks edition header limit carried (if isMore then turn header restored else restored) data

/-! ### Frames -/

/-- The buffer of the last frame of an earlier edition. -/
structure Buffer where
  edition : Edition
  capacity : Nat

/-- Restores a frame after its first number. The buffer of a frame before is kept if it is of the
same edition and larger. -/
def readFrame (kept : Option Buffer) (edition : Edition) (data : Bytes) :
    Option (Bytes × Buffer × Bytes) := do
  let (header, data) ← Header.read edition data
  let before := ((kept.filter (·.edition = edition)).map Buffer.capacity).getD 0
  let header := { header with capacity := max before header.capacity }
  let (out, data) ← readBlocks edition header data.length .initial ⟨#[], 0, 0⟩ data
  return (out.toList, { edition, capacity := header.capacity }, data)

end SeriesFile.Codec.Zstd.Older
