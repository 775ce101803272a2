import SeriesFile.Codec.Zstd.Literals
import SeriesFile.Codec.Zstd.Sequences
import SeriesFile.Hash.XxHash64

/-!
# Frames

A frame is a header, blocks, the last of which says so, and perhaps a checksum. A block holds bytes
as they are, one byte repeated, or literals and sequences.

A frame that says how many bytes it holds is restored in one piece, if they are few and all of it
is there. Any other frame is restored block by block into a buffer that is as large as its window
and its blocks need, and that starts again from its front when the next block may not fit. The two
ways differ in what they let pass: the first knows no largest block and no largest window, and the
second does not ask for the number of bytes after a last block that is empty.
-/

namespace SeriesFile.Codec.Zstd

/-! ### Headers -/

structure Header where
  /-- The number of bytes that copies may reach back. -/
  window : Nat
  size : Option Nat
  hasChecksum : Bool

/-- The most bytes that a block restores to, if the window allows so many. -/
def Header.mostBlock (header : Header) : Nat :=
  min header.window Zstd.mostBlock

/-- The window that a byte stands for: a power of two and some eighths of it. It is below four
gigabytes. -/
def windowOf (b : Nat) : Option Nat :=
  let base := 2 ^ (10 + b / 8)
  if 10 + b / 8 ≤ 31 then some (base + base / 8 * (b % 8)) else none

/-- The size of the restored data, by the way it is written. The largest number means that it is
not known. -/
def readSize (form : Nat) (isSingle : Bool) (data : Bytes) : Option (Option Nat × Bytes) := do
  match form with
  | 0 =>
    if isSingle then
      let (n, rest) ← data.split? 1
      return (some n.ofLittleEndian, rest)
    else return (none, data)
  | 1 =>
    let (n, rest) ← data.split? 2
    return (some (n.ofLittleEndian + 256), rest)
  | 2 =>
    let (n, rest) ← data.split? 4
    return (some n.ofLittleEndian, rest)
  | _ =>
    let (n, rest) ← data.split? 8
    let size := n.ofLittleEndian
    return (if size = 2 ^ 64 - 1 then none else some size, rest)

/-- The window of a frame, where it is given apart from the size. -/
def readWindow (isSingle : Bool) (data : Bytes) : Option (Option Nat × Bytes) := do
  if isSingle then return (none, data)
  let (b, rest) ← data.split? 1
  return (some (← windowOf b.ofLittleEndian), rest)

/-- The header of a frame, and the bytes after it. A frame that needs a dictionary is refused. -/
def Header.read (data : Bytes) : Option (Header × Bytes) := do
  let (first, data) ← data.split? 1
  let flags := first.ofLittleEndian
  -- This bit is kept for later versions of the format.
  if flags.testBit 3 then none
  let isSingle := flags.testBit 5
  let (window, data) ← readWindow isSingle data
  let (dictionary, data) ← data.split? ([0, 1, 2, 4].getD (flags % 4) 0)
  if dictionary.ofLittleEndian ≠ 0 then none
  let (size, data) ← readSize (flags / 64) isSingle data
  -- A frame in one piece needs no window but itself.
  let window := window.getD (size.getD (2 ^ 64 - 1))
  return ({ window, size, hasChecksum := flags.testBit 2 }, data)

/-! ### Blocks -/

inductive BlockKind where
  | plain
  | repeated
  | coded
  deriving DecidableEq, Repr

/-- The front of a block. A repeated byte stands for as many bytes as the size says, all else takes
up so many. -/
structure BlockHeader where
  isLast : Bool
  kind : BlockKind
  size : Nat

namespace BlockHeader

def write (header : BlockHeader) : Bytes :=
  let kind := match header.kind with
    | .plain => 0
    | .repeated => 1
    | .coded => 2
  Bytes.littleEndian 3 ((if header.isLast then 1 else 0) + 2 * kind + 8 * header.size)

def read (data : Bytes) : Option (BlockHeader × Bytes) := do
  let (header, data) ← data.split? 3
  let n := header.ofLittleEndian
  let kind ← match n / 2 % 4 with
    | 0 => some BlockKind.plain
    | 1 => some .repeated
    | 2 => some .coded
    | _ => none
  return ({ isLast := n % 2 = 1, kind, size := n / 8 }, data)

def length (header : BlockHeader) : Nat :=
  if header.kind = .repeated then 1 else header.size

end BlockHeader

/-- What is carried from one block of a frame to the next. -/
structure Carried where
  code : Option LiteralCode
  tables : Option Tables
  history : History

def Carried.initial : Carried := ⟨none, none, .initial⟩

/-- How a block is restored: how many bytes it may take up or hold as literals, where copies may
start, and how many bytes there may be in all. -/
structure Bounds where
  block : Nat
  floor : Nat
  total : Nat

/-- Restores a block of literals and sequences. -/
def codedBlock (bounds : Bounds) (carried : Carried) (data : Bytes) (out : Array UInt8) :
    Option (Carried × Array UInt8) := do
  if bounds.block < data.length then none
  let (literals, code, rest) ← readLiterals bounds.block carried.code data
  let (sequences, tables) ← readSequences carried.tables rest
  let (steps, history) := carried.history.steps sequences
  return (⟨code, tables, history⟩, ← execute bounds.floor bounds.total 0 steps literals out)

/-- Restores the block after its front; the bytes after the block are left. -/
def readBlock (bounds : Bounds) (header : BlockHeader) (carried : Carried) (out : Array UInt8)
    (data : Bytes) : Option (Carried × Array UInt8 × Bytes) := do
  let (bytes, rest) ← data.split? header.length
  match header.kind with
  | .plain =>
    if bounds.total < out.size + header.size then none
    return (carried, out ++ bytes, rest)
  | .repeated =>
    if bounds.total < out.size + header.size then none
    return (carried, out ++ List.replicate header.size (bytes.headD 0), rest)
  | .coded =>
    let (carried, out) ← codedBlock bounds carried bytes out
    return (carried, out, rest)

/-- The bytes after the checksum of restored bytes, where one follows. -/
def checkSum (header : Header) (out : Array UInt8) (data : Bytes) : Option Bytes := do
  if header.hasChecksum then
    let (checksum, data) ← data.split? 4
    if checksum.ofLittleEndian = (XxHash64.hash 0 out.toList).toNat % 2 ^ 32 then return data
    else none
  else return data

/-! ### In one piece -/

/-- The most bytes that are restored in one piece. -/
def mostWhole : Nat := 2 ^ 13

/-- The bytes after the blocks, `limit` at most. -/
def skipBlocks : (limit : Nat) → Bytes → Option Bytes
  | 0, _ => none
  | limit + 1, data => do
    let (header, data) ← BlockHeader.read data
    let (_, data) ← data.split? header.length
    if header.isLast then return data else skipBlocks limit data

/-- Whether a frame is restored in one piece: it says that it holds few bytes, and ends within the
first `room`. The bytes after its header are given. -/
def isWhole (header : Header) (room : Nat) (data : Bytes) : Bool :=
  header.size.any (· ≤ mostWhole) &&
    ((skipBlocks data.length data).any fun rest =>
      data.length + (if header.hasChecksum then 4 else 0) ≤ rest.length + room)

/-- Restores blocks, `limit` at most. -/
def wholeBlocks (most : Nat) :
    (limit : Nat) → Carried → Array UInt8 → Bytes → Option (Array UInt8 × Bytes)
  | 0, _, _, _ => none
  | limit + 1, carried, out, data => do
    let (header, data) ← BlockHeader.read data
    let (carried, out, data) ← readBlock ⟨most, 0, mostWhole⟩ header carried out data
    if header.isLast then return (out, data) else wholeBlocks most limit carried out data

/-- Restores a frame after its header in one piece. -/
def readWhole (header : Header) (data : Bytes) : Option (Bytes × Bytes) := do
  let (out, data) ← wholeBlocks header.mostBlock data.length .initial #[] data
  if header.size.any (· ≠ out.size) then none
  return (out.toList, ← checkSum header out data)

/-! ### Block by block -/

/-- The buffers for a block and for restored bytes. They are kept from frame to frame while they are
large enough. -/
structure Buffers where
  input : Nat
  output : Nat

/-- The largest window that is accepted. -/
def mostWindow : Nat := 2 ^ 27 + 1

/-- Buffers for a frame: room for the window and two blocks, or for all bytes if they are fewer. -/
def Buffers.fit (buffers : Buffers) (window block : Nat) (size : Option Nat) : Buffers :=
  let input := max block 4
  let need := window + 2 * block + 64
  let output := min need (size.getD need)
  if buffers.input < input ∨ buffers.output < output then ⟨input, output⟩ else buffers

/-- Restored bytes, the number of the byte at which the buffer started again, and the number at
which it did so before. -/
structure Restored where
  bytes : Array UInt8
  start : Nat
  floor : Nat

/-- Starts the buffer again, where another block may not fit. It never does if it holds all
bytes. -/
def Restored.turn (restored : Restored) (most capacity : Nat) (header : Header) : Restored :=
  let isLess := header.size.all (capacity < ·)
  if isLess ∧ capacity < restored.bytes.size - restored.start + most then
    { restored with start := restored.bytes.size, floor := restored.start }
  else restored

/-- Restores blocks, `limit` at most, into a buffer. Whether the last of them was empty is told. -/
def streamedBlocks (header : Header) (capacity : Nat) :
    (limit : Nat) → Carried → Restored → Bytes → Option (Bool × Array UInt8 × Bytes)
  | 0, _, _, _ => none
  | limit + 1, carried, restored, data => do
    let most := header.mostBlock
    let (block, data) ← BlockHeader.read data
    if block.length = 0 then
      if block.isLast then return (true, restored.bytes, data)
      else streamedBlocks header capacity limit carried restored data
    else
      if most < block.length ∨ most < block.size then none
      let before := restored.bytes.size
      let total := min (restored.start + capacity) (before + most)
      let (carried, bytes, data) ←
        readBlock ⟨most, restored.floor, total⟩ block carried restored.bytes data
      if block.isLast then return (false, bytes, data)
      else
        let restored := { restored with bytes }
        let restored :=
          if bytes.size = before then restored else restored.turn most capacity header
        streamedBlocks header capacity limit carried restored data

/-- Restores a frame after its header block by block. -/
def readStreamed (buffers : Buffers) (header : Header) (data : Bytes) :
    Option (Bytes × Buffers × Bytes) := do
  let window := max header.window 1024
  if mostWindow < window then none
  let buffers := buffers.fit window header.mostBlock header.size
  let (isEmpty, out, data) ←
    streamedBlocks header buffers.output data.length .initial ⟨#[], 0, 0⟩ data
  if !isEmpty ∧ header.size.any (· ≠ out.size) then none
  return (out.toList, buffers, ← checkSum header out data)

end SeriesFile.Codec.Zstd
