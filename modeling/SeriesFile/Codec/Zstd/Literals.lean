import SeriesFile.Codec.Zstd.Entropy
import SeriesFile.Codec.Zstd.Streams

/-!
# Literals

The literals of a block are the bytes that its sequences copy from. They are there as they are, or
one byte repeated, or in a prefix code; the code is described in front of them or is that of the
block before. The description gives every symbol a weight: a weight one higher means a code one
bit shorter, and the weights but the last are there, in half bytes or as entropy codes.
-/

namespace SeriesFile.Codec.Zstd

/-- The most bytes that a block restores to. -/
def mostBlock : Nat := 2 ^ 17

/-- The number of sequences of the most bits that start with the code of a weight. -/
def weightShare (weight : Nat) : Nat :=
  if weight = 0 then 0 else 2 ^ (weight - 1)

/-- The weights completed by that of the last symbol, which fills up the sequences of some number
of bits, `most` of them at most; and that number. The longest codes must come in pairs. -/
def completeWeights (most : Nat) (weights : List Nat) : Option (Nat × List Nat) := do
  if 256 ≤ weights.length ∨ weights.any (most < ·) then none
  let total := (weights.map weightShare).sum
  if total = 0 then none
  let bits := total.log2 + 1
  let missing := 2 ^ bits - total
  if most < bits ∨ missing ≠ 2 ^ missing.log2 then none
  let weights := weights ++ [missing.log2 + 1]
  let longest := weights.count 1
  if longest < 2 ∨ longest % 2 = 1 then none
  return (bits, weights)

/-- Gives codes to symbols that are listed with their weights, from the sequence `start` on. -/
def assignCodes (bits : Nat) : (start : Nat) → List (Nat × Nat) → List (Nat × List Bool)
  | _, [] => []
  | start, (weight, symbol) :: rest =>
    (symbol, Bits.ofNat (bits + 1 - weight) (start / weightShare weight)) ::
      assignCodes bits (start + weightShare weight) rest

/-- The prefix code of some weights: symbols in the order of their weights get the sequences in
their order, of `most` bits at most. At least `least` bits are looked at at a time. -/
def codeOfWeights (least most : Nat) (inPairs : Bool) (weights : List Nat) :
    Option LiteralCode := do
  let (bits, weights) ← completeWeights most weights
  let ofWeight (w : Nat) := weights.zipIdx.filter fun (weight, _) => weight = w
  let tree ← PrefixTree.ofCodes
    (assignCodes bits 0 ((List.range bits).flatMap fun w => ofWeight (w + 1)))
  return { tree, width := max bits least, inPairs }

/-- Weights from two entropy codes in turn, up to the state that the bits do not suffice to
leave; `limit` at most. -/
def alternatingWeights (table : StateTable) (s : BackwardBits) :
    (limit : Nat) → (current other : State) → (place : Nat) → Option (List Nat)
  | 0, _, _, _ => none
  | limit + 1, current, other, place => do
    if s.bits.size < place + current.bits then return [current.symbol, other.symbol]
    let after ← table.states[current.base + s.numberAt current.bits place]?
    return current.symbol ::
      (← alternatingWeights table s limit other after (place + current.bits))

/-- Weights written as entropy codes. The larger the table, the fewer symbols it may have. -/
def codedWeights (data : Bytes) : Option (List Nat) := do
  let (table, rest) ← StateTable.read 6 (fun log => if log = 5 then 92 else 12) data
  let s ← BackwardBits.ofBytes? rest
  let place := s.start + 2 * table.log
  if s.bits.size < place then none
  let first ← table.states[s.numberAt table.log s.start]?
  let second ← table.states[s.numberAt table.log (s.start + table.log)]?
  alternatingWeights table s 256 first second place

/-- Weights in half bytes, the high half first. -/
def plainWeights (count : Nat) (data : Bytes) : List Nat :=
  (data.flatMap fun b => [b.toNat / 16, b.toNat % 16]).take count

/-- A prefix code from its description, and the bytes after it. Its codes have twelve bits at
most. -/
def readCode (inPairs : Bool) (data : Bytes) : Option (LiteralCode × Bytes) := do
  let (first, rest) ← data.split? 1
  let n := first.ofLittleEndian
  -- Small numbers are sizes of a coded description, larger ones count plain weights.
  if n < 128 then
    let (description, rest) ← rest.split? n
    return (← codeOfWeights 11 12 inPairs (← codedWeights description), rest)
  else
    let count := n - 127
    let (description, rest) ← rest.split? ((count + 1) / 2)
    return (← codeOfWeights 11 12 inPairs (plainWeights count description), rest)

structure LiteralsHeader where
  /-- The kind of literals: plain, repeated, with a code, with the code before. -/
  kind : Nat
  size : Nat
  /-- The number of bytes they take in a code. -/
  coded : Nat
  /-- Whether a code is used in four streams. -/
  isFour : Bool

def LiteralsHeader.read (data : Bytes) : Option (LiteralsHeader × Bytes) := do
  let (first, _) ← data.split? 1
  let kind := first.ofLittleEndian % 4
  let form := first.ofLittleEndian / 4 % 4
  if kind < 2 then
    let (length, width) := if form % 2 = 0 then (1, 3) else if form = 1 then (2, 4) else (3, 4)
    let (bytes, rest) ← data.split? length
    return ({ kind, size := bytes.ofLittleEndian / 2 ^ width, coded := 0, isFour := false }, rest)
  else
    let (length, width) := if form < 2 then (3, 10) else if form = 2 then (4, 14) else (5, 18)
    let (bytes, rest) ← data.split? length
    let n := bytes.ofLittleEndian / 16
    return ({ kind, size := n % 2 ^ width, coded := n / 2 ^ width, isFour := form ≠ 0 }, rest)

/-- Literals in a code, which is described in front of them or was in force before; and the code. -/
def readCoded (header : LiteralsHeader) (before : Option LiteralCode) (coded : Bytes) :
    Option (Bytes × LiteralCode) := do
  if header.isFour ∧ header.size < 6 then none
  let (code, streams) ←
    if header.kind = 2 then
      readCode (header.isFour && costs.prefersPairs 32 header.size header.coded) coded
    else before.map (·, coded)
  let literals ← if header.isFour then code.readFourStreams header.size streams
    else code.readStream header.size streams
  return (literals, code)

/-- The literals of a block of at most `most` bytes, the code in force after them, and the bytes
after them. A block has two bytes at least, and five if its literals are in a code. -/
def readLiterals (most : Nat) (before : Option LiteralCode) (data : Bytes) :
    Option (Bytes × Option LiteralCode × Bytes) := do
  let (header, rest) ← LiteralsHeader.read data
  if most < header.size ∨ data.length < 2 then none
  match header.kind with
  | 0 =>
    let (literals, rest) ← rest.split? header.size
    return (literals, before, rest)
  | 1 =>
    let (byte, rest) ← rest.split? 1
    return (List.replicate header.size (byte.headD 0), before, rest)
  | _ =>
    if data.length < 5 then none
    let (coded, rest) ← rest.split? header.coded
    let (literals, code) ← readCoded header before coded
    return (literals, some code, rest)

end SeriesFile.Codec.Zstd
