import SeriesFile.Codec.Zstd.Literals
import SeriesFile.Codec.Zstd.Older.Edition

/-!
# Literals in earlier editions

The kinds of literals are those of the settled format, under other fronts, and the code of a literal
is described in the same ways and one more, by the number of literals whose codes are of one length.
A code from the block before is known to the seventh edition only.
-/

namespace SeriesFile.Codec.Zstd.Older

/-! ### Codes -/

/-- Weights from two entropy codes in turn, up to the state that all bits lead to; `limit` at most.
Both codes must end in the first state of the table. -/
def closedWeights (table : StateTable) (s : BackwardBits) :
    (limit : Nat) → (current other place : Nat) → Option (List Nat)
  | 0, current, other, place =>
    if place = s.bits.size ∧ current = 0 ∧ other = 0 then some [] else none
  | limit + 1, current, other, place => do
    if s.bits.size < place then none
    if place = s.bits.size ∧ current = 0 then
      if other = 0 then return [] else none
    let state ← table.states[current]?
    let after := state.base + s.numberAt state.bits place
    return state.symbol :: (← closedWeights table s limit other after (place + state.bits))

/-- Weights written as entropy codes. -/
def codedWeights (edition : Edition) (data : Bytes) : Option (List Nat) := do
  if data.length < 4 then none
  let (table, rest) ← StateTable.read 12 (fun _ => 256) data
  let s ← BackwardBits.ofBytes? rest
  let first := s.numberAt table.log s.start
  let second := s.numberAt table.log (s.start + table.log)
  let place := s.start + 2 * table.log
  match edition with
  | .fourth | .fifth => closedWeights table s 255 first second place
  | .sixth | .seventh =>
    alternatingWeights table s 256 (← table.states[first]?) (← table.states[second]?) place

/-- The numbers of symbols whose codes are of one length. -/
def evenCounts : Array Nat := #[1, 2, 3, 4, 7, 8, 15, 16, 31, 32, 63, 64, 127, 128]

/-- A prefix code of up to `most` bits from its description, and the bytes after it. -/
def readCode (edition : Edition) (most : Nat) (inPairs : Bool) (data : Bytes) :
    Option (LiteralCode × Bytes) := do
  let (first, rest) ← data.split? 1
  let n := first.ofLittleEndian
  if n < 128 then
    let (description, rest) ← rest.split? n
    return (← codeOfWeights 12 most inPairs (← codedWeights edition description), rest)
  else if n < 242 then
    let count := n - 127
    let (description, rest) ← rest.split? ((count + 1) / 2)
    return (← codeOfWeights 12 most inPairs (plainWeights count description), rest)
  else
    -- The last symbol is not counted.
    let weights := List.replicate (evenCounts.getD (n - 242) 0) 1
    return (← codeOfWeights 12 most inPairs weights, rest)

/-- What it costs to take symbols one by one, and in pairs. -/
def costs : Costs := #[
  ((0, 0), (1, 1)), ((0, 0), (1, 1)), ((38, 130), (1313, 74)), ((448, 128), (1353, 74)),
  ((556, 128), (1353, 74)), ((714, 128), (1418, 74)), ((883, 128), (1437, 74)),
  ((897, 128), (1515, 75)), ((926, 128), (1613, 75)), ((947, 128), (1729, 77)),
  ((1107, 128), (2083, 81)), ((1177, 128), (2379, 87)), ((1242, 128), (2415, 93)),
  ((1349, 128), (2644, 106)), ((1455, 128), (2422, 124)), ((722, 128), (1891, 145))]

/-! ### Sections -/

/-- The front of a literals section of the fourth edition. -/
def readFourthHeader (data : Bytes) : Option (LiteralsHeader × Bytes) := do
  let (bytes, rest) ← data.split? 5
  let n := bytes.ofLittleEndian
  match n % 4 with
  | 0 => return ({ kind := 2, size := n / 2 ^ 2 % 2 ^ 19, coded := n / 2 ^ 21, isFour := true }, rest)
  | 3 => none
  | kind =>
    return ({ kind := kind - 1, size := n / 2 ^ 2 % 2 ^ 22, coded := 0, isFour := false },
      data.drop 3)

/-- The front of a literals section of the editions after the fourth, which has its highest bits
first. -/
def readHeader (data : Bytes) : Option (LiteralsHeader × Bytes) := do
  let (first, _) ← data.split? 1
  let kind := (first.ofLittleEndian / 64 + 2) % 4
  let form := first.ofLittleEndian / 16 % 4
  if kind < 2 then
    let (length, width) := if form < 2 then (1, 5) else if form = 2 then (2, 12) else (3, 20)
    let (bytes, rest) ← data.split? length
    let size := Bytes.ofLittleEndian bytes.reverse % 2 ^ width
    return ({ kind, size, coded := 0, isFour := false }, rest)
  else
    let (length, width) := if form < 2 then (3, 10) else if form = 2 then (4, 14) else (5, 18)
    let (bytes, rest) ← data.split? length
    let n := Bytes.ofLittleEndian bytes.reverse
    return ({ kind, size := n / 2 ^ width % 2 ^ width, coded := n % 2 ^ width, isFour := form ≠ 1 },
      rest)

/-- Literals in a code that is described in front of them, and the code. The codes of the seventh
edition may have a bit more where symbols are taken one by one. -/
def readDescribed (edition : Edition) (header : LiteralsHeader) (coded : Bytes) :
    Option (Bytes × LiteralCode) := do
  let inPairs := header.isFour &&
    costs.prefersPairs (if edition = .seventh then 8 else 16) header.size header.coded
  let most := if edition = .seventh ∧ !inPairs then 13 else 12
  let (code, streams) ← readCode edition most inPairs coded
  let literals ← if header.isFour then code.readFourStreams header.size streams
    else code.readStream header.size streams
  return (literals, code)

/-- Literals that may be in four streams, and the code after them. There must be some, and they must
not take more bytes than they are. If they take as many they are there as they are, and a single
byte is repeated; the fifth edition knows only the second of these, and the seventh neither. -/
def readFour (edition : Edition) (header : LiteralsHeader) (before : Option LiteralCode)
    (coded : Bytes) : Option (Bytes × Option LiteralCode) := do
  let count := header.size
  if count = 0 ∨ count < coded.length then none
  if count = coded.length then
    match edition with
    | .fourth | .sixth => return (coded, before)
    | .fifth | .seventh => none
  if coded.length = 1 ∧ edition ≠ .seventh then
    return (List.replicate count (coded.headD 0), before)
  let (literals, code) ← readDescribed edition header coded
  return (literals, some code)

/-- Literals in one stream, in the code of the block before. It must be one whose symbols are taken
in pairs. -/
def readAgain (edition : Edition) (header : LiteralsHeader) (before : Option LiteralCode)
    (coded : Bytes) : Option Bytes := do
  let code ← before
  if edition ≠ .seventh ∨ header.isFour ∨ !code.inPairs then none
  code.readStream header.size coded

/-- The literals of a block, the code in force after them, and the bytes after them. In the fourth
edition, plain literals near the end of the block start with their own front. -/
def readLiterals (edition : Edition) (before : Option LiteralCode) (data : Bytes) :
    Option (Bytes × Option LiteralCode × Bytes) := do
  if data.length < (if edition = .fourth then 11 else 3) then none
  let (header, rest) ← if edition = .fourth then readFourthHeader data else readHeader data
  match header.kind with
  | 0 =>
    let (literals, rest) ← rest.split? header.size
    if edition = .fourth ∧ data.length < header.size + 11 then
      if mostBlock < header.size then none
      return (data.take header.size, before, rest)
    return (literals, before, rest)
  | 1 =>
    let (byte, rest) ← rest.split? 1
    if mostBlock < header.size then none
    return (List.replicate header.size (byte.headD 0), before, rest)
  | kind =>
    let (coded, rest) ← rest.split? header.coded
    if mostBlock < header.size then none
    if kind = 3 then return (← readAgain edition header before coded, before, rest)
    else if header.isFour then
      let (literals, code) ← readFour edition header before coded
      return (literals, code, rest)
    else
      let (literals, code) ← readDescribed edition header coded
      return (literals, some code, rest)

end SeriesFile.Codec.Zstd.Older
