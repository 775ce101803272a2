import SeriesFile.Codec.Window
import SeriesFile.Codec.Zstd.Entropy

/-!
# Sequences

A sequence is a number of literals, and a copy given by its distance and length. The three numbers
are written as entropy codes, each of which stands for a least number and a number of further
bits. A distance may also be one of the last three distances.
-/

namespace SeriesFile.Codec.Zstd

/-- The least number of a code, and how many bits are added to it. -/
abbrev Bases := Nat → Option (Nat × Nat)

/-- The numbers of literals. -/
def literalBases : Bases := fun code =>
  #[(0, 0), (1, 0), (2, 0), (3, 0), (4, 0), (5, 0), (6, 0), (7, 0), (8, 0), (9, 0), (10, 0),
    (11, 0), (12, 0), (13, 0), (14, 0), (15, 0), (16, 1), (18, 1), (20, 1), (22, 1), (24, 2),
    (28, 2), (32, 3), (40, 3), (48, 4), (64, 6), (128, 7), (256, 8), (512, 9), (1024, 10),
    (2048, 11), (4096, 12), (8192, 13), (16384, 14), (32768, 15), (65536, 16)][code]?

/-- The lengths of copies. -/
def matchBases : Bases := fun code =>
  if code < 32 then some (code + 3, 0)
  else
    #[(35, 1), (37, 1), (39, 1), (41, 1), (43, 2), (47, 2), (51, 3), (59, 3), (67, 4), (83, 4),
      (99, 5), (131, 7), (259, 8), (515, 9), (1027, 10), (2051, 11), (4099, 12), (8195, 13),
      (16387, 14), (32771, 15), (65539, 16)][code - 32]?

/-- The distances of copies. -/
def distanceBases : Bases := fun code =>
  if code < 32 then some (2 ^ code, code) else none

/-- Shares from numbers of states, where -1 stands for a rare symbol. -/
def shares (counts : List Int) : List Share :=
  counts.map fun n => if n < 0 then .rare else .states n.toNat

/-- The table for numbers of literals that is not described. -/
def defaultLiteralTable : Option StateTable :=
  StateTable.ofShares 6 (shares [4, 3, 2, 2, 2, 2, 2, 2, 2, 2, 2, 2, 2, 1, 1, 1, 2, 2, 2, 2, 2, 2, 2, 2, 2, 3,
    2, 1, 1, 1, 1, 1, -1, -1, -1, -1])

/-- The table for lengths of copies that is not described. -/
def defaultMatchTable : Option StateTable :=
  StateTable.ofShares 6 (shares [1, 4, 3, 2, 2, 2, 2, 2, 2, 1, 1, 1, 1, 1, 1, 1, 1, 1, 1, 1, 1, 1, 1, 1, 1, 1,
    1, 1, 1, 1, 1, 1, 1, 1, 1, 1, 1, 1, 1, 1, 1, 1, 1, 1, 1, 1, -1, -1, -1, -1, -1, -1, -1])

/-- The table for distances that is not described. -/
def defaultDistanceTable : Option StateTable :=
  StateTable.ofShares 5 (shares [1, 1, 1, 1, 1, 1, 2, 2, 2, 1, 1, 1, 1, 1, 1, 1, 1, 1, 1, 1, 1, 1, 1, 1, -1,
    -1, -1, -1, -1])

structure Tables where
  literals : StateTable
  distances : StateTable
  copies : StateTable

/-- A table by the way it is given: not described, constant, described, or as before. -/
def readTable (standard : Option StateTable) (mostLog symbols : Nat) (before : Option StateTable)
    (way : Nat) (data : Bytes) : Option (StateTable × Bytes) := do
  match way with
  | 0 => return (← standard, data)
  | 1 =>
    let (symbol, rest) ← data.split? 1
    if symbols ≤ symbol.ofLittleEndian then none
    return (.constant symbol.ofLittleEndian, rest)
  | 2 => StateTable.read mostLog (fun _ => symbols) data
  | _ => return (← before, data)

/-- The three tables, from the byte that says how each is given. -/
def Tables.read (before : Option Tables) (ways : Nat) (data : Bytes) : Option (Tables × Bytes) := do
  if ways % 4 ≠ 0 then none
  let (literals, data) ← readTable defaultLiteralTable 9 36 (before.map Tables.literals)
    (ways / 64) data
  let (distances, data) ← readTable defaultDistanceTable 8 32 (before.map Tables.distances)
    (ways / 16 % 4) data
  let (matched, data) ← readTable defaultMatchTable 9 53 (before.map Tables.copies)
    (ways / 4 % 4) data
  return ({ literals, distances, copies := matched }, data)

/-- A sequence: literals, then a copy. The number tells its distance. -/
structure Sequence where
  literals : Nat
  number : Nat
  length : Nat
  deriving DecidableEq, Repr

def extended (bases : Bases) (code : Nat) : BitSource Nat := do
  match bases code with
  | some (base, bits) => return base + (← BitSource.highFirst bits)
  | none => BitSource.malformed

/-- `count` sequences from the states that stand for the first. -/
def readFrom (tables : Tables) :
    (count : Nat) → (literals distances matched : State) → BitSource (List Sequence)
  | 0, _, _, _ => pure []
  | count + 1, literals, distances, matched => do
    let number ← extended distanceBases distances.symbol
    let length ← extended matchBases matched.symbol
    let first : Sequence := { literals := ← extended literalBases literals.symbol, number, length }
    -- No bits are there to go on from the last sequence.
    if count = 0 then return [first]
    let literals ← tables.literals.next literals
    let matched ← tables.copies.next matched
    let distances ← tables.distances.next distances
    let rest ← readFrom tables count literals distances matched
    return first :: rest

/-- `count` sequences that take up some bytes entirely. -/
def readStreams (tables : Tables) (count : Nat) (data : Bytes) : Option (List Sequence) := do
  let source : BitSource (List Sequence) := do
    let literals ← tables.literals.start
    let distances ← tables.distances.start
    let matched ← tables.copies.start
    readFrom tables count literals distances matched
  let (sequences, left) ← source (← BitSource.backward data)
  if left.isEmpty then return sequences else none

/-- The number of sequences, and the bytes after it. -/
def readCount (data : Bytes) : Option (Nat × Bytes) := do
  match data with
  | [] => none
  | b :: rest =>
    if b.toNat < 128 then return (b.toNat, rest)
    else if b.toNat < 255 then
      let (low, rest) ← Bytes.split? 1 rest
      return ((b.toNat - 128) * 256 + low.ofLittleEndian, rest)
    else
      let (n, rest) ← Bytes.split? 2 rest
      return (n.ofLittleEndian + 0x7F00, rest)

/-- The sequences of a block, which take up the rest of it, and the tables in force after them. -/
def readSequences (before : Option Tables) (data : Bytes) :
    Option (List Sequence × Option Tables) := do
  let (count, rest) ← readCount data
  if count = 0 then
    if rest.isEmpty then return ([], before) else none
  else
    let (ways, rest) ← rest.split? 1
    let (tables, rest) ← Tables.read before ways.ofLittleEndian rest
    return (← readStreams tables count rest, some tables)

/-- The last three distances, the latest first. -/
structure History where
  first : Nat
  second : Nat
  third : Nat
  deriving DecidableEq, Repr

def History.initial : History := ⟨1, 4, 8⟩

/-- The distance that a sequence means, and the history after it. Numbers above three are
distances, three less. The numbers up to three mean one of the last distances; after no literals
they mean one further, and the last of them one less than the latest distance. -/
def History.resolve (h : History) (number : Nat) (afterLiterals : Bool) : Nat × History :=
  if 3 < number then (number - 3, ⟨number - 3, h.first, h.second⟩)
  else
    match if afterLiterals then number else number + 1 with
    | 1 => (h.first, h)
    | 2 => (h.second, ⟨h.second, h.first, h.third⟩)
    | 3 => (h.third, ⟨h.third, h.first, h.second⟩)
    | _ => (h.first - 1, ⟨h.first - 1, h.first, h.second⟩)

/-- A number of literals, and a copy. -/
structure Step where
  literals : Nat
  distance : Nat
  length : Nat
  deriving DecidableEq, Repr

/-- The steps that sequences mean, and the history after them. -/
def History.steps (h : History) : List Sequence → List Step × History
  | [] => ([], h)
  | s :: rest =>
    let (distance, h) := h.resolve s.number (s.literals ≠ 0)
    let (steps, h) := h.steps rest
    (⟨s.literals, distance, s.length⟩ :: steps, h)

/-- Restores steps, and then the literals that are left, to no more than `most` bytes in all. Copies
start no earlier than at `floor`, and there must be room for `margin` bytes where they go. -/
def execute (floor most margin : Nat) : List Step → Bytes → Array UInt8 → Option (Array UInt8)
  | [], literals, out => if most < out.size + literals.length then none else some (out ++ literals)
  | s :: rest, literals, out => do
    let (taken, literals) ← literals.split? s.literals
    let out := out ++ taken
    if most < out.size + max s.length margin ∨ out.size - floor < s.distance then none
    execute floor most margin rest literals (← copyBack? s.distance s.length out)

end SeriesFile.Codec.Zstd
