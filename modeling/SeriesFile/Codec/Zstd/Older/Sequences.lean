import SeriesFile.Codec.Zstd.BackwardBits
import SeriesFile.Codec.Zstd.Older.Edition
import SeriesFile.Codec.Zstd.Sequences

/-!
# Sequences in earlier editions

The sixth and the seventh edition have the codes of the settled format, except for those distances
that are one of the last three. The fourth and the fifth have other codes: numbers of literals and
lengths of copies stand for themselves, the largest of them being completed by bytes of their own,
and a distance may be only that of the sequence before, or of the one before that.

Reading may go past the last bit within the last sequence. All bits must be used in the fourth
edition.
-/

namespace SeriesFile.Codec.Zstd.Older

/-! ### Reading by place -/

/-- Reads at a place, and moves it, or finds the data malformed. -/
abbrev Reading (α : Type) := StateT Nat Option α

def readNumber (s : BackwardBits) (n : Nat) : Reading Nat := fun place =>
  some (s.numberAt n place, place + n)

/-- Finds the data malformed if the last bit has been passed. -/
def checkPlace (s : BackwardBits) : Reading Unit := fun place =>
  if s.bits.size < place then none else some ((), place)

def firstState (s : BackwardBits) (t : StateTable) : Reading State :=
  return t.states.getD (← readNumber s t.log) default

def nextState (s : BackwardBits) (t : StateTable) (state : State) : Reading State :=
  return t.states.getD (state.base + (← readNumber s state.bits)) default

/-- The states that stand for a sequence. -/
structure States where
  literals : State
  distances : State
  copies : State

def States.first (s : BackwardBits) (tables : Tables) : Reading States := do
  let literals ← firstState s tables.literals
  let distances ← firstState s tables.distances
  let copies ← firstState s tables.copies
  return { literals, distances, copies }

/-! ### Tables -/

inductive Way where
  | standard
  | constant
  | before
  | described
  deriving DecidableEq, Repr

def Way.ofBits (edition : Edition) (n : Nat) : Way :=
  match edition, n % 4 with
  | .fourth, 1 => .standard
  | .fourth, 2 => .constant
  | .fourth, _ => .described
  | _, 0 => .standard
  | _, 1 => .constant
  | _, 2 => .before
  | _, _ => .described

/-- A table from its description, and the bytes after it. -/
def readDescribedTable (mostLog symbols : Nat) (data : Bytes) : Option (StateTable × Bytes) :=
  if data.length < 4 then none else StateTable.read mostLog (fun _ => symbols) data

/-- The table in which every symbol of `width` bits has one state. -/
def uniform (width : Nat) : StateTable :=
  ⟨width, (Array.range (2 ^ width)).map fun symbol => ⟨symbol, 0, width⟩⟩

/-- A table of the fourth or the fifth edition. -/
def readPlainTable (width mostLog : Nat) (way : Way) (data : Bytes) :
    Option (StateTable × Bytes) := do
  match way with
  | .standard => return (uniform width, data)
  | .constant =>
    let (symbol, rest) ← data.split? 1
    return (.constant symbol.ofLittleEndian, rest)
  | .before => none
  | .described => readDescribedTable mostLog (2 ^ width) data

/-- The three tables of the fourth or the fifth edition. -/
def readPlainTables (edition : Edition) (ways : Nat) (data : Bytes) : Option (Tables × Bytes) := do
  let (literals, data) ← readPlainTable 6 10 (.ofBits edition (ways / 64)) data
  let (distances, data) ← readPlainTable 5 9 (.ofBits edition (ways / 16)) data
  let (matched, data) ← readPlainTable 7 10 (.ofBits edition (ways / 4)) data
  return ({ literals, distances, copies := matched }, data)

/-- A table of the sixth or the seventh edition. -/
def readTable (standard : Option StateTable) (mostLog symbols : Nat) (before : Option StateTable)
    (way : Way) (data : Bytes) : Option (StateTable × Bytes) := do
  match way with
  | .standard => return (← standard, data)
  | .constant =>
    let (symbol, rest) ← data.split? 1
    if symbols ≤ symbol.ofLittleEndian then none
    return (.constant symbol.ofLittleEndian, rest)
  | .before => return (← before, data)
  | .described => readDescribedTable mostLog symbols data

/-- The three tables of the sixth or the seventh edition. -/
def readTables (edition : Edition) (before : Option Tables) (ways : Nat) (data : Bytes) :
    Option (Tables × Bytes) := do
  let (literals, data) ← readTable defaultLiteralTable 9 36 (before.map Tables.literals)
    (.ofBits edition (ways / 64)) data
  let (distances, data) ← readTable defaultDistanceTable 8 29 (before.map Tables.distances)
    (.ofBits edition (ways / 16)) data
  let (matched, data) ← readTable defaultMatchTable 9 53 (before.map Tables.copies)
    (.ofBits edition (ways / 4)) data
  return ({ literals, distances, copies := matched }, data)

/-! ### The fourth and the fifth edition -/

/-- The bytes that complete the largest numbers, and the place of the next of them. -/
structure Rests where
  bytes : Array UInt8
  place : Nat

namespace Rests

/-- The bytes at a place that is moved `n` bytes on, but not past the last of them. -/
def moved (rests : Rests) (n : Nat) : Rests :=
  { rests with place := min (rests.place + n) (rests.bytes.size - 1) }

/-- The byte that is `i` bytes after the place. -/
def byte (rests : Rests) (i : Nat) : Nat :=
  (rests.bytes.getD (rests.place + i) 0).toNat

/-- Completes a number if it is the largest: a byte is added to it, or the number is in the bytes
after that byte, three of them or, where a bit says so, two. -/
def complete (edition : Edition) (rests : Rests) (largest n : Nat) : Nat × Rests :=
  if n ≠ largest then (n, rests)
  else if rests.byte 0 < 255 then (n + rests.byte 0, rests.moved 1)
  else
    let two := rests.byte 1 + 2 ^ 8 * rests.byte 2
    let three := two + 2 ^ 16 * rests.byte 3
    if edition = .fourth then (three, rests.moved 4)
    else if rests.bytes.size < rests.place + 3 then (n, rests.moved 1)
    else if two % 2 = 1 ∧ rests.place + 3 < rests.bytes.size then (three / 2, rests.moved 4)
    else (two / 2, rests.moved 3)

end Rests

/-- The distance of the last sequence, and a distance before it. -/
structure Distances where
  last : Nat
  before : Nat

/-- A distance by its code, and the distances after it. -/
def readDistance (s : BackwardBits) (code : Nat) (hasLiterals : Bool) (distances : Distances) :
    Reading (Nat × Distances) := do
  if code = 0 then
    if hasLiterals then return (distances.last, distances)
    else return (distances.before, ⟨distances.before, distances.last⟩)
  else
    let base := if 26 < code then 1 else 2 ^ (code - 1)
    let distance := base + (← readNumber s (code - 1))
    return (distance, ⟨distance, distances.last⟩)

/-- `count` steps from the states that stand for the first. The states of the fourth edition are
left before the distance is read, those of the fifth after it. -/
def readPlainSteps (edition : Edition) (s : BackwardBits) (tables : Tables) :
    (count : Nat) → States → Rests → Distances → Reading (List Step)
  | 0, _, _, _ => return []
  | count + 1, states, rests, distances => do
    checkPlace s
    let (literals, rests) := rests.complete edition 63 states.literals.symbol
    let code := states.distances.symbol % 32
    let hasLiterals := states.literals.symbol ≠ 0
    let (distance, distances, literalState, distanceState) ←
      if edition = .fourth then do
        let literalState ← nextState s tables.literals states.literals
        let distanceState ← nextState s tables.distances states.distances
        let (distance, distances) ← readDistance s code hasLiterals distances
        pure (distance, distances, literalState, distanceState)
      else do
        let (distance, distances) ← readDistance s code hasLiterals distances
        let distanceState ← nextState s tables.distances states.distances
        let literalState ← nextState s tables.literals states.literals
        pure (distance, distances, literalState, distanceState)
    let copyState ← nextState s tables.copies states.copies
    let (length, rests) := rests.complete edition 127 states.copies.symbol
    let rest ← readPlainSteps edition s tables count ⟨literalState, distanceState, copyState⟩ rests
      distances
    return ⟨literals, distance, length + 4⟩ :: rest

/-- The ways of the tables and the bytes that complete numbers, and the bytes after them, which must
be three at least. -/
def readRests (data : Bytes) : Option (Nat × Rests × Bytes) := do
  let (first, data) ← data.split? 1
  let first := first.ofLittleEndian
  let isLong := first.testBit 1
  let (size, data) ← data.split? (if isLong then 2 else 1)
  let size := Bytes.ofLittleEndian size.reverse + if !isLong ∧ first.testBit 0 then 256 else 0
  let (bytes, data) ← data.split? size
  if data.length < 3 then none
  return (first, ⟨bytes.toArray, 0⟩, data)

/-- The steps of a block of the fourth edition, which are described even if there are none. -/
def readFourth (data : Bytes) : Option (List Step) := do
  let (count, data) ← data.split? 2
  let (ways, rests, data) ← readRests data
  let (tables, data) ← readPlainTables .fourth ways data
  let s ← BackwardBits.ofBytes? data
  let source : Reading (List Step) := do
    readPlainSteps .fourth s tables count.ofLittleEndian (← States.first s tables) rests ⟨4, 4⟩
  let (steps, place) ← source s.start
  if place = s.bits.size then return steps else none

/-- The number of sequences of the fifth edition, and the bytes after it. -/
def readFifthCount (data : Bytes) : Option (Nat × Bytes) := do
  let (first, rest) ← data.split? 1
  let first := first.ofLittleEndian
  if first < 128 then return (first, rest)
  else
    let (low, rest) ← rest.split? 1
    return ((first - 128) * 256 + low.ofLittleEndian, rest)

/-- The steps of a block of the fifth edition. -/
def readFifth (data : Bytes) : Option (List Step) := do
  if data.head? = some 0 then return []
  let (count, data) ← readFifthCount data
  let (ways, rests, data) ← readRests data
  let (tables, data) ← readPlainTables .fifth ways data
  if count = 0 then return []
  let s ← BackwardBits.ofBytes? data
  let source : Reading (List Step) := do
    readPlainSteps .fifth s tables count (← States.first s tables) rests ⟨1, 1⟩
  return (← source s.start).1

/-! ### The sixth and the seventh edition -/

def extended (s : BackwardBits) (bases : Bases) (code : Nat) : Reading Nat := do
  let (base, bits) := (bases code).getD (0, 0)
  return base + (← readNumber s bits)

/-- The numbers that tell distances. -/
def distanceBases (edition : Edition) : Bases := fun code =>
  some (if edition = .sixth ∧ 26 < code then 1 else 2 ^ code - 1, code)

/-- `count` sequences from the states that stand for the first. -/
def readSequencesFrom (edition : Edition) (s : BackwardBits) (tables : Tables) :
    (count : Nat) → States → Reading (List Sequence)
  | 0, _ => return []
  | count + 1, states => do
    checkPlace s
    let number ← extended s (distanceBases edition) states.distances.symbol
    let length ← extended s matchBases states.copies.symbol
    let literals ← extended s literalBases states.literals.symbol
    let literalState ← nextState s tables.literals states.literals
    let copyState ← nextState s tables.copies states.copies
    let distanceState ← nextState s tables.distances states.distances
    let rest ← readSequencesFrom edition s tables count ⟨literalState, distanceState, copyState⟩
    return ⟨literals, number, length⟩ :: rest

/-- The distance that a sequence means, and the history after it. Numbers above two are distances,
two more. The others mean one of the last distances; after no literals the latest and the one before
it change places. -/
def distanceOf (h : History) (number : Nat) (hasLiterals : Bool) : Nat × History :=
  if 2 < number then (number - 2, ⟨number - 2, h.first, h.second⟩)
  else
    match if hasLiterals ∨ number = 2 then number else 1 - number with
    | 0 => (h.first, h)
    | 1 => (h.second, ⟨h.second, h.first, h.third⟩)
    | _ => (h.third, ⟨h.third, h.first, h.second⟩)

/-- The steps that sequences mean, and the history after them. -/
def stepsOf (h : History) : List Sequence → List Step × History
  | [] => ([], h)
  | s :: rest =>
    let (distance, h) := distanceOf h s.number (s.literals ≠ 0)
    let (steps, h) := stepsOf h rest
    (⟨s.literals, distance, s.length⟩ :: steps, h)

/-- The sequences of a block, and the tables in force after them. Tables without sequences are in
force only if there were others before. -/
def readSequences (edition : Edition) (before : Option Tables) (data : Bytes) :
    Option (List Sequence × Option Tables) := do
  if data.head? = some 0 then return ([], before)
  let (count, data) ← readCount data
  if data.length < 4 then none
  let (ways, data) ← data.split? 1
  let (tables, data) ← readTables edition before ways.ofLittleEndian data
  if count = 0 then return ([], before.map fun _ => tables)
  let s ← BackwardBits.ofBytes? data
  let source : Reading (List Sequence) := do
    readSequencesFrom edition s tables count (← States.first s tables)
  return ((← source s.start).1, some tables)

end SeriesFile.Codec.Zstd.Older
