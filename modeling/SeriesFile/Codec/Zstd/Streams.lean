import SeriesFile.Codec.PrefixTree
import SeriesFile.Codec.Zstd.BackwardBits

/-!
# Streams of literals

Literals in a prefix code are read backward, in one stream or in four. A code is looked at some
bits at a time, and may give two symbols at once where their bits fit.

One stream must end where its symbols end, except that the last symbol may have been looked at
together with what follows it. Four streams are read one by one, too, if one of them is short. Else
they are read in step, and none of them needs to end at its end: each is read from its own place on,
back into what stands before it.
-/

namespace SeriesFile.Codec.Zstd

structure LiteralCode where
  tree : PrefixTree
  /-- How many bits are looked at at a time. -/
  width : Nat
  /-- Whether two symbols are taken at a time, where their bits fit the width. -/
  inPairs : Bool

/-- One symbol or two, and the place after them. -/
inductive Taken where
  | one (symbol : UInt8) (next : Nat)
  | two (first second : UInt8) (next : Nat)

namespace LiteralCode

def take (code : LiteralCode) (s : BackwardBits) (place : Nat) : Option Taken := do
  let bit (i : Nat) := s.bits.getD i false
  let here := s.settle place
  let (first, next) ← code.tree.at? bit here
  let one := Taken.one (.ofNat first) (place + (next - here))
  if code.inPairs then
    let (second, after) ← code.tree.at? bit next
    if after - here ≤ code.width then
      return .two (.ofNat first) (.ofNat second) (place + (after - here))
    else return one
  else return one

/-- Adds `count` symbols from a place on, and gives the place after them. Where a single symbol is
left and two stand there, the second may reach past the end. -/
def symbols (code : LiteralCode) (s : BackwardBits) (count place : Nat) (out : Array UInt8) :
    Option (Array UInt8 × Nat) :=
  match count with
  | 0 => some (out, place)
  | count + 1 =>
    match code.take s place with
    | none => none
    | some (.one a next) => symbols code s count next (out.push a)
    | some (.two a b next) =>
      if count = 0 then
        some (out.push a, if place < s.bits.size then min next s.bits.size else place)
      else symbols code s (count - 1) next ((out.push a).push b)
termination_by count
decreasing_by all_goals omega

/-- `count` symbols that take up some bytes entirely. -/
def readStream (code : LiteralCode) (count : Nat) (data : Bytes) : Option Bytes := do
  let s ← BackwardBits.ofBytes? data
  let (out, place) ← code.symbols s count s.start #[]
  if place = s.bits.size then return out.toList else none

end LiteralCode

/-! ### Four streams in step -/

/-- One of four streams: the bits up to its end, where it starts, how many symbols it holds; and how
far it is read: the symbols, the place, and the first of the eight bytes that are in view. -/
structure Lane where
  bits : BackwardBits
  start : Nat
  room : Nat
  out : Array UInt8
  place : Nat
  front : Nat

namespace Lane

/-- A stream between two bytes, of which nothing is read. -/
def ofBytes (data : Bytes) (start length room : Nat) : Lane :=
  let bits := BackwardBits.ofBytes (data.take (start + length))
  { bits, start, room, out := #[], place := bits.start, front := start + length - 8 }

/-- Takes `n` times what stands next. -/
def take (code : LiteralCode) : (n : Nat) → Lane → Option Lane
  | 0, lane => some lane
  | n + 1, lane => do
    match ← code.take lane.bits lane.place with
    | .one a place => take code n { lane with out := lane.out.push a, place }
    | .two a b place => take code n { lane with out := (lane.out.push a).push b, place }

/-- Takes five times what stands next, and moves the view. -/
def round (code : LiteralCode) (lane : Lane) : Option Lane := do
  let lane ← lane.take code 5
  return { lane with front := lane.bits.bits.size / 8 - 8 - lane.place / 8 }

/-- All symbols of a stream. The view must not have left it. -/
def finish (code : LiteralCode) (lane : Lane) : Option Bytes := do
  if lane.room < lane.out.size ∨ lane.front + 8 < lane.start then none
  let (out, _) ← code.symbols lane.bits (lane.room - lane.out.size) lane.place lane.out
  return out.toList

end Lane

/-- How many rounds cannot go too far: a round takes less than seven bytes of a stream, and adds
five symbols, or ten where they are taken in pairs. -/
def safeRounds (code : LiteralCode) (lanes : List Lane) : Nat :=
  let each := if code.inPairs then 10 else 5
  lanes.foldl (fun n lane => min n ((lane.room - lane.out.size) / each))
    ((lanes.head?.map Lane.front).getD 0 / 7)

/-- How many symbols of the last stream are read. -/
def readOfLast (lanes : List Lane) : Nat :=
  (lanes.getLast?.map (·.out.size)).getD 0

/-- Rounds, `limit` at most, until so many symbols of the last stream are read. -/
def rounds (code : LiteralCode) (goal : Nat) : (limit : Nat) → List Lane → Option (List Lane)
  | 0, lanes => some lanes
  | limit + 1, lanes =>
    if readOfLast lanes < goal then do rounds code goal limit (← lanes.mapM (Lane.round code))
    else some lanes

/-- Rounds while they are safe, and while no stream's view has passed the view before it; `limit`
times at most. -/
def inStep (code : LiteralCode) : (limit : Nat) → List Lane → Option (List Lane)
  | 0, lanes => some lanes
  | limit + 1, lanes =>
    let safe := safeRounds code lanes
    if safe = 0 ∨ (lanes.zip lanes.tail).any fun (a, b) => b.front < a.front then some lanes
    else do inStep code limit (← rounds code (readOfLast lanes + 5 * safe) safe lanes)

/-- `count` symbols in four streams, the first three of which have their lengths in front. -/
def LiteralCode.readFourStreams (code : LiteralCode) (count : Nat) (data : Bytes) :
    Option Bytes := do
  let (a, rest) ← data.split? 2
  let (b, rest) ← rest.split? 2
  let (c, rest) ← rest.split? 2
  let (a, b, c) := (a.ofLittleEndian, b.ofLittleEndian, c.ofLittleEndian)
  if rest.length < 4 ∨ rest.length < a + b + c then none
  let d := rest.length - (a + b + c)
  let quarter := (count + 3) / 4
  if count < 3 * quarter then none
  if code.width = 11 ∧ 3 * quarter < count ∧ [a, b, c, d].all (8 ≤ ·) then
    let lanes := [
      Lane.ofBytes data 6 a quarter,
      Lane.ofBytes data (6 + a) b quarter,
      Lane.ofBytes data (6 + a + b) c quarter,
      Lane.ofBytes data (6 + a + b + c) d (count - 3 * quarter)]
    return (← (← inStep code count lanes).mapM (Lane.finish code)).flatten
  else
    let first ← code.readStream quarter (rest.take a)
    let second ← code.readStream quarter ((rest.drop a).take b)
    let third ← code.readStream quarter ((rest.drop (a + b)).take c)
    let fourth ← code.readStream (count - 3 * quarter) (rest.drop (a + b + c))
    return first ++ second ++ third ++ fourth

/-! ### Pairs or not -/

/-- What it costs to take symbols one by one, and in pairs: for the table, and for every 256
symbols; by how many sixteenths of the symbols' number their bytes are. -/
abbrev Costs := Array ((Nat × Nat) × Nat × Nat)

/-- Whether pairs cost less, even if a part of their cost is added to it. -/
def Costs.prefersPairs (costs : Costs) (part count bytes : Nat) : Bool :=
  let (single, double) := costs.getD (if count ≤ bytes then 15 else bytes * 16 / count) default
  let blocks := count / 256
  let inPairs := double.1 + double.2 * blocks
  inPairs + inPairs / part < single.1 + single.2 * blocks

/-- The costs for four streams that may be read in step. -/
def costs : Costs := #[
  ((0, 0), (1, 1)), ((0, 0), (1, 1)), ((150, 216), (381, 119)), ((170, 205), (514, 112)),
  ((177, 199), (539, 110)), ((197, 194), (644, 107)), ((221, 192), (735, 107)),
  ((256, 189), (881, 106)), ((359, 188), (1167, 109)), ((582, 187), (1570, 114)),
  ((688, 187), (1712, 122)), ((825, 186), (1965, 136)), ((976, 185), (2131, 150)),
  ((1180, 186), (2070, 175)), ((1377, 185), (1731, 202)), ((1412, 185), (1695, 202))]

end SeriesFile.Codec.Zstd
