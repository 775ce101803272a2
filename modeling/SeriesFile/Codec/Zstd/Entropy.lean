import SeriesFile.Codec.BitSource

/-!
# Finite state entropy codes

A table of states, each of which stands for a symbol and leads, with some further bits, to the
next state. A symbol has the more states the likelier it is. The table is laid out from the
number of states of every symbol; a symbol that is less likely than a single state has one all the
same, at the end of the table.
-/

namespace SeriesFile.Codec.Zstd

/-- A state: its symbol, and the state it leads to, after so many bits are added. -/
structure State where
  symbol : Nat
  base : Nat
  bits : Nat
  deriving DecidableEq, Repr, Inhabited

/-- How many states a symbol has. -/
inductive Share where
  | states (n : Nat)
  /-- One state, at the end of the table. -/
  | rare
  deriving DecidableEq, Repr

def Share.size : Share → Nat
  | states n => n
  | rare => 1

/-- A table of `2 ^ log` states. -/
structure StateTable where
  log : Nat
  states : Array State
  deriving DecidableEq, Repr

namespace StateTable

/-- The table of a single state, which takes no bits. -/
def constant (symbol : Nat) : StateTable :=
  ⟨0, #[⟨symbol, 0, 0⟩]⟩

/-- The place after `position` for a state, among the `size` places of a table: a fixed step on,
again and again while it lands among the rare ones at the end. -/
def nextPlace (size free : Nat) : (limit : Nat) → (position : Nat) → Nat
  | 0, position => position
  | limit + 1, position =>
    let position := (position + size / 2 + size / 8 + 3) % size
    if position < free then position else nextPlace size free limit position

/-- Lays out symbols, one state after another, over the places before the rare ones. -/
def spread (size free : Nat) : List Nat → (position : Nat) → Array Nat → Array Nat × Nat
  | [], position, places => (places, position)
  | symbol :: rest, position, places =>
    spread size free rest (nextPlace size free size position) (places.setIfInBounds position symbol)

/-- Gives every state the states that it leads to: a symbol's states count up from their number,
and a state takes the bits that lift its count above half of the table. -/
def link (log : Nat) : List Nat → (counts : Array Nat) → Array State → Array State
  | [], _, states => states
  | symbol :: places, counts, states =>
    let count := counts.getD symbol 1
    let bits := log - count.log2
    link log places (counts.setIfInBounds symbol (count + 1))
      (states.push ⟨symbol, count <<< bits - 2 ^ log, bits⟩)

/-- The table in which symbols have given shares. Together they must fill it. -/
def ofShares (log : Nat) (shares : List Share) : Option StateTable :=
  let size := 2 ^ log
  if (shares.map Share.size).sum ≠ size then none
  else
    let rare := (shares.zipIdx.filter fun (share, _) => share = .rare).map Prod.snd
    let free := size - rare.length
    let likely := shares.zipIdx.flatMap fun (share, symbol) =>
      match share with
      | .states n => List.replicate n symbol
      | .rare => []
    let places := Array.replicate free 0 ++ rare.reverse
    let (places, position) := spread size free likely 0 places
    if position ≠ 0 ∧ free ≠ 0 then none
    else some ⟨log, link log places.toList (shares.map Share.size).toArray #[]⟩

def state (t : StateTable) (n : Nat) : BitSource State := fun bits =>
  t.states[n]?.map fun s => (s, bits)

def start (t : StateTable) : BitSource State := do
  t.state (← BitSource.highFirst t.log)

def next (t : StateTable) (s : State) : BitSource State := do
  t.state (s.base + (← BitSource.highFirst s.bits))

/-! ### Descriptions

A description is read from the front of some bytes, which may be fewer than it needs: bits past the
end are 0, and what starts past the end is read four bytes before. It must not end past the end.
-/

/-- The number of `n` bits, the lowest first, at a place. -/
def numberAt (bits : Array Bool) (n place : Nat) : Nat :=
  Bits.toNat ((List.range n).map fun i => bits.getD (place + i) false).reverse

/-- Where reading goes on. -/
def settle (bits : Array Bool) (place : Nat) : Nat :=
  if place < bits.size then place else place - 32

/-- A number below `bound + 1`, in as few bits as leave it unambiguous: the small ones take one
bit less. The place after it is given, too. -/
def boundedAt (bits : Array Bool) (bound place : Nat) : Nat × Nat :=
  let width := bound.log2
  let spare := 2 * 2 ^ width - 1 - bound
  let low := numberAt bits width place
  if low < spare then (low, place + width)
  else if bits.getD (place + width) false then (low + 2 ^ width - spare, place + width + 1)
  else (low, place + width + 1)

/-- How many symbols without a state follow one: three for every pair of bits that are set, and
what the first other pair says. Twelve pairs are taken at once. -/
def absentAt (bits : Array Bool) : (limit : Nat) → (place : Nat) → Nat × Nat
  | 0, place => (0, place)
  | limit + 1, place =>
    let pair (i : Nat) := numberAt bits 2 (place + 2 * i)
    let threes := ((List.range 12).takeWhile fun i => pair i = 3).length
    if threes = 12 then
      let (more, place) := absentAt bits limit (settle bits (place + 24))
      (36 + more, place)
    else (3 * threes + pair threes, place + 2 * threes + 2)

/-- The shares of up to `limit` symbols that take up the `left` states of a table, and the place
after them. -/
def sharesAt (bits : Array Bool) (limit left place : Nat) : Option (List Share × Nat) :=
  match limit, left with
  | _, 0 => some ([], place)
  | 0, _ + 1 => none
  | limit + 1, left + 1 =>
    -- Numbers are one more than the states, so that there is one for rare symbols.
    match boundedAt bits (left + 2) (settle bits place) with
    | (0, place) => do
      let (shares, place) ← sharesAt bits limit left place
      return (.rare :: shares, place)
    | (1, place) => do
      let (more, place) := absentAt bits limit (settle bits place)
      let (shares, place) ← sharesAt bits (limit - more) (left + 1) place
      return (List.replicate (more + 1) (.states 0) ++ shares, place)
    | (n + 2, place) => do
      let (shares, place) ← sharesAt bits limit (left - n) place
      return (.states (n + 1) :: shares, place)
termination_by limit
decreasing_by all_goals omega

/-- The size of a table and the shares of its symbols, and the bytes after them. There are limits to
the size and to the number of symbols. -/
def readShares (mostLog : Nat) (mostSymbols : Nat → Nat) (data : Bytes) :
    Option (Nat × List Share × Bytes) := do
  let padded := data ++ List.replicate (8 - data.length) 0
  let bits := (BitSource.forward padded).toArray
  let log := numberAt bits 4 0 + 5
  if mostLog < log then none
  let (shares, place) ← sharesAt bits (mostSymbols log) (2 ^ log) 4
  if bits.size < place ∨ data.length < (place + 7) / 8 then none
  return (log, shares, data.drop ((place + 7) / 8))

/-- A table from its description, and the bytes after it. -/
def read (mostLog : Nat) (mostSymbols : Nat → Nat) (data : Bytes) :
    Option (StateTable × Bytes) := do
  let (log, shares, rest) ← readShares mostLog mostSymbols data
  return (← ofShares log shares, rest)

end StateTable

end SeriesFile.Codec.Zstd
