import SeriesFile.Bytes.Bits

/-!
# Numbers as changed bits

Numbers are written as patterns of 64 bits; one of 32 bits is widened with zeros. The first
pattern is written whole. Of a later one only the bits that differ from the pattern before are
written, within a window that leaves out equal bits at both ends:

| difference                    | bits                                                       |
|-------------------------------|------------------------------------------------------------|
| none                          | `0`                                                        |
| inside the window in force    | `10`, then the bits of the window                          |
| any other                     | `11`, 5 bits: equal bits in front, 6 bits: width less one, then the bits of the new window |

A window in front of which more than 31 bits are equal starts after 31, which is all that five
bits can say.
-/

namespace SeriesFile.Page.ValueBits

/-- The stretch of a 64-bit pattern in which bits may differ. -/
structure Window where
  /-- The equal bits before it. -/
  leading : Nat
  /-- The equal bits after it. -/
  trailing : Nat
  deriving DecidableEq, Repr

def Window.width (w : Window) : Nat :=
  64 - w.leading - w.trailing

/-- The number of zeros in front of the highest one of a 64-bit pattern. -/
def leadingZeros (n : Nat) : Nat :=
  if n = 0 then 64 else 63 - n.log2

/-- The number of zeros after the lowest one, if it is among the low `limit` bits. -/
def trailingZeros : (limit : Nat) → Nat → Nat
  | 0, _ => 0
  | limit + 1, n => if n % 2 = 1 then 0 else trailingZeros limit (n / 2) + 1

/-- The narrowest window that a difference can be written in. -/
def Window.around (difference : Nat) : Window :=
  ⟨min (leadingZeros difference) 31, trailingZeros 64 difference⟩

def Window.covers (outer inner : Window) : Bool :=
  outer.leading ≤ inner.leading && outer.trailing ≤ inner.trailing

/-- The bits of a difference inside a window. -/
def Window.bits (w : Window) (difference : Nat) : List Bool :=
  Bits.ofNat w.width (difference >>> w.trailing)

/-- The window's place and width. -/
def Window.header (w : Window) : List Bool :=
  Bits.ofNat 5 w.leading ++ Bits.ofNat 6 (w.width - 1)

/-- The patterns after `previous`, under the window in force, if one was set. -/
def encodeFollowing (window : Option Window) (previous : UInt64) : List UInt64 → List Bool
  | [] => []
  | p :: patterns =>
    let difference := (p ^^^ previous).toNat
    if difference = 0 then false :: encodeFollowing window p patterns
    else
      let own := Window.around difference
      match window with
      | some w =>
        if w.covers own then [true, false] ++ w.bits difference ++ encodeFollowing window p patterns
        else
          [true, true] ++ own.header ++ own.bits difference ++ encodeFollowing (some own) p patterns
      | none =>
        [true, true] ++ own.header ++ own.bits difference ++ encodeFollowing (some own) p patterns

def encodeBits : List UInt64 → List Bool
  | [] => []
  | p :: patterns => Bits.ofNat 64 p.toNat ++ encodeFollowing none p patterns

/-- The place and width of a window; refused if it would go beyond 64 bits. -/
def readWindow : Bits.Reader Window := do
  let leading ← Bits.Reader.nat 5
  let width := (← Bits.Reader.nat 6) + 1
  if leading + width ≤ 64 then return ⟨leading, 64 - (leading + width)⟩
  else Bits.Reader.fail (.corrupted .windowTooWide)

/-- A difference inside a window. -/
def readInside (w : Window) : Bits.Reader UInt64 := do
  return UInt64.ofNat ((← Bits.Reader.nat w.width) <<< w.trailing)

/-- A difference, and the window in force after it. -/
def readDifference (window : Window) : Bits.Reader (UInt64 × Window) := do
  if !(← Bits.Reader.bit) then return (0, window)
  if !(← Bits.Reader.bit) then return (← readInside window, window)
  let window ← readWindow
  return (← readInside window, window)

/-- The next `count` patterns after `previous`. -/
def readFollowing (window : Window) (previous : UInt64) : (count : Nat) → Bits.Reader (List UInt64)
  | 0 => pure []
  | count + 1 => do
    let (difference, window) ← readDifference window
    let p := previous ^^^ difference
    let patterns ← readFollowing window p count
    return p :: patterns

/-- `count` patterns. Before any window is set the whole word is in force. -/
def readBits : (count : Nat) → Bits.Reader (List UInt64)
  | 0 => pure []
  | count + 1 => do
    let p := UInt64.ofNat (← Bits.Reader.nat 64)
    let patterns ← readFollowing ⟨0, 0⟩ p count
    return p :: patterns

/-- The patterns of a column of numbers; other columns have none. -/
def patterns : Column → List UInt64
  | .int32 vs => vs.map fun v => v.toUInt32.toUInt64
  | .int64 vs => vs.map Int64.toUInt64
  | .float vs => vs.map UInt32.toUInt64
  | .double vs => vs
  | .boolean _ | .text _ => []

/-- The column of numbers of a type that patterns stand for. -/
def ofPatterns (type : DataType) (ps : List UInt64) : Except Fault Column :=
  match type with
  | .int32 => .ok (.int32 (ps.map fun p => p.toUInt32.toInt32))
  | .int64 => .ok (.int64 (ps.map UInt64.toInt64))
  | .float => .ok (.float (ps.map UInt64.toUInt32))
  | .double => .ok (.double ps)
  | .boolean | .text => .error (.encodingMismatch type .gorilla)

def encode (column : Column) : Bytes :=
  Bits.pack (encodeBits (patterns column))

def decode (type : DataType) (count : Nat) : Reader Column := do
  let ps ← (readBits count).onBytes
  match ofPatterns type ps with
  | .ok column => return column
  | .error fault => Reader.fail fault

end SeriesFile.Page.ValueBits
