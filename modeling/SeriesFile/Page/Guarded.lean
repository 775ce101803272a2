import SeriesFile.Page

/-!
# Pages read by a machine

The bytes of a page may come from anywhere. A machine reads them with numbers of a fixed width, with
words that are shifted and with slices of memory, and none of these is made for everything that it
may be given: a sum can leave its width, a shift its word, a slice its bytes. A program that asks
for such a thing does not fail in an orderly way. Here the reading of pages is written down step by
step, with everything that could be asked for wrongly looked at before it is done: a `Misstep` is
what no page may lead to, and is not among the faults that a page is to blame for.

Numbers without a sign are natural numbers with a width for every operation; `word`s are 64 bits
wide and lose what is shifted out of them, as they are meant to.
-/

namespace SeriesFile.Guarded

/-- What a machine is not made for. -/
inductive Misstep where
  /-- More bytes are taken than are left. -/
  | exhausted
  /-- A slice does not lie inside its bytes. -/
  | outside
  /-- A number without a sign would be below zero. -/
  | belowZero
  /-- A word is shifted by its whole width or more. -/
  | shiftedOut
  /-- A number leaves its width, or a size the memory. -/
  | overflow
  deriving DecidableEq, Repr

/-- Why the reading of a page stops. -/
inductive Halt where
  | fault (fault : Fault)
  | misstep (misstep : Misstep)
  deriving DecidableEq

/-! ### Arithmetic -/

def add (width a b : Nat) : Except Halt Nat :=
  if a + b < 2 ^ width then .ok (a + b) else .error (.misstep .overflow)

def mul (width a b : Nat) : Except Halt Nat :=
  if a * b < 2 ^ width then .ok (a * b) else .error (.misstep .overflow)

def sub (a b : Nat) : Except Halt Nat :=
  if b ≤ a then .ok (a - b) else .error (.misstep .belowZero)

/-- The difference of two numbers with a sign. -/
def subSigned (a b : Int64) : Except Halt Int64 :=
  let difference := a.toInt - b.toInt
  if -2 ^ 63 ≤ difference ∧ difference < 2 ^ 63 then .ok (Int64.ofInt difference)
  else .error (.misstep .overflow)

def shiftLeft (word : UInt64) (places : Nat) : Except Halt UInt64 :=
  if places < 64 then .ok (word <<< UInt64.ofNat places) else .error (.misstep .shiftedOut)

/-- Room for so many things of a size. No stretch of memory is longer than half of the addresses. -/
def reserve (count size : Nat) : Except Halt Unit :=
  if count * size < 2 ^ 63 then .ok () else .error (.misstep .overflow)

/-! ### Bytes -/

/-- Takes something from the front of the bytes. -/
abbrev Reader (α : Type) := StateT Bytes (Except Halt) α

namespace Reader

variable {α : Type}

def fail (fault : Fault) : Reader α :=
  fun _ => .error (.fault fault)

/-- The next `n` bytes, which have to be there. -/
def take (n : Nat) : Reader Bytes := fun bytes =>
  if n ≤ bytes.length then .ok (bytes.take n, bytes.drop n) else .error (.misstep .exhausted)

def byte : Reader UInt8
  | [] => .error (.misstep .exhausted)
  | b :: bytes => .ok (b, bytes)

/-- The first `n` bytes as a slice; they are not yet taken. -/
def upTo (n : Nat) : Reader Bytes := fun bytes =>
  if n ≤ bytes.length then .ok (bytes.take n, bytes) else .error (.misstep .outside)

/-- The first `n` bytes as a slice and the others as another one. -/
def splitAt (n : Nat) : Reader Bytes := fun bytes =>
  if n ≤ bytes.length then .ok (bytes.take n, bytes.drop n) else .error (.misstep .outside)

/-- Fails unless `need` bytes are left for a part of a page. -/
def require (part : PagePart) (need : Nat) : Reader Unit := fun bytes =>
  if bytes.length < need then .error (.fault (.corrupted (.tooShort part need bytes.length)))
  else .ok ((), bytes)

/-- A number of the given width, the lowest byte first. -/
def littleEndian (width : Nat) : Reader Nat := do
  return (← take width).ofLittleEndian

def u32 : Reader UInt32 := do
  return UInt32.ofNat (← littleEndian 4)

def u64 : Reader UInt64 := do
  return UInt64.ofNat (← littleEndian 8)

def i32 : Reader Int32 := do
  return (← u32).toInt32

def i64 : Reader Int64 := do
  return (← u64).toInt64

def replicate (n : Nat) (read : Reader α) : Reader (List α) :=
  match n with
  | 0 => pure []
  | n + 1 => do
    let a ← read
    let rest ← replicate n read
    return a :: rest

/-- So many things, each of which takes `size` bytes of memory. -/
def collect (count size : Nat) (read : Reader α) : Reader (List α) := do
  reserve count size
  replicate count read

/-- The groups of a varint, each in its place above those that have been read. -/
def varintFrom (word : UInt64) (places : Nat) : Reader UInt64
  | [] => .error (.fault (.corrupted .truncatedVarint))
  | b :: bytes => do
    let word := word ||| (← shiftLeft (b &&& 0x7F).toUInt64 places)
    if b &&& 0x80 = 0 then return (word, bytes)
    let places ← add 31 places 7
    if 64 ≤ places then .error (.fault (.corrupted .oversizedVarint))
    else varintFrom word places bytes

def varint : Reader UInt64 :=
  varintFrom 0 0

def signedVarint : Reader Int64 := do
  return Varint.unzigzag (← varint)

end Reader

/-! ### Plain values -/

namespace Plain

def decodeTimes (count : Nat) : Reader (List Int64) := do
  Reader.require .plainTimestamps (← mul 64 count 8)
  Reader.collect count 8 Reader.i64

/-- A boolean, which no byte but 0 and 1 stands for. -/
def readBoolean : Reader Bool := do
  let b ← Reader.byte
  if b = 0 then return false
  else if b = 1 then return true
  else Reader.fail (.corrupted (.invalidBoolean b))

/-- A text, which is looked at before its bytes are taken. -/
def readText : Reader String := do
  let length ← Reader.varint
  Reader.require .plainText length.toNat
  match Utf8.decode (← Reader.upTo length.toNat) with
  | .ok s =>
    let _ ← Reader.take length.toNat
    return s
  | .error fault => Reader.fail (.corrupted (.invalidText fault))

def decodeValues (type : DataType) (count : Nat) : Reader Column := do
  match type.width? with
  | some width => Reader.require .plainValues (← mul 64 count width)
  | none => pure ()
  match type with
  | .boolean => return .boolean (← Reader.collect count 1 readBoolean)
  | .int32 => return .int32 (← Reader.collect count 4 Reader.i32)
  | .int64 => return .int64 (← Reader.collect count 8 Reader.i64)
  | .float => return .float (← Reader.collect count 4 Reader.u32)
  | .double => return .double (← Reader.collect count 8 Reader.u64)
  | .text => return .text (← Reader.collect count 24 readText)

end Plain

/-! ### Differences -/

namespace Difference

/-- The next `count` 64-bit numbers after `previous`; sums wrap around. -/
def following64 (previous : Int64) : (count : Nat) → Reader (List Int64)
  | 0 => pure []
  | count + 1 => do
    let difference ← Reader.signedVarint
    let v := previous + difference
    let vs ← following64 v count
    return v :: vs

def decode64 : (count : Nat) → Reader (List Int64)
  | 0 => pure []
  | count + 1 => do
    Reader.require .firstValue 8
    reserve (count + 1) 8
    let v ← Reader.i64
    let vs ← following64 v count
    return v :: vs

/-- The sum of two numbers, if it has 64 bits. -/
def sum? (a b : Int64) : Option Int64 :=
  let sum := a.toInt + b.toInt
  if -2 ^ 63 ≤ sum ∧ sum < 2 ^ 63 then some (Int64.ofInt sum) else none

/-- A number as one of 32 bits, if they are enough. -/
def narrow? (n : Int64) : Option Int32 :=
  if -2 ^ 31 ≤ n.toInt ∧ n.toInt < 2 ^ 31 then some n.toInt32 else none

/-- The next `count` 32-bit numbers after `previous`. -/
def following32 (previous : Int32) : (count : Nat) → Reader (List Int32)
  | 0 => pure []
  | count + 1 => do
    let difference ← Reader.signedVarint
    match (sum? previous.toInt64 difference).bind narrow? with
    | none => Reader.fail (.corrupted (.int32DeltaOutOfRange difference))
    | some v =>
      let vs ← following32 v count
      return v :: vs

def decode32 : (count : Nat) → Reader (List Int32)
  | 0 => pure []
  | count + 1 => do
    Reader.require .firstValue 4
    reserve (count + 1) 4
    let v ← Reader.i32
    let vs ← following32 v count
    return v :: vs

end Difference

/-! ### Bits -/

/-- A place among the bits of some bytes. -/
structure Cursor where
  data : Bytes
  position : Nat

/-- Reads bits from a place on. -/
abbrev BitReader (α : Type) := StateT Cursor (Except Halt) α

namespace BitReader

def fail {α : Type} (fault : Fault) : BitReader α :=
  fun _ => .error (.fault fault)

/-- The next bit; of a byte the highest comes first. -/
def bit : BitReader Bool := fun cursor =>
  match cursor.data[cursor.position / 8]? with
  | none => .error (.fault (.corrupted .bitsExhausted))
  | some b => do
    let position ← add 64 cursor.position 1
    return (b.toNat.testBit (7 - cursor.position % 8), { cursor with position })

/-- The next `width` bits, below those of a word. -/
def wordFrom (word : UInt64) : (width : Nat) → BitReader UInt64
  | 0 => pure word
  | width + 1 => do
    let shifted ← shiftLeft word 1
    let b ← bit
    wordFrom (shifted ||| b.toUInt64) width

def word (width : Nat) : BitReader UInt64 :=
  wordFrom 0 width

/-- Reads bits from the front of bytes, and leaves the bytes of which none was read. A slice of bits
is shorter than 2 ^ 61. -/
def onBytes {α : Type} (read : BitReader α) : Reader α := fun bytes =>
  if 8 * bytes.length < 2 ^ 61 then do
    let (a, cursor) ← read ⟨bytes, 0⟩
    let (_, left) ← Reader.splitAt ((cursor.position + 7) / 8) bytes
    return (a, left)
  else .error (.misstep .overflow)

end BitReader

/-! ### Timestamps as changed bits -/

namespace TimeBits

/-- A number counted from below zero. -/
def readOffset (width : Nat) (below : Int64) : BitReader Int64 := do
  subSigned (← BitReader.word width).toInt64 below

/-- The change of a distance. -/
def readChange : BitReader Int64 := do
  if !(← BitReader.bit) then return 0
  if !(← BitReader.bit) then return ← readOffset 7 63
  if !(← BitReader.bit) then return ← readOffset 9 255
  if !(← BitReader.bit) then return ← readOffset 12 2047
  return (← BitReader.word 64).toInt64

/-- The next `count` timestamps after `previous`; distances and times wrap around. -/
def readFollowing (previous distance : Int64) : (count : Nat) → BitReader (List Int64)
  | 0 => pure []
  | count + 1 => do
    let change ← readChange
    let distance := distance + change
    let t := previous + distance
    let times ← readFollowing t distance count
    return t :: times

def readBits : (count : Nat) → BitReader (List Int64)
  | 0 => pure []
  | count + 1 => do
    let t := (← BitReader.word 64).toInt64
    let times ← readFollowing t 0 count
    return t :: times

def decode (count : Nat) : Reader (List Int64) := do
  reserve count 8
  (readBits count).onBytes

end TimeBits

/-! ### Numbers as changed bits -/

namespace ValueBits

open Page.ValueBits (Window ofPatterns)

/-- So many bits, in front of `trailing` zeros. -/
def readInside (width trailing : Nat) : BitReader UInt64 := do
  shiftLeft (← BitReader.word width) trailing

/-- The place and width of a window; refused if it would go beyond 64 bits. -/
def readWindow : BitReader (Window × Nat) := do
  let leading := (← BitReader.word 5).toNat
  let width ← add 32 (← BitReader.word 6).toNat 1
  let taken ← add 32 leading width
  if taken ≤ 64 then return (⟨leading, 64 - taken⟩, width)
  else BitReader.fail (.corrupted .windowTooWide)

/-- A difference, and the window in force after it. -/
def readDifference (window : Window) : BitReader (UInt64 × Window) := do
  if !(← BitReader.bit) then return (0, window)
  if !(← BitReader.bit) then
    let width ← sub (← sub 64 window.leading) window.trailing
    return (← readInside width window.trailing, window)
  let (window, width) ← readWindow
  return (← readInside width window.trailing, window)

/-- The next `count` patterns after `previous`. -/
def readFollowing (window : Window) (previous : UInt64) : (count : Nat) → BitReader (List UInt64)
  | 0 => pure []
  | count + 1 => do
    let (difference, window) ← readDifference window
    let p := previous ^^^ difference
    let patterns ← readFollowing window p count
    return p :: patterns

/-- `count` patterns. Before any window is set the whole word is in force. -/
def readBits : (count : Nat) → BitReader (List UInt64)
  | 0 => pure []
  | count + 1 => do
    let p ← BitReader.word 64
    let patterns ← readFollowing ⟨0, 0⟩ p count
    return p :: patterns

def decode (type : DataType) (count : Nat) : Reader Column := do
  reserve count 8
  let ps ← (readBits count).onBytes
  match ofPatterns type ps with
  | .ok column => return column
  | .error fault => Reader.fail fault

end ValueBits

/-! ### Whole pages -/

def decodeTimes : Encoding → (count : Nat) → Reader (List Int64)
  | .plain => Plain.decodeTimes
  | .ts2diff => Difference.decode64
  | .gorilla => TimeBits.decode

/-- `count` values of a type that the encoding supports. -/
def decodeValues : Encoding → DataType → (count : Nat) → Reader Column
  | .plain, type, count => Plain.decodeValues type count
  | .ts2diff, .int32, count => return .int32 (← Difference.decode32 count)
  | .ts2diff, _, count => return .int64 (← Difference.decode64 count)
  | .gorilla, type, count => ValueBits.decode type count

/-- The timestamps and values of a page of `count` points. -/
def decode (type : DataType) (encoding : Encoding) (count : Nat) (page : Bytes) :
    Except Halt (List Int64 × Column) := do
  if !encoding.supports type then .error (.fault (.encodingMismatch type encoding))
  let (length, page) ← Reader.varint page
  let (_, page) ← Reader.require .timeSection length.toNat page
  let (timeSection, page) ← Reader.splitAt length.toNat page
  let (times, timesLeft) ← decodeTimes encoding count timeSection
  let (column, valuesLeft) ← decodeValues encoding type count page
  if timesLeft.isEmpty && valuesLeft.isEmpty then return (times, column)
  else
    let left ← add 64 timesLeft.length valuesLeft.length
    .error (.fault (.corrupted (.trailingBytes left count)))

/-- Timestamps joined to the values at their places; one without a value is dropped. -/
def join (times : List Int64) (column : Column) : List Point :=
  times.zipIdx.filterMap fun timed => (column.get? timed.2).map (Point.mk timed.1)

def decodePoints (type : DataType) (encoding : Encoding) (count : Nat) (page : Bytes) :
    Except Halt (List Point) := do
  let (times, column) ← decode type encoding count page
  return join times column

end SeriesFile.Guarded
