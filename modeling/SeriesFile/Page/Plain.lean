import SeriesFile.Bytes.Varint

/-!
# Pages of plain values

Every timestamp takes eight bytes and every value its own width, little-endian. A boolean is the
byte 0 or 1. A text is preceded by the number of its bytes.

A page whose fixed-width part is too short is refused before any of it is read.
-/

namespace SeriesFile.Page.Plain

/-- Timestamps, eight bytes each. -/
def encodeTimes (times : List Int64) : Bytes :=
  times.flatMap Bytes.i64

def decodeTimes (count : Nat) : Reader (List Int64) := do
  Reader.require .plainTimestamps (count * 8)
  Reader.replicate count Reader.i64

def encodeValues : Column → Bytes
  | .boolean vs => vs.flatMap Bytes.bool
  | .int32 vs => vs.flatMap Bytes.i32
  | .int64 vs => vs.flatMap Bytes.i64
  | .float vs => vs.flatMap Bytes.u32
  | .double vs => vs.flatMap Bytes.u64
  | .text vs => vs.flatMap Bytes.text

/-- A boolean, which no byte but 0 and 1 stands for. -/
def readBoolean : Reader Bool := do
  match ← Reader.byte with
  | 0 => return false
  | 1 => return true
  | b => Reader.fail (.corrupted (.invalidBoolean b))

def readText : Reader String := do
  let length ← Reader.varint
  Reader.require .plainText length.toNat
  match Utf8.decode (← Reader.take length.toNat) with
  | .ok s => return s
  | .error fault => Reader.fail (.corrupted (.invalidText fault))

def decodeValues (type : DataType) (count : Nat) : Reader Column := do
  match type.width? with
  | some width => Reader.require .plainValues (count * width)
  | none => pure ()
  match type with
  | .boolean => return .boolean (← Reader.replicate count readBoolean)
  | .int32 => return .int32 (← Reader.replicate count Reader.i32)
  | .int64 => return .int64 (← Reader.replicate count Reader.i64)
  | .float => return .float (← Reader.replicate count Reader.u32)
  | .double => return .double (← Reader.replicate count Reader.u64)
  | .text => return .text (← Reader.replicate count readText)

end SeriesFile.Page.Plain
