import SeriesFile.Arithmetic
import SeriesFile.Bytes.Varint

/-!
# Statistics

Statistics summarise a run of points: how many there are, the first and last timestamp, and a
summary of the values that depends on their type. They are computed for every chunk and merged, in
the order of the chunks, into those of the series.

On bytes the type is not recorded; it is known from what stands around.
-/

namespace SeriesFile

/-- The summary of a run of numbers. -/
structure NumberSummary (α σ : Type) where
  min : α
  max : α
  first : α
  last : α
  sum : σ
  deriving DecidableEq

namespace NumberSummary

variable {α σ : Type}

def single (ops : Arithmetic α σ) (v : α) : NumberSummary α σ :=
  ⟨v, v, v, v, ops.widen v⟩

/-- The summary of a run with one more number at its end. -/
def snoc (ops : Arithmetic α σ) (s : NumberSummary α σ) (v : α) : NumberSummary α σ where
  min := ops.lesser s.min v
  max := ops.greater s.max v
  first := s.first
  last := v
  sum := ops.add s.sum (ops.widen v)

/-- The summary of a run; an empty run has none. -/
def ofList? (ops : Arithmetic α σ) : List α → Option (NumberSummary α σ)
  | [] => none
  | v :: vs => some (vs.foldl (snoc ops) (single ops v))

/-- The summary of two runs, one after the other. -/
def merge (ops : Arithmetic α σ) (s later : NumberSummary α σ) : NumberSummary α σ where
  min := ops.lesser s.min later.min
  max := ops.greater s.max later.max
  first := s.first
  last := later.last
  sum := ops.add s.sum later.sum

def write (value : α → Bytes) (total : σ → Bytes) (s : NumberSummary α σ) : Bytes :=
  value s.min ++ value s.max ++ value s.first ++ value s.last ++ total s.sum

def read (value : Reader α) (total : Reader σ) : Reader (NumberSummary α σ) := do
  let min ← value
  let max ← value
  let first ← value
  let last ← value
  let sum ← total
  return { min, max, first, last, sum }

end NumberSummary

/-- The summary of the values of a run. -/
inductive ValueSummary where
  | boolean (first last : Bool) (trueCount : UInt64)
  | int32 (numbers : NumberSummary Int32 Int64)
  | int64 (numbers : NumberSummary Int64 UInt64)
  | float (numbers : NumberSummary UInt32 UInt64)
  | double (numbers : NumberSummary UInt64 UInt64)
  | text (first last : String)
  deriving DecidableEq

namespace ValueSummary

def dataType : ValueSummary → DataType
  | boolean .. => .boolean
  | int32 _ => .int32
  | int64 _ => .int64
  | float _ => .float
  | double _ => .double
  | text .. => .text

/-- The summary of a column; an empty column has none. -/
def ofColumn? : Column → Option ValueSummary
  | .boolean vs =>
    match vs.head?, vs.getLast? with
    | some first, some last => some (boolean first last (UInt64.ofNat (vs.count true)))
    | _, _ => none
  | .int32 vs => (NumberSummary.ofList? .int32 vs).map int32
  | .int64 vs => (NumberSummary.ofList? .int64 vs).map int64
  | .float vs => (NumberSummary.ofList? .float vs).map float
  | .double vs => (NumberSummary.ofList? .double vs).map double
  | .text vs =>
    match vs.head?, vs.getLast? with
    | some first, some last => some (text first last)
    | _, _ => none

/-- The summary of two runs, one after the other; `none` if their types differ. -/
def merge? : ValueSummary → ValueSummary → Option ValueSummary
  | boolean first _ n, boolean _ last m => some (boolean first last (n + m))
  | int32 a, int32 b => some (int32 (a.merge .int32 b))
  | int64 a, int64 b => some (int64 (a.merge .int64 b))
  | float a, float b => some (float (a.merge .float b))
  | double a, double b => some (double (a.merge .double b))
  | text first _, text _ last => some (text first last)
  | _, _ => none

/-- The least value, for types that have one. -/
def min? : ValueSummary → Option Value
  | int32 s => some (.int32 s.min)
  | int64 s => some (.int64 s.min)
  | float s => some (.float s.min)
  | double s => some (.double s.min)
  | boolean .. | text .. => none

/-- The greatest value, for types that have one. -/
def max? : ValueSummary → Option Value
  | int32 s => some (.int32 s.max)
  | int64 s => some (.int64 s.max)
  | float s => some (.float s.max)
  | double s => some (.double s.max)
  | boolean .. | text .. => none

def write : ValueSummary → Bytes
  | boolean first last trueCount => Bytes.bool first ++ Bytes.bool last ++ Bytes.u64 trueCount
  | int32 s => s.write Bytes.i32 Bytes.i64
  | int64 s => s.write Bytes.i64 Bytes.u64
  | float s => s.write Bytes.u32 Bytes.u64
  | double s => s.write Bytes.u64 Bytes.u64
  | text first last => Bytes.text first ++ Bytes.text last

/-- The summary of values of a type from bytes. Of a boolean, every byte but 0 is true. -/
def read : DataType → Reader ValueSummary
  | .boolean => do
    let first ← Reader.byte
    let last ← Reader.byte
    let trueCount ← Reader.u64
    return boolean (first != 0) (last != 0) trueCount
  | .int32 => return int32 (← NumberSummary.read Reader.i32 Reader.i64)
  | .int64 => return int64 (← NumberSummary.read Reader.i64 Reader.u64)
  | .float => return float (← NumberSummary.read Reader.u32 Reader.u64)
  | .double => return double (← NumberSummary.read Reader.u64 Reader.u64)
  | .text => do
    let first ← Reader.text
    let last ← Reader.text
    return text first last

end ValueSummary

/-- The statistics of a run of points. -/
structure Statistics where
  count : UInt64
  startTime : Int64
  endTime : Int64
  values : ValueSummary
  deriving DecidableEq

namespace Statistics

def dataType (s : Statistics) : DataType :=
  s.values.dataType

/-- The statistics of parallel timestamps and values; an empty run has none. -/
def ofColumns? (times : List Int64) (column : Column) : Option Statistics := do
  let startTime ← times.head?
  let endTime ← times.getLast?
  let values ← ValueSummary.ofColumn? column
  return { count := UInt64.ofNat times.length, startTime, endTime, values }

/-- The statistics of two runs, the second of which comes later. -/
def merge (s later : Statistics) : Except Fault Statistics :=
  match s.values.merge? later.values with
  | some values =>
    .ok { count := s.count + later.count, startTime := s.startTime, endTime := later.endTime, values }
  | none => .error (.typeMismatch s.dataType later.dataType)

def write (s : Statistics) : Bytes :=
  Bytes.u64 s.count ++ Bytes.i64 s.startTime ++ Bytes.i64 s.endTime ++ s.values.write

def read (type : DataType) : Reader Statistics := do
  let count ← Reader.u64
  let startTime ← Reader.i64
  let endTime ← Reader.i64
  let values ← ValueSummary.read type
  return { count, startTime, endTime, values }

end Statistics

end SeriesFile
