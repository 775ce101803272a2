import SeriesFile.Page.Difference
import SeriesFile.Page.Plain
import SeriesFile.Page.TimeBits
import SeriesFile.Page.ValueBits

/-!
# Pages

A page is a run of points of one series as bytes: the length of the time section, the time
section, and the values. How many points a page holds is not part of it; whoever reads it knows
the number. A page must be used up exactly by its points.
-/

namespace SeriesFile.Page

def encodeTimes : Encoding → List Int64 → Bytes
  | .plain => Plain.encodeTimes
  | .ts2diff => Difference.encode64
  | .gorilla => TimeBits.encode

def decodeTimes : Encoding → (count : Nat) → Reader (List Int64)
  | .plain => Plain.decodeTimes
  | .ts2diff => Difference.decode64
  | .gorilla => TimeBits.decode

/-- A column in the manner of an encoding that supports its type. -/
def encodeValues : Encoding → Column → Bytes
  | .plain, column => Plain.encodeValues column
  | .ts2diff, .int32 vs => Difference.encode32 vs
  | .ts2diff, .int64 vs => Difference.encode64 vs
  | .ts2diff, _ => []
  | .gorilla, column => ValueBits.encode column

/-- `count` values of a type that the encoding supports. -/
def decodeValues : Encoding → DataType → (count : Nat) → Reader Column
  | .plain, type, count => Plain.decodeValues type count
  | .ts2diff, .int32, count => return .int32 (← Difference.decode32 count)
  | .ts2diff, _, count => return .int64 (← Difference.decode64 count)
  | .gorilla, type, count => ValueBits.decode type count

/-- The page of parallel timestamps and values. -/
def encode (encoding : Encoding) (times : List Int64) (column : Column) : Except Fault Bytes :=
  if !encoding.supports column.dataType then .error (.encodingMismatch column.dataType encoding)
  else if times.length ≠ column.length then
    .error (.corrupted (.unequalLengths times.length column.length))
  else
    let timeSection := encodeTimes encoding times
    .ok (Varint.encode (UInt64.ofNat timeSection.length) ++ timeSection ++
      encodeValues encoding column)

/-- The timestamps and values of a page of `count` points, a number of them that memory can hold:
`Guarded.decode` says what a machine does beyond, and up to there both are the same. -/
def decode (type : DataType) (encoding : Encoding) (count : Nat) (page : Bytes) :
    Except Fault (List Int64 × Column) := do
  if !encoding.supports type then .error (.encodingMismatch type encoding)
  let (length, page) ← Reader.varint page
  let (_, page) ← Reader.require .timeSection length.toNat page
  let (timeSection, page) ← Reader.take length.toNat page
  -- The times end with their section, the values with the page.
  let (times, timesLeft) ← decodeTimes encoding count timeSection
  let (column, valuesLeft) ← decodeValues encoding type count page
  if timesLeft.isEmpty && valuesLeft.isEmpty then return (times, column)
  else .error (.corrupted (.trailingBytes (timesLeft.length + valuesLeft.length) count))

/-- The column of the values of points that all have one type. -/
def columnOf (type : DataType) (points : List Point) : Except Fault Column :=
  points.foldlM (fun column point =>
    match column.push? point.value with
    | some column => .ok column
    | none => .error (.typeMismatch type point.value.dataType)) (Column.empty type)

/-- The page of points that all have one type. -/
def encodePoints (type : DataType) (encoding : Encoding) (points : List Point) :
    Except Fault Bytes := do
  if !encoding.supports type then .error (.encodingMismatch type encoding)
  let column ← columnOf type points
  encode encoding (points.map Point.time) column

/-- Timestamps and values joined to points. -/
def join (times : List Int64) (column : Column) : List Point :=
  List.zipWith Point.mk times column.values

def decodePoints (type : DataType) (encoding : Encoding) (count : Nat) (page : Bytes) :
    Except Fault (List Point) := do
  let (times, column) ← decode type encoding count page
  return join times column

/-! ### Joined points and their parts -/

variable {times : List Int64} {column : Column}

theorem times_join (h : times.length = column.length) :
    (join times column).map Point.time = times := by
  rw [join, ← List.map_uncurry_zip_eq_zipWith, List.map_map]
  exact List.map_fst_zip (Nat.le_of_eq (by rw [h, Column.length_values]))

theorem values_join (h : times.length = column.length) :
    (join times column).map Point.value = column.values := by
  rw [join, ← List.map_uncurry_zip_eq_zipWith, List.map_map]
  exact List.map_snd_zip (Nat.le_of_eq (by rw [h, Column.length_values]))

theorem length_join (h : times.length = column.length) :
    (join times column).length = times.length := by
  rw [join, List.length_zipWith, Column.length_values, ← h, Nat.min_self]

/-- Points that were taken apart are put together again. -/
theorem join_parts {points : List Point} (h : column.values = points.map Point.value) :
    join (points.map Point.time) column = points := by
  rw [join, h, List.zipWith_map, List.zipWith_self, List.map_id'']
  exact fun _ => rfl

end SeriesFile.Page
