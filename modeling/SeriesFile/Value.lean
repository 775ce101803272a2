/-!
# Data types, values and columns

A series holds values of one of six data types. A `Column` is the run of values of a series
that is stored together; a `Point` is a value with its timestamp.

Floating-point values are kept as their bit patterns. Equality is then equality of bits, so a
NaN equals itself with its payload, and the two zeros differ: this is the sense in which a value
survives storage unchanged.
-/

namespace SeriesFile

/-- The type of a series' values. -/
inductive DataType where
  | boolean
  | int32
  | int64
  | float
  | double
  | text
  deriving DecidableEq, Repr

namespace DataType

/-- The name under which messages mention the type. -/
def name : DataType → String
  | boolean => "Boolean"
  | int32 => "Int32"
  | int64 => "Int64"
  | float => "Float"
  | double => "Double"
  | text => "Text"

def tag : DataType → UInt8
  | boolean => 0
  | int32 => 1
  | int64 => 2
  | float => 3
  | double => 4
  | text => 5

def ofTag? : UInt8 → Option DataType
  | 0 => some boolean
  | 1 => some int32
  | 2 => some int64
  | 3 => some float
  | 4 => some double
  | 5 => some text
  | _ => none

/-- The number of bytes of every value of the type; text has no fixed width. -/
def width? : DataType → Option Nat
  | boolean => some 1
  | int32 => some 4
  | int64 => some 8
  | float => some 4
  | double => some 8
  | text => none

@[simp]
theorem ofTag?_tag (t : DataType) : ofTag? t.tag = some t := by
  cases t <;> rfl

end DataType

/-- One value of a series; a float or double is its bit pattern. -/
inductive Value where
  | boolean (value : Bool)
  | int32 (value : Int32)
  | int64 (value : Int64)
  | float (bits : UInt32)
  | double (bits : UInt64)
  | text (value : String)
  deriving DecidableEq

namespace Value

def dataType : Value → DataType
  | boolean _ => .boolean
  | int32 _ => .int32
  | int64 _ => .int64
  | float _ => .float
  | double _ => .double
  | text _ => .text

/-- The bytes that a value is counted with while it waits in memory: its width, or for text the
length of its UTF-8 form and four bytes more. -/
def rawSize : Value → Nat
  | boolean _ => 1
  | int32 _ => 4
  | int64 _ => 8
  | float _ => 4
  | double _ => 8
  | text s => s.utf8ByteSize + 4

end Value

/-- A value with its timestamp. -/
structure Point where
  time : Int64
  value : Value
  deriving DecidableEq

/-- A run of values of one type. -/
inductive Column where
  | boolean (values : List Bool)
  | int32 (values : List Int32)
  | int64 (values : List Int64)
  | float (bits : List UInt32)
  | double (bits : List UInt64)
  | text (values : List String)
  deriving DecidableEq

namespace Column

def empty : DataType → Column
  | .boolean => boolean []
  | .int32 => int32 []
  | .int64 => int64 []
  | .float => float []
  | .double => double []
  | .text => text []

def dataType : Column → DataType
  | boolean _ => .boolean
  | int32 _ => .int32
  | int64 _ => .int64
  | float _ => .float
  | double _ => .double
  | text _ => .text

def values : Column → List Value
  | boolean vs => vs.map .boolean
  | int32 vs => vs.map .int32
  | int64 vs => vs.map .int64
  | float vs => vs.map .float
  | double vs => vs.map .double
  | text vs => vs.map .text

def length : Column → Nat
  | boolean vs => vs.length
  | int32 vs => vs.length
  | int64 vs => vs.length
  | float vs => vs.length
  | double vs => vs.length
  | text vs => vs.length

def isEmpty (c : Column) : Bool :=
  c.length == 0

def get? : Column → Nat → Option Value
  | boolean vs, i => vs[i]?.map .boolean
  | int32 vs, i => vs[i]?.map .int32
  | int64 vs, i => vs[i]?.map .int64
  | float vs, i => vs[i]?.map .float
  | double vs, i => vs[i]?.map .double
  | text vs, i => vs[i]?.map .text

/-- The column with one more value at its end; `none` for a value of another type. -/
def push? : Column → Value → Option Column
  | boolean vs, .boolean v => some (boolean (vs ++ [v]))
  | int32 vs, .int32 v => some (int32 (vs ++ [v]))
  | int64 vs, .int64 v => some (int64 (vs ++ [v]))
  | float vs, .float v => some (float (vs ++ [v]))
  | double vs, .double v => some (double (vs ++ [v]))
  | text vs, .text v => some (text (vs ++ [v]))
  | _, _ => none

@[simp]
theorem length_values (c : Column) : c.values.length = c.length := by
  cases c <;> simp [values, length]

@[simp]
theorem values_empty (t : DataType) : (empty t).values = [] := by
  cases t <;> rfl

@[simp]
theorem dataType_empty (t : DataType) : (empty t).dataType = t := by
  cases t <;> rfl

theorem get?_eq_values_getElem? (c : Column) (i : Nat) : c.get? i = c.values[i]? := by
  cases c <;> simp [get?, values]

/-- A value of its own type fits any column, at the end. -/
theorem push?_ok {c : Column} {v : Value} (h : v.dataType = c.dataType) :
    ∃ c', c.push? v = some c' ∧ c'.values = c.values ++ [v] ∧ c'.dataType = c.dataType ∧
      c'.length = c.length + 1 := by
  cases c <;> cases v <;> first
    | contradiction
    | exact ⟨_, rfl, by simp [values], rfl, by simp [length]⟩

end Column

end SeriesFile
