import SeriesFile.Value

/-!
# How a series is stored

A `Schema` says which type the values of a series have, how a run of them is encoded into a page,
and how the page is compressed. Not every encoding can carry every type: `Encoding.supports` is
the table.
-/

namespace SeriesFile

/-- How a run of points is turned into a page of bytes. -/
inductive Encoding where
  /-- Every value as it is. -/
  | plain
  /-- Differences between neighbours. -/
  | ts2diff
  /-- Bits that change between neighbours. -/
  | gorilla
  deriving DecidableEq, Repr

namespace Encoding

/-- The name under which messages mention the encoding. -/
def name : Encoding → String
  | plain => "Plain"
  | ts2diff => "Ts2Diff"
  | gorilla => "Gorilla"

def tag : Encoding → UInt8
  | plain => 0
  | ts2diff => 4
  | gorilla => 8

def ofTag? : UInt8 → Option Encoding
  | 0 => some plain
  | 4 => some ts2diff
  | 8 => some gorilla
  | _ => none

/-- Whether the encoding can carry values of a type: differences need integers, changed bits need
numbers. -/
def supports : Encoding → DataType → Bool
  | plain, _ => true
  | ts2diff, t => t == .int32 || t == .int64
  | gorilla, t => t == .int32 || t == .int64 || t == .float || t == .double

@[simp]
theorem ofTag?_tag (e : Encoding) : ofTag? e.tag = some e := by
  cases e <;> rfl

end Encoding

inductive Compression where
  | uncompressed
  | snappy
  | gzip
  | lz4
  | zstd
  deriving DecidableEq, Repr

namespace Compression

/-- The name under which messages mention the compression. -/
def name : Compression → String
  | uncompressed => "Uncompressed"
  | snappy => "Snappy"
  | gzip => "Gzip"
  | lz4 => "Lz4"
  | zstd => "Zstd"

/-- The byte that stands for the compression in a file. -/
def tag : Compression → UInt8
  | uncompressed => 0
  | snappy => 1
  | gzip => 2
  | lz4 => 7
  | zstd => 8

def ofTag? : UInt8 → Option Compression
  | 0 => some uncompressed
  | 1 => some snappy
  | 2 => some gzip
  | 7 => some lz4
  | 8 => some zstd
  | _ => none

@[simp]
theorem ofTag?_tag (c : Compression) : ofTag? c.tag = some c := by
  cases c <;> rfl

end Compression

/-- The declared storage of a series. -/
structure Schema where
  dataType : DataType
  encoding : Encoding
  compression : Compression
  deriving DecidableEq, Repr

/-- Whether the encoding of the schema can carry its type. -/
def Schema.isSupported (s : Schema) : Bool :=
  s.encoding.supports s.dataType

end SeriesFile
