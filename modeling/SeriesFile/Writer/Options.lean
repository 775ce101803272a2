/-!
# Options of a writer

When a writer turns buffered points into chunks, and how it finishes a file.
-/

namespace SeriesFile

/-- What to flush when too much is buffered. -/
inductive PressurePolicy where
  /-- The largest buffers, until enough is flushed. -/
  | flushLargest
  | flushAll
  deriving DecidableEq, Repr

structure Options where
  /-- A chunk is flushed once it has so many points. -/
  maxChunkPoints : Nat := 1048576
  /-- A chunk is flushed once its points take up so many bytes in memory. -/
  maxChunkBytes : Nat := 67108864
  /-- More bytes than this are not kept in memory, over all series. -/
  maxBufferedBytes : Nat := 134217728
  pressurePolicy : PressurePolicy := .flushLargest
  /-- Whether closing waits until the file has reached its device. -/
  syncOnClose : Bool := true
  /-- The bits of the rate at which the Bloom filter lets other series through: one in twenty. -/
  bloomRateBits : UInt64 := 0x3FA999999999999A
  deriving DecidableEq, Repr

namespace Options

/-- Sets the points of a chunk; at least one. -/
def withMaxChunkPoints (o : Options) (n : Nat) : Options :=
  { o with maxChunkPoints := max n 1 }

/-- Sets the bytes of a chunk; at least one. -/
def withMaxChunkBytes (o : Options) (n : Nat) : Options :=
  { o with maxChunkBytes := max n 1 }

end Options

end SeriesFile
