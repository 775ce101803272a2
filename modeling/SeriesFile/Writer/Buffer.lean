import SeriesFile.Chunk
import SeriesFile.Writer.Options

/-!
# Buffers

A `Buffer` collects the points of one series until they are written as a chunk. It accepts points
of its type whose timestamps increase. The last accepted timestamp outlives the chunks, so
timestamps increase over the whole file.
-/

namespace SeriesFile

/-- What a buffer is doing. -/
inductive BufferPhase where
  | empty
  | accumulating
  | flushing
  deriving DecidableEq, Repr

/-- The points of a series that are not yet written. -/
structure Buffer where
  schema : Schema
  times : List Int64
  column : Column
  /-- The bytes that the points take up. -/
  rawBytes : Nat
  /-- The last accepted timestamp, written or not. -/
  lastTime : Option Int64
  phase : BufferPhase
  deriving DecidableEq

namespace Buffer

def new (schema : Schema) : Buffer where
  schema := schema
  times := []
  column := Column.empty schema.dataType
  rawBytes := 0
  lastTime := none
  phase := .empty

def length (b : Buffer) : Nat :=
  b.times.length

def isEmpty (b : Buffer) : Bool :=
  b.times.isEmpty

def points (b : Buffer) : List Point :=
  Page.join b.times b.column

/-- The bytes that a point takes up: eight for its timestamp, and those of its value. -/
def cost (value : Value) : Nat :=
  8 + value.rawSize

/-- Whether a point would be accepted, or why not: its type is looked at first. -/
def check (b : Buffer) (time : Int64) (value : Value) : Except Fault Unit :=
  if value.dataType ≠ b.schema.dataType then
    .error (.typeMismatch b.schema.dataType value.dataType)
  else
    match b.lastTime with
    | some last => if time ≤ last then .error (.outOfOrder last time) else .ok ()
    | none => .ok ()

/-- The buffer with one more point, and the bytes it takes up. -/
def append (b : Buffer) (time : Int64) (value : Value) : Except Fault (Nat × Buffer) := do
  b.check time value
  match b.column.push? value with
  | none => .error (.typeMismatch b.schema.dataType value.dataType)
  | some column =>
    return (cost value, { b with
      times := b.times ++ [time]
      column
      rawBytes := b.rawBytes + cost value
      lastTime := some time
      phase := .accumulating })

/-- Whether a limit of a chunk is reached. -/
def isFull (b : Buffer) (options : Options) : Bool :=
  options.maxChunkPoints ≤ b.length || options.maxChunkBytes ≤ b.rawBytes

/-- The buffer after its points were written: only the last timestamp is left of them. -/
def emptied (b : Buffer) : Buffer :=
  { new b.schema with lastTime := b.lastTime }

variable {σ : Type} [Sink σ] [Compressor]

/-- Writes the points as a chunk and empties the buffer; without points nothing is written. Points
that could not be written stay. -/
def flush (b : Buffer) (measurement : String) (stream : Stream σ) :
    Except Fault (Option ChunkEntry) × Buffer × Stream σ :=
  if b.isEmpty then (.ok none, b, stream)
  else
    -- Nobody sees the buffer in this phase: it is left before the buffer is handed back.
    let flushing := { b with phase := .flushing }
    match stream.appendChunk measurement flushing.schema flushing.times flushing.column with
    | (.ok entry, stream) => (.ok entry, b.emptied, stream)
    | (.error fault, stream) => (.error fault, { flushing with phase := .accumulating }, stream)

end Buffer

end SeriesFile
