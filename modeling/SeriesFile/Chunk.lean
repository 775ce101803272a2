import SeriesFile.Codec
import SeriesFile.Footer
import SeriesFile.Hash.Crc32
import SeriesFile.Page
import SeriesFile.Stream

/-!
# Chunks

A chunk is a run of points of one series as it stands in a file: a header and the compressed page.
The header says how the page is stored, how large it is before and after compression, its
checksum, and the statistics of the points.
-/

namespace SeriesFile

/-- What stands before the payload of a chunk. -/
structure ChunkHeader where
  measurement : String
  schema : Schema
  pointCount : UInt32
  /-- The number of bytes of the page. -/
  rawLength : UInt32
  /-- The number of bytes of the payload. -/
  compressedLength : UInt32
  /-- The checksum of the payload. -/
  checksum : UInt32
  statistics : Statistics
  deriving DecidableEq

namespace ChunkHeader

def write (h : ChunkHeader) : Bytes :=
  Bytes.text h.measurement ++ h.schema.write ++ Bytes.u32 h.pointCount ++ Bytes.u32 h.rawLength ++
    Bytes.u32 h.compressedLength ++ Bytes.u32 h.checksum ++ h.statistics.write

def read : Reader ChunkHeader := do
  let measurement ← Reader.text
  let schema ← Schema.read
  let pointCount ← Reader.u32
  let rawLength ← Reader.u32
  let compressedLength ← Reader.u32
  let checksum ← Reader.u32
  let statistics ← Statistics.read schema.dataType
  return { measurement, schema, pointCount, rawLength, compressedLength, checksum, statistics }

end ChunkHeader

/-- A run of points as it stands in a file. -/
structure Chunk where
  header : ChunkHeader
  /-- The compressed page. -/
  payload : Bytes
  deriving DecidableEq

namespace Chunk

/-- A size that fits the field of a header. -/
def fieldOf (what : ChunkSize) (size : Nat) : Except Fault UInt32 :=
  if size < 2 ^ 32 then .ok (UInt32.ofNat size)
  else .error (.writeFailure (.chunkTooLarge what size))

/-- The chunk of a run of points; there is none for an empty run. -/
def build [Compressor] (measurement : String) (schema : Schema) (times : List Int64)
    (column : Column) : Except Fault (Option Chunk) :=
  match Statistics.ofColumns? times column with
  | none => .ok none
  | some statistics => do
    let page ← Page.encode schema.encoding times column
    let payload ← schema.compression.pack page
    let pointCount ← fieldOf .pointCount times.length
    let rawLength ← fieldOf .rawLength page.length
    let compressedLength ← fieldOf .compressedLength payload.length
    return some {
      header := {
        measurement, schema, pointCount, rawLength, compressedLength
        checksum := Crc32.hash payload
        statistics }
      payload }

/-- A chunk from the bytes after its marker; the payload must have the recorded checksum. -/
def read : Reader Chunk := do
  let header ← ChunkHeader.read
  let payload ← Reader.take header.compressedLength.toNat
  let actual := Crc32.hash payload
  if actual = header.checksum then return { header, payload }
  else Reader.fail (.checksumMismatch header.checksum actual)

def decode (c : Chunk) : Except Fault (List Int64 × Column) := do
  let page ← c.header.schema.compression.decompress c.header.rawLength.toNat c.payload
  Page.decode c.header.schema.dataType c.header.schema.encoding c.header.pointCount.toNat page

def points (c : Chunk) : Except Fault (List Point) := do
  let (times, column) ← c.decode
  return Page.join times column

/-- A chunk as bytes, with its marker. -/
def write (c : Chunk) : Bytes :=
  Frame.chunkMarker :: c.header.write ++ c.payload

end Chunk

namespace Stream

variable {σ : Type} [Sink σ]

def put (s : Stream σ) (bytes : Bytes) : Except Fault Unit × Stream σ :=
  match s.writeAll bytes with
  | (.ok (), s) => (.ok (), s)
  | (.error cause, s) => (.error (.writeFailure cause), s)

/-- Appends the chunk of a run of points and tells where it is; an empty run appends nothing. The
chunk is made before its first byte is written: a run that cannot be stored leaves the stream as
it was. -/
def appendChunk [Compressor] (s : Stream σ) (measurement : String) (schema : Schema)
    (times : List Int64) (column : Column) : Except Fault (Option ChunkEntry) × Stream σ :=
  match Chunk.build measurement schema times column with
  | .error fault => (.error fault, s)
  | .ok none => (.ok none, s)
  | .ok (some chunk) =>
    match s.put (Frame.chunkMarker :: chunk.header.write) with
    | (.error fault, after) => (.error fault, after)
    | (.ok (), after) =>
      match after.put chunk.payload with
      | (.error fault, after) => (.error fault, after)
      | (.ok (), after) =>
        (.ok (some ⟨UInt64.ofNat s.position, chunk.header.statistics⟩), after)

end Stream

end SeriesFile
