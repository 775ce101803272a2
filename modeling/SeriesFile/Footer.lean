import SeriesFile.Footer.Bloom
import SeriesFile.Frame
import SeriesFile.Series.Registry
import SeriesFile.Statistics

/-!
# Footers

The footer says what a file holds: the registry it was written under, an entry for every series
that has chunks, and a Bloom filter over those series. An entry gives the place and the statistics
of every chunk, and the statistics of the whole series.
-/

namespace SeriesFile

/-- The place of a chunk in the file and what it holds. -/
structure ChunkEntry where
  /-- The position of the chunk's marker. -/
  offset : UInt64
  statistics : Statistics
  deriving DecidableEq

namespace ChunkEntry

def write (e : ChunkEntry) : Bytes :=
  Bytes.u64 e.offset ++ e.statistics.write

/-- An entry for a chunk of the given type from bytes. -/
def read (type : DataType) : Reader ChunkEntry := do
  let offset ← Reader.u64
  let statistics ← Statistics.read type
  return { offset, statistics }

end ChunkEntry

/-- Every chunk of a series, in the order of the file. -/
structure SeriesEntry where
  key : SeriesKey
  dataType : DataType
  /-- The statistics of all chunks together. -/
  statistics : Statistics
  chunks : List ChunkEntry
  deriving DecidableEq

namespace SeriesEntry

def single (key : SeriesKey) (chunk : ChunkEntry) : SeriesEntry where
  key := key
  dataType := chunk.statistics.dataType
  statistics := chunk.statistics
  chunks := [chunk]

def push (e : SeriesEntry) (chunk : ChunkEntry) : Except Fault SeriesEntry := do
  let statistics ← e.statistics.merge chunk.statistics
  return { e with statistics, chunks := e.chunks ++ [chunk] }

def write (e : SeriesEntry) : Bytes :=
  Bytes.text e.key.device ++ Bytes.text e.key.measurement ++ [e.dataType.tag] ++
    e.statistics.write ++ Bytes.u32 (UInt32.ofNat e.chunks.length) ++
    e.chunks.flatMap ChunkEntry.write

def read : Reader SeriesEntry := do
  let device ← Reader.text
  let measurement ← Reader.text
  let dataType ← Reader.tag .dataType DataType.ofTag?
  let statistics ← Statistics.read dataType
  let count ← Reader.u32
  let chunks ← Reader.replicate count.toNat (ChunkEntry.read dataType)
  return { key := ⟨device, measurement⟩, dataType, statistics, chunks }

end SeriesEntry

/-- The index at the end of a file. -/
structure Footer where
  /-- Every series that was declared, written or not. -/
  schemas : Registry
  /-- The series that have chunks, in their order. -/
  series : List SeriesEntry
  /-- A filter over the series that have chunks. -/
  bloom : Bloom
  deriving DecidableEq

namespace Footer

/-- The footer of some series, with a filter made for their number and the given rate. -/
def build [Logarithm] [PathHash] (schemas : Registry) (series : List SeriesEntry)
    (rateBits : UInt64) : Footer where
  schemas := schemas
  series := series
  bloom := series.foldl (fun bloom e => bloom.insert e.key) (Bloom.new series.length rateBits)

def chunkCount (f : Footer) : Nat :=
  (f.series.map fun e => e.chunks.length).sum

/-- The place to look at in ascending entries, among `size` from `base` on: half of them are left
out at every turn, until one is left. -/
def bisect (entries : List SeriesEntry) (key : SeriesKey) : (turns : Nat) → (base size : Nat) → Nat
  | 0, base, _ => base
  | turns + 1, base, size =>
    if size ≤ 1 then base
    else
      let half := size / 2
      let middle := base + half
      -- An entry for the series itself stays in the half that is kept.
      let above := entries[middle]?.any fun e => compare e.key key = .gt
      bisect entries key turns (if above then base else middle) (size - half)

/-- The entry of a series: the filter is asked first, then the entries are searched by halves. -/
def find? [PathHash] (f : Footer) (key : SeriesKey) : Option SeriesEntry :=
  if f.bloom.mayContain key then
    f.series[bisect f.series key f.series.length 0 f.series.length]?.filter fun e => e.key = key
  else none

def write (f : Footer) : Bytes :=
  [Frame.footerMarker] ++ f.schemas.write ++ Bytes.u32 (UInt32.ofNat f.series.length) ++
    f.series.flatMap SeriesEntry.write ++ f.bloom.write

def read : Reader Footer := do
  let marker ← Reader.byte
  if marker ≠ Frame.footerMarker then Reader.fail (.unknownTag .footerMarker marker)
  else
    let schemas ← Registry.read
    let count ← Reader.u32
    let series ← Reader.replicate count.toNat SeriesEntry.read
    let bloom ← Bloom.read
    return { schemas, series, bloom }

end Footer

end SeriesFile
