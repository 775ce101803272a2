import SeriesFile.Chunk

/-!
# Documents

A `Document` is a complete file taken apart: groups of chunks, the footer and the tail. Reading
starts at the end. Without a tail, or with a checksum that does not fit, a file is refused before
anything else is looked at.

`BodyItem.ofUnfinished` takes apart what there is of a file that was not finished.
-/

namespace SeriesFile

/-- A chunk and the position of its marker. -/
structure PlacedChunk where
  offset : Nat
  chunk : Chunk
  deriving DecidableEq

/-- The chunks that stand behind the name of their device. -/
structure Group where
  device : String
  chunks : List PlacedChunk
  deriving DecidableEq

/-- One thing in the body of a file. -/
inductive BodyItem where
  /-- The chunks that follow are of the device. -/
  | group (device : String)
  | chunk (chunk : Chunk)

namespace BodyItem

def read : Reader BodyItem := do
  let marker ← Reader.byte
  if marker = Frame.groupMarker then return group (← Reader.text)
  else if marker = Frame.chunkMarker then return chunk (← Chunk.read)
  else Reader.fail (.unknownTag .bodyMarker marker)

/-- The things at the front of some bytes, up to the first that is not complete; `limit` at
most. -/
def readMany : (limit : Nat) → Bytes → List BodyItem
  | 0, _ => []
  | limit + 1, bytes =>
    match read bytes with
    | .ok (item, rest) => item :: readMany limit rest
    | .error _ => []

/-- What there is of the body of a file that was not finished. -/
def ofUnfinished (file : Bytes) : List BodyItem :=
  readMany file.length (file.drop Frame.headSize)

end BodyItem

/-- A complete file taken apart. -/
structure Document where
  version : UInt8
  groups : List Group
  footer : Footer
  tail : Frame.Tail
  deriving DecidableEq

namespace Document

/-- Groups as they stand in a file, from those that were collected last first. -/
def inOrder (groups : List Group) : List Group :=
  groups.reverse.map fun g => { g with chunks := g.chunks.reverse }

/-- The groups in the body of a file, of which `size` bytes come before the end of the body. Those
already read are given, the last first. At most `limit` things are read; as each takes a byte at
least, there are never more of them than bytes. -/
def readGroups (size : Nat) : (limit : Nat) → List Group → Bytes → Except Fault (List Group)
  | 0, groups, _ | _, groups, [] => .ok (inOrder groups)
  | limit + 1, groups, bytes => do
    let (item, rest) ← BodyItem.read bytes
    match item, groups with
    | .group device, groups => readGroups size limit (⟨device, []⟩ :: groups) rest
    | .chunk _, [] => .error (.corrupted .chunkOutsideGroup)
    | .chunk chunk, last :: groups =>
      let placed := ⟨size - bytes.length, chunk⟩
      readGroups size limit ({ last with chunks := placed :: last.chunks } :: groups) rest

/-- A file taken apart: its length is looked at first, then the tail, the checksum, the footer, the
head, and the body. -/
def parse (file : Bytes) : Except Fault Document := do
  if file.length < Frame.headSize + Frame.tailSize then
    .error (.corrupted (.fileTooShort file.length))
  -- Everything before the tail is covered by its checksum.
  let tailStart := file.length - Frame.tailSize
  let covered := file.take tailStart
  let tail ← Frame.Tail.ofBytes (file.drop tailStart)
  let actual := Crc32.hash covered
  if actual ≠ tail.checksum then .error (.checksumMismatch tail.checksum actual)
  let footerLength := tail.footerLength.toNat
  if tailStart < footerLength then .error (.corrupted (.footerOutsideFile footerLength tailStart))
  let footerStart := tailStart - footerLength
  let (footer, _) ← Footer.read (covered.drop footerStart)
  let (version, body) ← Frame.readHead (covered.take footerStart)
  let groups ← readGroups footerStart body.length [] body
  return { version, groups, footer, tail }

/-- The chunks of all groups, in the order of the file. -/
def chunks (d : Document) : List PlacedChunk :=
  d.groups.flatMap Group.chunks

def chunkAt? (d : Document) (offset : UInt64) : Option Chunk :=
  (d.chunks.find? fun c => c.offset = offset.toNat).map PlacedChunk.chunk

/-- The points of some chunks, one after another; `none` if a chunk is missing or damaged. -/
def pointsOf (d : Document) : List ChunkEntry → Option (List Point)
  | [] => some []
  | entry :: entries => do
    let chunk ← d.chunkAt? entry.offset
    match chunk.points with
    | .error _ => none
    | .ok points => return points ++ (← d.pointsOf entries)

/-- The points of a series, found through the footer; `none` for a series without chunks, or if a
chunk of it is missing or damaged. -/
def points? (d : Document) (key : SeriesKey) : Option (List Point) := do
  d.pointsOf (← d.footer.find? key).chunks

end Document

end SeriesFile
