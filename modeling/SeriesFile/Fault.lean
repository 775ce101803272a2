import SeriesFile.Bytes.Utf8
import SeriesFile.Schema
import SeriesFile.Series.Key

/-!
# What can go wrong

A `Fault` names the cause of a refused or failed operation; `Fault.message` is its wording and
`Fault.category` the family that callers branch on. Causes that come with details of their own
have their own types: `IoCause` for a source or sink of bytes, `CodecCause` for compressed data,
`Corruption` for bytes that are no file of this format.
-/

namespace SeriesFile

/-- Families of one-byte codes. -/
inductive TagKind where
  | dataType
  | encoding
  | compression
  | footerMarker
  | bodyMarker
  deriving DecidableEq, Repr

def TagKind.name : TagKind → String
  | dataType => "data type"
  | encoding => "encoding"
  | compression => "compression"
  | footerMarker => "footer marker"
  | bodyMarker => "body marker"

/-- The sizes that a chunk header records in 32 bits. -/
inductive ChunkSize where
  | pointCount
  | rawLength
  | compressedLength
  deriving DecidableEq, Repr

def ChunkSize.name : ChunkSize → String
  | pointCount => "point count"
  | rawLength => "raw length"
  | compressedLength => "compressed length"

/-- Why bytes could not be read or written. -/
inductive IoCause where
  /-- The bytes ended before all that were asked for had been read. -/
  | inputExhausted
  | sinkStalled
  | chunkTooLarge (what : ChunkSize) (size : Nat)
  /-- A footer is too large for the tail that gives its length. -/
  | footerTooLarge (size : Nat)
  | refused (text : String)
  deriving DecidableEq, Repr

def IoCause.message : IoCause → String
  | inputExhausted => "failed to fill whole buffer"
  | sinkStalled => "failed to write whole buffer"
  | chunkTooLarge what size => s!"{what.name} of {size} does not fit in a chunk header"
  | footerTooLarge size => s!"footer of {size} bytes is too large"
  | refused text => text

/-- Why compressed data could not be restored. -/
inductive CodecCause where
  | malformed (format : Compression)
  /-- The data is well formed, and holds another number of bytes than was recorded. -/
  | wrongLength (format : Compression) (produced expected : Nat)
  /-- A cause in the words of whoever reports it. -/
  | described (text : String)
  deriving DecidableEq, Repr

def CodecCause.message : CodecCause → String
  | malformed format => s!"malformed {format.name} data"
  | wrongLength format produced expected =>
    s!"{format.name} produced {produced} bytes, expected {expected}"
  | described text => text

/-- Parts of a page whose size is checked before they are read. -/
inductive PagePart where
  | timeSection
  | plainTimestamps
  | plainValues
  | plainText
  | firstValue
  deriving DecidableEq, Repr

def PagePart.name : PagePart → String
  | timeSection => "time section"
  | plainTimestamps => "plain timestamps"
  | plainValues => "plain values"
  | plainText => "plain text"
  | firstValue => "ts2diff first value"

/-- What is wrong with bytes that should be a file, or a part of one. -/
inductive Corruption where
  | truncatedVarint
  | oversizedVarint
  | tooShort (part : PagePart) (need left : Nat)
  | unequalLengths (timestamps values : Nat)
  | trailingBytes (left count : Nat)
  /-- A byte is neither of the two that stand for a boolean. -/
  | invalidBoolean (byte : UInt8)
  | invalidText (fault : Utf8.Fault)
  /-- A name, or a text among statistics, is not UTF-8. -/
  | invalidName (fault : Utf8.Fault)
  | int32DeltaOutOfRange (delta : Int64)
  | bitsExhausted
  | windowTooWide
  | emptyBloom
  | fileTooShort (size : Nat)
  /-- The length of a footer is more than there is before the tail. -/
  | footerOutsideFile (length available : Nat)
  | chunkOutsideGroup
  /-- A corruption in the words of whoever reports it. -/
  | described (text : String)
  deriving DecidableEq, Repr

def Corruption.message : Corruption → String
  | truncatedVarint => "truncated varint"
  | oversizedVarint => "varint too long"
  | tooShort part need left => s!"{part.name}: need {need} bytes, {left} left"
  | unequalLengths timestamps values => s!"{timestamps} timestamps for {values} values"
  | trailingBytes left count => s!"{left} trailing bytes after {count} points"
  | invalidBoolean byte => s!"invalid boolean byte {byte}"
  | invalidText fault => s!"invalid UTF-8 text: {fault.message}"
  | invalidName fault => s!"invalid UTF-8: {fault.message}"
  | int32DeltaOutOfRange delta => s!"int32 delta {delta} out of range"
  | bitsExhausted => "gorilla stream ended early"
  | windowTooWide => "gorilla window exceeds 64 bits"
  | emptyBloom => "empty bloom filter"
  | fileTooShort size => s!"file of {size} bytes"
  | footerOutsideFile length available => s!"footer of {length} bytes in {available}"
  | chunkOutsideGroup => "chunk outside a group"
  | described text => text

/-- Families of faults. -/
inductive FaultCategory where
  /-- Definition and look-up of series. -/
  | schema
  /-- Refused points and use of a finished writer. -/
  | write
  /-- An encoding that cannot carry a type. -/
  | encoding
  /-- Storage and compression. -/
  | io
  /-- Handles used out of order. -/
  | lifecycle
  /-- Bytes that are no file of this format. -/
  | format
  deriving DecidableEq, Repr

/-- The cause of a refused or failed operation. -/
inductive Fault where
  | duplicateSeries (key : SeriesKey)
  /-- A schema pairs a type with an encoding that cannot carry it. -/
  | unsupportedPair (dataType : DataType) (encoding : Encoding)
  | unknownSeries (key : SeriesKey)
  /-- A value, or statistics, of another type than expected. -/
  | typeMismatch (expected actual : DataType)
  /-- A timestamp that is not after the last one of its series. -/
  | outOfOrder (last got : Int64)
  /-- The writer or handle is finished or was never there. -/
  | handleClosed
  /-- A column is to be encoded in a way that cannot carry its type. -/
  | encodingMismatch (dataType : DataType) (encoding : Encoding)
  | cannotCreateFile (path : String)
  | writeFailure (cause : IoCause)
  | compressionFailure (cause : CodecCause)
  | alreadyClosed
  | doubleRelease (id : Nat)
  /-- The magic bytes at an end of the file are others. -/
  | invalidMagic (bytes : List UInt8)
  /-- The version of the file is later than this library knows. -/
  | unsupportedVersion (version : UInt8)
  | unknownTag (kind : TagKind) (tag : UInt8)
  | checksumMismatch (expected actual : UInt32)
  /-- Bytes are no file of this format, or no part of one. -/
  | corrupted (cause : Corruption)
  deriving DecidableEq, Repr

namespace Fault

def category : Fault → FaultCategory
  | duplicateSeries _ | unsupportedPair _ _ | unknownSeries _ => .schema
  | typeMismatch _ _ | outOfOrder _ _ | handleClosed => .write
  | encodingMismatch _ _ => .encoding
  | cannotCreateFile _ | writeFailure _ | compressionFailure _ => .io
  | alreadyClosed | doubleRelease _ => .lifecycle
  | invalidMagic _ | unsupportedVersion _ | unknownTag _ _ | checksumMismatch _ _
  | corrupted _ => .format

def message : Fault → String
  | duplicateSeries key => s!"Series {key.path} is already defined"
  | unsupportedPair dataType encoding =>
    s!"Encoding {encoding.name} is not supported for data type {dataType.name}"
  | unknownSeries key => s!"Series {key.path} is not registered"
  | typeMismatch expected actual =>
    s!"Type mismatch: series declared {expected.name}, got {actual.name}"
  | outOfOrder last got => s!"Out of order timestamp: {got} is not after {last}"
  | handleClosed => "Handle is closed"
  | encodingMismatch dataType encoding =>
    s!"Encoding {encoding.name} cannot encode data type {dataType.name}"
  | cannotCreateFile path => s!"Cannot create file {path}"
  | writeFailure cause => s!"Write failure: {cause.message}"
  | compressionFailure cause => s!"Compression failure: {cause.message}"
  | alreadyClosed => "Writer is already closed"
  | doubleRelease id => s!"Schema handle {id} was already released"
  | invalidMagic bytes =>
    "Invalid magic bytes: [" ++ ", ".intercalate (bytes.map fun b => toString b.toNat) ++ "]"
  | unsupportedVersion version => s!"Unsupported version: {version}"
  | unknownTag kind tag => s!"Unknown {kind.name} tag: {tag}"
  | checksumMismatch expected actual =>
    s!"Checksum mismatch: expected {expected}, got {actual}"
  | corrupted cause => s!"Corrupted data: {cause.message}"

end Fault

end SeriesFile
