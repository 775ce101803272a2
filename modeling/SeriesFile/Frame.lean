import SeriesFile.Bytes.Varint

/-!
# The frame of a file

A file starts with a head, the magic bytes and a version, and ends with a tail: the checksum of
everything before it, the length of the footer, and the magic bytes again. Between them stand
groups, chunks and the footer, each of which starts with a marker. A file without its tail is not
finished.
-/

namespace SeriesFile.Frame

/-- The bytes at both ends of a file. -/
def magic : Bytes := [0x54, 0x73, 0x46, 0x69, 0x6C, 0x65]

def version : UInt8 := 1

def groupMarker : UInt8 := 0x00

def chunkMarker : UInt8 := 0x01

def footerMarker : UInt8 := 0x02

def headSize : Nat := 7

def tailSize : Nat := 14

def head : Bytes := magic ++ [version]

/-- The version that a head gives. -/
def readHead : Reader UInt8 := do
  let bytes ← Reader.take headSize
  let front := bytes.take magic.length
  let found := bytes.getLastD 0
  if front ≠ magic then Reader.fail (.invalidMagic front)
  else if version < found then Reader.fail (.unsupportedVersion found)
  else return found

/-- What the tail of a file says. -/
structure Tail where
  /-- The checksum of every byte before the tail. -/
  checksum : UInt32
  /-- The number of bytes of the footer, its marker included. -/
  footerLength : UInt32
  deriving DecidableEq, Repr

/-- A tail as bytes; the magic comes last. -/
def Tail.write (t : Tail) : Bytes :=
  Bytes.u32 t.checksum ++ Bytes.u32 t.footerLength ++ magic

/-- A tail from its bytes; the magic is looked at first. -/
def Tail.ofBytes (bytes : Bytes) : Except Fault Tail :=
  let closing := bytes.drop 8
  if closing ≠ magic then .error (.invalidMagic closing)
  else
    .ok {
      checksum := UInt32.ofNat (Bytes.ofLittleEndian (bytes.take 4))
      footerLength := UInt32.ofNat (Bytes.ofLittleEndian ((bytes.drop 4).take 4)) }

/-- The marker of a group with the device whose chunks follow. -/
def group (device : String) : Bytes :=
  groupMarker :: Bytes.text device

end SeriesFile.Frame
