import SeriesFile.Codec.Deflate
import SeriesFile.Hash.Crc32

/-!
# Gzip members

A member is a header, a deflate stream, and the checksum and number of the restored bytes. The
header may carry further fields, each announced by a flag. Only the first member is read.
-/

namespace SeriesFile.Codec.Gzip

/-- The header without further fields. -/
def header : Bytes := [0x1F, 0x8B, 8, 0, 0, 0, 0, 0, 0, 0xFF]

/-- A member that holds some bytes as they are. -/
def compress (data : Bytes) : Bytes :=
  header ++ Deflate.compress data ++ Bytes.u32 (Crc32.hash data) ++
    Bytes.littleEndian 4 data.length

/-- The bytes after the first zero. -/
def skipText : Bytes → Option Bytes
  | [] => none
  | b :: bytes => if b = 0 then some bytes else skipText bytes

/-- The bytes after a field that starts with its length. -/
def skipExtra (bytes : Bytes) : Option Bytes := do
  let (length, rest) ← bytes.split? 2
  let (_, rest) ← rest.split? length.ofLittleEndian
  return rest

def whenSet (flags : Nat) (bit : Nat) (step : Bytes → Option Bytes) (bytes : Bytes) :
    Option Bytes :=
  if flags.testBit bit then step bytes else some bytes

/-- The bytes after a header checksum, which must be that of the header before it. -/
def skipHeaderChecksum (member : Bytes) (bytes : Bytes) : Option Bytes := do
  let before := member.take (member.length - bytes.length)
  let (checksum, rest) ← bytes.split? 2
  if checksum.ofLittleEndian = (Crc32.hash before).toNat % 2 ^ 16 then some rest else none

def skipHeader (member : Bytes) : Option Bytes := do
  match member with
  | 0x1F :: 0x8B :: 8 :: flags :: rest =>
    let flags := flags.toNat
    -- Flags above the fifth mean nothing yet.
    if 32 ≤ flags then none
    -- The time, the effort and the system of the writer.
    let (_, rest) ← Bytes.split? 6 rest
    let rest ← whenSet flags 2 skipExtra rest
    let rest ← whenSet flags 3 skipText rest
    let rest ← whenSet flags 4 skipText rest
    whenSet flags 1 (skipHeaderChecksum member) rest
  | _ => none

def decompress (member : Bytes) : Option Bytes := do
  let (out, rest) ← Deflate.decompress (← skipHeader member)
  let (checksum, rest) ← rest.split? 4
  let (length, _) ← rest.split? 4
  if checksum.ofLittleEndian = (Crc32.hash out).toNat ∧
      length.ofLittleEndian = out.length % 2 ^ 32 then
    return out
  else none

/-! ### Restoring what was compressed -/

theorem skipHeader_header (rest : Bytes) : skipHeader (header ++ rest) = some rest := by
  rw [header]
  simp only [skipHeader, List.cons_append, List.nil_append, Bytes.split?, whenSet]
  rfl

theorem decompress_compress {data : Bytes} : decompress (compress data) = some data := by
  have hchecksum : (Bytes.u32 (Crc32.hash data)).ofLittleEndian = (Crc32.hash data).toNat := by
    rw [Bytes.u32, Bytes.ofLittleEndian_littleEndian]
    exact Nat.mod_eq_of_lt (Crc32.hash data).toNat_lt
  have hlength : (Bytes.littleEndian 4 data.length).ofLittleEndian = data.length % 2 ^ 32 :=
    Bytes.ofLittleEndian_littleEndian 4 data.length
  have hsplit (front rest : Bytes) (h : front.length = 4) :
      (front ++ rest).split? 4 = some (front, rest) := by
    rw [← h, Bytes.split?_append]
  have hlast : (Bytes.littleEndian 4 data.length).split? 4 =
      some (Bytes.littleEndian 4 data.length, []) := by
    simpa using hsplit (Bytes.littleEndian 4 data.length) [] (by simp)
  have hchecksumPart := hsplit (Bytes.u32 (Crc32.hash data)) (Bytes.littleEndian 4 data.length)
    (by simp [Bytes.u32])
  rw [decompress, compress, List.append_assoc, List.append_assoc, skipHeader_header]
  simp only [Option.bind_eq_bind, Option.bind_some, Deflate.decompress_compress_append,
    hchecksumPart, hlast]
  exact if_pos ⟨hchecksum, hlength⟩

end SeriesFile.Codec.Gzip
