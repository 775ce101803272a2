import SeriesFile.Bytes.Reader

/-!
# CRC-32

The checksum of chunks, files and gzip members. The state is a register of 32 bits, so bytes may
come in pieces: going on from the register after `a` with `b` leads where `a ++ b` leads from the
start.
-/

namespace SeriesFile.Crc32

/-- The polynomial, the lowest power in the highest bit. -/
def polynomial : UInt32 := 0xEDB88320

/-- The register before the first byte. -/
def initial : UInt32 := 0xFFFFFFFF

/-- Moves the register on by `n` bits. -/
def shift : (n : Nat) → UInt32 → UInt32
  | 0, r => r
  | n + 1, r => shift n (if r &&& 1 = 1 then (r >>> 1) ^^^ polynomial else r >>> 1)

def step (register : UInt32) (b : UInt8) : UInt32 :=
  shift 8 (register ^^^ b.toUInt32)

def update (register : UInt32) (bytes : Bytes) : UInt32 :=
  bytes.foldl step register

def finish (register : UInt32) : UInt32 :=
  ~~~register

def hash (bytes : Bytes) : UInt32 :=
  finish (update initial bytes)

@[simp]
theorem update_nil (register : UInt32) : update register [] = register := rfl

theorem update_append (register : UInt32) (a b : Bytes) :
    update register (a ++ b) = update (update register a) b :=
  List.foldl_append

end SeriesFile.Crc32
