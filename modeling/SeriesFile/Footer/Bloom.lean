import SeriesFile.Bytes.Varint
import SeriesFile.Hash.XxHash64

/-!
# Bloom filters over series

A filter answers whether a series may have been inserted. It holds a number of bits in words of
64; inserting a series sets the bits at its positions, and a series may have been inserted if all
of its bits are set. The positions come from the hash of the path under the seeds 0, 1, ….
Because bits are only ever set, an inserted series is never denied, whatever the hash is.
-/

namespace SeriesFile

/-- A set of bits, and how many of them a series sets. -/
structure Bloom where
  /-- The bits, 64 to a word, the lowest first. -/
  words : List UInt64
  /-- How many bits a series sets. -/
  hashes : UInt8
  deriving DecidableEq, Repr

/-- The natural logarithm of doubles, which platforms round differently. -/
class Logarithm where
  ln : Float → Float

instance : Logarithm := ⟨Float.log⟩

/-- The hash that the positions of a series come from. -/
class PathHash where
  hash : (seed : UInt64) → Bytes → UInt64

instance : PathHash := ⟨XxHash64.hash⟩

namespace Bloom

def size (b : Bloom) : Nat :=
  b.words.length * 64

/-- A rate with a least and a greatest value imposed; a NaN stays as it is. -/
def clampRate (rate : Float) : Float :=
  let rate := if rate < 1e-9 then 1e-9 else rate
  if 0.5 < rate then 0.5 else rate

def ln2 : Float := 0.693147180559945309417232121458

/-- A number rounded up, and to at most 64 bits. -/
def roundUp (x : Float) : Nat :=
  let below := x.toUInt64
  if below.toFloat < x then min (below.toNat + 1) (2 ^ 64 - 1) else below.toNat

section

variable [Logarithm]

/-- The number of bits with which a filter for `expected` series lets others through at the given
rate: `-n ln p / (ln 2)²`, rounded up. -/
def bitsFor (expected : Nat) (rate : Float) : Nat :=
  roundUp (-(Float.ofNat expected) * Logarithm.ln (clampRate rate) / (ln2 * ln2))

/-- The number of words of a filter: enough for its bits, and at least one. -/
def wordsFor (expected : Nat) (rate : Float) : Nat :=
  (max (bitsFor expected rate) 64 + 63) / 64

/-- The filter of no series, made for `expected` series and the given rate, of which `rateBits`
are the bits. -/
def new (expected : Nat) (rateBits : UInt64) : Bloom where
  words := List.replicate (wordsFor expected (Float.ofBits rateBits)) 0
  hashes := 3

end

def bit (n : Nat) : UInt64 :=
  1 <<< UInt64.ofNat (n % 64)

def setBit (words : List UInt64) (n : Nat) : List UInt64 :=
  words.modify (n / 64) (· ||| bit n)

def hasBit (words : List UInt64) (n : Nat) : Bool :=
  (words[n / 64]?.getD 0) &&& bit n != 0

section

variable [PathHash]

/-- The position that a series has under a seed, in a filter of `size` bits. -/
def position (size : Nat) (key : SeriesKey) (seed : Nat) : Nat :=
  (PathHash.hash (UInt64.ofNat seed) (Utf8.encode key.path)).toNat % size

/-- The positions of a series, in a filter of `size` bits. -/
def positions (size hashes : Nat) (key : SeriesKey) : List Nat :=
  (List.range hashes).map (position size key)

def insert (b : Bloom) (key : SeriesKey) : Bloom :=
  { b with words := (positions b.size b.hashes.toNat key).foldl setBit b.words }

/-- Whether a series may have been inserted. -/
def mayContain (b : Bloom) (key : SeriesKey) : Bool :=
  (positions b.size b.hashes.toNat key).all (hasBit b.words)

end

/-- A filter as bytes: the number of words, the number of hashes, three bytes of zero, the
words. -/
def write (b : Bloom) : Bytes :=
  Bytes.u32 (UInt32.ofNat b.words.length) ++ [b.hashes, 0, 0, 0] ++ b.words.flatMap Bytes.u64

/-- A filter from bytes; one without words is refused. -/
def read : Reader Bloom := do
  let count ← Reader.u32
  let hashes ← Reader.byte
  let _ ← Reader.take 3
  if count = 0 then Reader.fail (.corrupted .emptyBloom)
  else return { words := ← Reader.replicate count.toNat Reader.u64, hashes }

end Bloom

end SeriesFile
