import SeriesFile.Bytes.Reader

/-!
# XXH64

A 64-bit hash of bytes under a seed. Blocks of 32 bytes are taken up by four lanes; the lanes, or
the seed alone for short input, are joined, and what is left over is mixed in by words of eight
bytes, then of four, then byte by byte.
-/

namespace SeriesFile.XxHash64

def prime₁ : UInt64 := 0x9E3779B185EBCA87
def prime₂ : UInt64 := 0xC2B2AE3D27D4EB4F
def prime₃ : UInt64 := 0x165667B19E3779F9
def prime₄ : UInt64 := 0x85EBCA77C2B2AE63
def prime₅ : UInt64 := 0x27D4EB2F165667C5

def rotate (x : UInt64) (n : UInt64) : UInt64 :=
  (x <<< n) ||| (x >>> (64 - n))

/-- The word at the front of some bytes. -/
def word (bytes : Bytes) : UInt64 :=
  UInt64.ofNat (Bytes.ofLittleEndian bytes)

def round (lane input : UInt64) : UInt64 :=
  rotate (lane + input * prime₂) 31 * prime₁

structure Lanes where
  a : UInt64
  b : UInt64
  c : UInt64
  d : UInt64

namespace Lanes

def initial (seed : UInt64) : Lanes :=
  ⟨seed + prime₁ + prime₂, seed + prime₂, seed, seed - prime₁⟩

/-- The lanes after one more block of 32 bytes. -/
def step (l : Lanes) (block : Bytes) : Lanes where
  a := round l.a (word (block.take 8))
  b := round l.b (word ((block.drop 8).take 8))
  c := round l.c (word ((block.drop 16).take 8))
  d := round l.d (word ((block.drop 24).take 8))

def mergeLane (h lane : UInt64) : UInt64 :=
  (h ^^^ round 0 lane) * prime₁ + prime₄

/-- The lanes joined to one word. -/
def join (l : Lanes) : UInt64 :=
  let h := rotate l.a 1 + rotate l.b 7 + rotate l.c 12 + rotate l.d 18
  mergeLane (mergeLane (mergeLane (mergeLane h l.a) l.b) l.c) l.d

end Lanes

/-- Takes up whole blocks, `limit` at most; the rest is left over. -/
def blocks : (limit : Nat) → Lanes → Bytes → Lanes × Bytes
  | 0, lanes, bytes => (lanes, bytes)
  | limit + 1, lanes, bytes =>
    match bytes.split? 32 with
    | some (block, rest) => blocks limit (lanes.step block) rest
    | none => (lanes, bytes)

def mixBytes (h : UInt64) : Bytes → UInt64
  | [] => h
  | b :: bytes => mixBytes (rotate (h ^^^ (b.toUInt64 * prime₅)) 11 * prime₁) bytes

/-- Mixes in a word of four bytes, if there are so many, then single bytes. -/
def mixHalf (h : UInt64) (bytes : Bytes) : UInt64 :=
  match bytes.split? 4 with
  | some (half, rest) =>
    mixBytes (rotate (h ^^^ (word half * prime₁)) 23 * prime₂ + prime₃) rest
  | none => mixBytes h bytes

/-- Mixes in words of eight bytes, `limit` at most, then what is left. -/
def mixWords : (limit : Nat) → UInt64 → Bytes → UInt64
  | 0, h, bytes => mixHalf h bytes
  | limit + 1, h, bytes =>
    match bytes.split? 8 with
    | some (whole, rest) =>
      mixWords limit (rotate (h ^^^ round 0 (word whole)) 27 * prime₁ + prime₄) rest
    | none => mixHalf h bytes

/-- Spreads every bit over the word. -/
def avalanche (h : UInt64) : UInt64 :=
  let h := (h ^^^ (h >>> 33)) * prime₂
  let h := (h ^^^ (h >>> 29)) * prime₃
  h ^^^ (h >>> 32)

/-- The hash of some bytes under a seed. -/
def hash (seed : UInt64) (bytes : Bytes) : UInt64 :=
  let (lanes, rest) := blocks (bytes.length / 32) (.initial seed) bytes
  -- Without a whole block the lanes have seen nothing.
  let h := if bytes.length < 32 then seed + prime₅ else lanes.join
  avalanche (mixWords (rest.length / 8) (h + UInt64.ofNat bytes.length) rest)

end SeriesFile.XxHash64
