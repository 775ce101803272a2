import SeriesFile.Codec.PrefixTree
import SeriesFile.Codec.Window

/-!
# Deflate streams

A stream is a row of blocks, the last of which says so. A block holds bytes as they are, or
symbols of two prefix codes: literals, lengths and the end of the block in one, distances in the
other. The codes are fixed, or described at the front of the block by the number of bits of every
symbol; the description is itself written in a prefix code.

`compress` writes blocks of bytes as they are.
-/

namespace SeriesFile.Codec.Deflate

/-! ### Writing -/

/-- A block of at most 65535 bytes as they are. -/
def stored (last : Bool) (bytes : Bytes) : Bytes :=
  (if last then 1 else 0) :: Bytes.littleEndian 2 bytes.length ++
    Bytes.littleEndian 2 (65535 - bytes.length) ++ bytes

def storedAll : List Bytes → Bytes
  | [] => stored true []
  | [bytes] => stored true bytes
  | bytes :: rest => stored false bytes ++ storedAll rest

/-- A stream that holds some bytes as they are. -/
def compress (data : Bytes) : Bytes :=
  storedAll (pieces 65534 data)

/-! ### Prefix codes -/

/-- The number with which the codes of `length` bits start, when there are `count length` symbols
of every length: shorter codes come first. -/
def firstCode (count : Nat → Nat) : (length : Nat) → Nat
  | 0 => 0
  | length + 1 => (firstCode count length + count length) * 2

/-- The symbols with their codes, given the number of bits of every symbol; no bits, no code. Among
symbols of one length the codes count up. -/
def codes (lengths : List Nat) : List (Nat × List Bool) :=
  let count (n : Nat) := if n = 0 then 0 else lengths.count n
  let ofLength (n : Nat) :=
    ((lengths.zipIdx.filter fun (length, _) => length = n).map Prod.snd).zipIdx.map
      fun (symbol, i) => (symbol, Bits.ofNat n (firstCode count n + i))
  (List.range 16).flatMap fun n => if n = 0 then [] else ofLength n

/-- The share of all sequences of fifteen bits that start with a code. -/
def share (lengths : List Nat) : Nat :=
  (lengths.map fun n => if n = 0 then 0 else 2 ^ (15 - n)).sum

/-- The prefix code of given lengths. It must leave no sequence of bits without a meaning, except,
if `lax`, where it has no symbol, or a single one of one bit. -/
def tree (lax : Bool) (lengths : List Nat) : Option PrefixTree :=
  let used := lengths.filter (· ≠ 0)
  if share lengths = 2 ^ 15 ∨ (lax ∧ (used = [] ∨ used = [1])) then
    PrefixTree.ofCodes (codes lengths)
  else none

/-- Two prefix codes: of literals, lengths and the end, and of distances. -/
structure Alphabet where
  literals : PrefixTree
  distances : PrefixTree

def fixedLiterals : List Nat :=
  List.replicate 144 8 ++ List.replicate 112 9 ++ List.replicate 24 7 ++ List.replicate 8 8

/-- The codes of a block that describes none. -/
def fixed : Option Alphabet := do
  return { literals := ← tree false fixedLiterals, distances := ← tree false (List.replicate 32 5) }

/-- The order in which the lengths of the describing code are written. -/
def describingOrder : List Nat :=
  [16, 17, 18, 0, 8, 7, 9, 6, 10, 5, 11, 4, 12, 3, 13, 2, 14, 1, 15]

/-- The rest of `total` lengths, of which some are known, the latest first. -/
def readLengths (describing : PrefixTree) (total : Nat) :
    (limit : Nat) → List Nat → BitSource (List Nat)
  | 0, _ => BitSource.malformed
  | limit + 1, known => do
    if total < known.length then BitSource.malformed
    if known.length = total then return known.reverse
    match ← describing.next with
    -- The last length again, three to six times.
    | 16 =>
      match known with
      | [] => BitSource.malformed
      | last :: _ =>
        let n := 3 + (← BitSource.lowFirst 2)
        readLengths describing total limit (List.replicate n last ++ known)
    -- Symbols without a code, few or many.
    | 17 =>
      let n := 3 + (← BitSource.lowFirst 3)
      readLengths describing total limit (List.replicate n 0 ++ known)
    | 18 =>
      let n := 11 + (← BitSource.lowFirst 7)
      readLengths describing total limit (List.replicate n 0 ++ known)
    | n => readLengths describing total limit (n :: known)

def readThrees : (count : Nat) → BitSource (List Nat)
  | 0 => pure []
  | count + 1 => do
    let n ← BitSource.lowFirst 3
    let rest ← readThrees count
    return n :: rest

/-- What a source is, if it is there. -/
def orMalformed {α : Type} : Option α → BitSource α
  | some a => pure a
  | none => BitSource.malformed

def described : BitSource Alphabet := do
  let literalCount := (← BitSource.lowFirst 5) + 257
  let distanceCount := (← BitSource.lowFirst 5) + 1
  let describingCount := (← BitSource.lowFirst 4) + 4
  if 286 < literalCount ∨ 30 < distanceCount then BitSource.malformed
  let given := describingOrder.zip (← readThrees describingCount)
  let describing ← orMalformed (tree false ((List.range 19).map fun n => (given.lookup n).getD 0))
  let total := literalCount + distanceCount
  let lengths ← readLengths describing total (total + 1) []
  let literals ← orMalformed (tree true (lengths.take literalCount))
  let distances ← orMalformed (tree true (lengths.drop literalCount))
  return { literals, distances }

/-! ### Reading -/

/-- The least length that a symbol stands for, and how many bits are added to it. -/
def lengthBases : Array (Nat × Nat) := #[
  (3, 0), (4, 0), (5, 0), (6, 0), (7, 0), (8, 0), (9, 0), (10, 0), (11, 1), (13, 1), (15, 1),
  (17, 1), (19, 2), (23, 2), (27, 2), (31, 2), (35, 3), (43, 3), (51, 3), (59, 3), (67, 4),
  (83, 4), (99, 4), (115, 4), (131, 5), (163, 5), (195, 5), (227, 5), (258, 0)]

/-- The least distance that a symbol stands for, and how many bits are added to it. -/
def distanceBases : Array (Nat × Nat) := #[
  (1, 0), (2, 0), (3, 0), (4, 0), (5, 1), (7, 1), (9, 2), (13, 2), (17, 3), (25, 3), (33, 4),
  (49, 4), (65, 5), (97, 5), (129, 6), (193, 6), (257, 7), (385, 7), (513, 8), (769, 8),
  (1025, 9), (1537, 9), (2049, 10), (3073, 10), (4097, 11), (6145, 11), (8193, 12), (12289, 12),
  (16385, 13), (24577, 13)]

/-- The number that a symbol stands for. -/
def extended (bases : Array (Nat × Nat)) (symbol : Nat) : BitSource Nat := do
  let (base, bits) ← orMalformed bases[symbol]?
  return base + (← BitSource.lowFirst bits)

/-- Restores symbols up to the end of the block, `limit` at most. A copy may start before the first
byte: zeros are there. -/
def symbols (codes : Alphabet) : (limit : Nat) → Array UInt8 → BitSource (Array UInt8)
  | 0, _ => BitSource.malformed
  | limit + 1, out => do
    let symbol ← codes.literals.next
    if symbol < 256 then symbols codes limit (out.push (UInt8.ofNat symbol))
    else if symbol = 256 then return out
    else
      let length ← extended lengthBases (symbol - 257)
      let distance ← extended distanceBases (← codes.distances.next)
      symbols codes limit (repeatFrom distance length out)

/-- Restores bytes that are there as they are; their number stands before them twice, the second
time with all bits turned. -/
def plainBytes (out : Array UInt8) : BitSource (Array UInt8) := do
  BitSource.align
  let length ← BitSource.lowFirst 16
  let turned ← BitSource.lowFirst 16
  if length + turned = 65535 then return out ++ (← BitSource.bytes length)
  else BitSource.malformed

/-- Restores one block and tells whether it is the last. -/
def block (limit : Nat) (out : Array UInt8) : BitSource (Bool × Array UInt8) := do
  let last ← BitSource.bit
  match ← BitSource.lowFirst 2 with
  | 0 => return (last, ← plainBytes out)
  | 1 => return (last, ← symbols (← orMalformed fixed) limit out)
  | 2 => return (last, ← symbols (← described) limit out)
  | _ => BitSource.malformed

/-- Restores blocks, `limit` at most. -/
def blocks (symbolLimit : Nat) : (limit : Nat) → Array UInt8 → BitSource (Array UInt8)
  | 0, _ => BitSource.malformed
  | limit + 1, out => do
    let (last, out) ← block symbolLimit out
    if last then return out else blocks symbolLimit limit out

/-- The bytes that a stream holds, and the bytes after the stream. A block takes three bits at
least and a symbol one, which limits how many there can be. -/
def decompress (data : Bytes) : Option (Bytes × Bytes) := do
  let limit := 8 * data.length
  let (out, rest) ← (blocks limit limit #[]).onBytes data
  return (out.toList, rest)

/-! ### Restoring what was compressed -/

theorem plainBytes_stored {out : Array UInt8} {bytes : Bytes} {skipped rest : List Bool}
    (hs : skipped.length = 5) (hb : bytes.length ≤ 65535) (hr : rest.length % 8 = 0) :
    plainBytes out (skipped ++ (BitSource.forward (Bytes.littleEndian 2 bytes.length ++
      Bytes.littleEndian 2 (65535 - bytes.length) ++ bytes) ++ rest)) =
      some (out ++ bytes, rest) := by
  have hfits (n : Nat) (hn : n ≤ 65535) : (Bytes.littleEndian 2 n).ofLittleEndian = n := by
    rw [Bytes.ofLittleEndian_littleEndian]
    exact Nat.mod_eq_of_lt (Nat.lt_succ_of_le hn)
  have hnumber (n : Nat) (hn : n ≤ 65535) (rest : List Bool) :
      BitSource.lowFirst 16 (BitSource.forward (Bytes.littleEndian 2 n) ++ rest) =
        some (n, rest) := by
    have h := BitSource.lowFirst_forward (Bytes.littleEndian 2 n) rest
    rwa [Bytes.length_littleEndian, hfits n hn] at h
  -- What is skipped is what keeps the rest from being whole bytes.
  have halign (whole : List Bool) (hw : whole.length % 8 = 0) :
      BitSource.align (skipped ++ whole) = some ((), whole) := by
    show some ((), (skipped ++ whole).drop ((skipped ++ whole).length % 8)) = _
    rw [List.drop_left' (by rw [List.length_append]; omega)]
  rw [plainBytes, BitSource.bind_some (halign _ ?_), BitSource.forward_append,
    BitSource.forward_append, List.append_assoc, List.append_assoc,
    BitSource.bind_some (hnumber _ hb _), BitSource.bind_some (hnumber _ (Nat.sub_le _ _) _),
    if_pos (by omega), BitSource.bind_some (BitSource.bytes_forward _ _)]
  · rfl
  · rw [List.length_append, BitSource.length_forward]
    omega

theorem block_stored {limit : Nat} {out : Array UInt8} {last : Bool} {bytes : Bytes}
    {rest : List Bool} (hb : bytes.length ≤ 65535) (hr : rest.length % 8 = 0) :
    block limit out (BitSource.forward (stored last bytes) ++ rest) =
      some ((last, out ++ bytes), rest) := by
  have hfront : (Bits.ofNat 8 (if last then (1 : UInt8) else 0).toNat).reverse =
      last :: false :: false :: [false, false, false, false, false] := by
    cases last <;> rfl
  have hbits : BitSource.forward (stored last bytes) ++ rest =
      last :: false :: false :: ([false, false, false, false, false] ++
        (BitSource.forward (Bytes.littleEndian 2 bytes.length ++
          Bytes.littleEndian 2 (65535 - bytes.length) ++ bytes) ++ rest)) := by
    rw [stored, List.cons_append, List.cons_append, BitSource.forward_cons, hfront]
    rfl
  have hkind (bits : List Bool) :
      BitSource.lowFirst 2 (false :: false :: bits) = some (0, bits) :=
    BitSource.lowFirst_append [false, false] bits
  rw [hbits, block, BitSource.bind_some (show BitSource.bit (last :: _) = some (last, _) from rfl),
    BitSource.bind_some (hkind _)]
  show ((plainBytes out) >>= fun out => pure (last, out)) _ = _
  rw [BitSource.bind_some (plainBytes_stored rfl hb hr)]
  rfl

theorem blocks_storedAll {symbolLimit limit : Nat} {out : Array UInt8} {parts : List Bytes}
    {rest : List Bool} (hp : ∀ part ∈ parts, part.length ≤ 65535) (hl : parts.length < limit)
    (hr : rest.length % 8 = 0) :
    blocks symbolLimit limit out (BitSource.forward (storedAll parts) ++ rest) =
      some (out ++ parts.flatten, rest) := by
  fun_induction storedAll parts generalizing limit out with
  | case1 =>
    obtain ⟨limit, rfl⟩ := Nat.exists_eq_succ_of_ne_zero (Nat.ne_of_gt hl)
    have hlast : block symbolLimit out (BitSource.forward (stored true []) ++ rest) =
        some ((true, out ++ []), rest) :=
      block_stored (by simp) hr
    rw [blocks, BitSource.bind_some hlast]
    rfl
  | case2 bytes =>
    obtain ⟨limit, rfl⟩ := Nat.exists_eq_succ_of_ne_zero (Nat.ne_of_gt (Nat.zero_lt_of_lt hl))
    rw [blocks, BitSource.bind_some (block_stored (hp bytes (.head _)) hr), List.flatten_cons,
      List.flatten_nil, List.append_nil]
    rfl
  | case3 bytes rest' hne ih =>
    obtain ⟨limit, rfl⟩ := Nat.exists_eq_succ_of_ne_zero (Nat.ne_of_gt (Nat.zero_lt_of_lt hl))
    have hr' : (BitSource.forward (storedAll rest') ++ rest).length % 8 = 0 := by
      rw [List.length_append, BitSource.length_forward]
      omega
    rw [BitSource.forward_append, List.append_assoc, blocks,
      BitSource.bind_some (block_stored (hp bytes (.head _)) hr')]
    show blocks symbolLimit limit (out ++ bytes) _ = _
    rw [ih (fun p h => hp p (.tail _ h)) (Nat.lt_of_succ_lt_succ hl), append_list_append,
      List.flatten_cons]

theorem length_le_storedAll (parts : List Bytes) : parts.length < (storedAll parts).length := by
  fun_induction storedAll parts with
  | case1 => simp [stored]
  | case2 bytes =>
    simp only [List.length_cons, List.length_append, stored, Bytes.length_littleEndian,
      List.length_nil]
    omega
  | case3 bytes rest hne ih =>
    simp only [List.length_cons, List.length_append, stored, Bytes.length_littleEndian] at ih ⊢
    omega

theorem decompress_compress_append (data rest : Bytes) :
    decompress (compress data ++ rest) = some (data, rest) := by
  have hp (part : Bytes) (h : part ∈ pieces 65534 data) : part.length ≤ 65535 :=
    (length_of_mem_pieces h).2
  have hl : (pieces 65534 data).length < 8 * (compress data ++ rest).length := by
    have := length_le_storedAll (pieces 65534 data)
    rw [List.length_append, compress]
    omega
  have hr : (BitSource.forward rest).length % 8 = 0 := by
    rw [BitSource.length_forward]
    omega
  have hb := @blocks_storedAll (8 * (compress data ++ rest).length) _ #[] _ _ hp hl hr
  rw [flatten_pieces] at hb
  have hdrop : (compress data ++ rest).drop
      ((compress data ++ rest).length - (BitSource.forward rest).length / 8) = rest := by
    rw [BitSource.length_forward, Nat.mul_div_cancel_left _ (by decide), List.length_append,
      Nat.add_sub_cancel]
    exact List.drop_left
  simp only [decompress, BitSource.onBytes, BitSource.forward_append]
  rw [show BitSource.forward (compress data) = BitSource.forward (storedAll (pieces 65534 data))
    from rfl, hb]
  simp only [hdrop]
  simp

end SeriesFile.Codec.Deflate
