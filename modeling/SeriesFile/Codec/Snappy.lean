import SeriesFile.Bytes.Varint
import SeriesFile.Codec.Window

/-!
# Snappy blocks

A block is the number of restored bytes, as a varint, and elements. The low two bits of an
element's first byte tell its kind: a literal, or a copy whose distance takes one, two or four
bytes.

`compress` writes literals only.
-/

namespace SeriesFile.Codec.Snappy

/-- A literal of at most sixty bytes. -/
def literal (bytes : Bytes) : Bytes :=
  UInt8.ofNat ((bytes.length - 1) * 4) :: bytes

/-- A block that holds some bytes as they are. -/
def compress (data : Bytes) : Bytes :=
  Varint.encode (UInt64.ofNat data.length) ++ (pieces 59 data).flatMap literal

/-- The length of a literal and the bytes after it. A length above sixty stands in one to four bytes
of its own. -/
def literalLength (first : UInt8) (bytes : Bytes) : Option (Nat × Bytes) :=
  let n := first.toNat / 4 + 1
  if n ≤ 60 then some (n, bytes)
  else do
    let (size, rest) ← bytes.split? (n - 60)
    return (size.ofLittleEndian + 1, rest)

/-- The distance and length of a copy, and the bytes after it. -/
def copyElement (first : UInt8) (bytes : Bytes) : Option (Nat × Nat × Bytes) := do
  match first.toNat % 4 with
  | 1 =>
    -- The first byte also holds the distance's three highest bits, and the length in three bits.
    let (distance, rest) ← bytes.split? 1
    return (first.toNat / 32 * 256 + distance.ofLittleEndian, 4 + first.toNat / 4 % 8, rest)
  | 2 =>
    let (distance, rest) ← bytes.split? 2
    return (distance.ofLittleEndian, first.toNat / 4 + 1, rest)
  | _ =>
    let (distance, rest) ← bytes.split? 4
    return (distance.ofLittleEndian, first.toNat / 4 + 1, rest)

/-- Restores the element that starts with a given byte, to no more than `size` bytes in all; the
bytes after it are left. -/
def element (size : Nat) (out : Array UInt8) (first : UInt8) (bytes : Bytes) :
    Option (Array UInt8 × Bytes) :=
  if first.toNat % 4 = 0 then do
    let (n, bytes) ← literalLength first bytes
    if size < out.size + n then none
    let (taken, rest) ← bytes.split? n
    return (out ++ taken, rest)
  else do
    let (distance, n, rest) ← copyElement first bytes
    if size < out.size + n then none
    return (← copyBack? distance n out, rest)

/-- Restores elements, `limit` at most, to no more than `size` bytes in all. -/
def elements (size : Nat) : (limit : Nat) → Array UInt8 → Bytes → Option (Array UInt8)
  | _, out, [] => some out
  | 0, _, _ :: _ => none
  | limit + 1, out, first :: bytes => do
    let (out, rest) ← element size out first bytes
    elements size limit out rest

/-- The number of restored bytes, and the bytes after it. It is a 32-bit number, and so it takes
five bytes at most. -/
def readSize (block : Bytes) : Option (Nat × Bytes) :=
  match Varint.decode block with
  | (.ok size, rest) =>
    if size.toNat < 2 ^ 32 ∧ block.length ≤ rest.length + 5 then some (size.toNat, rest) else none
  | (.error _, _) => none

/-- The bytes that a block holds. Their number must be the one that the block gives. -/
def decompress (block : Bytes) : Option Bytes := do
  let (size, bytes) ← readSize block
  let out ← elements size bytes.length #[] bytes
  if out.size = size then return out.toList else none

/-! ### Restoring what was compressed -/

theorem readSize_encode {n : Nat} (h : n < 2 ^ 32) (rest : Bytes) :
    readSize (Varint.encode (UInt64.ofNat n) ++ rest) = some (n, rest) := by
  have hn : (UInt64.ofNat n).toNat = n :=
    UInt64.toNat_ofNat_of_lt' (Nat.lt_trans h (by decide))
  have hl : (Varint.encode (UInt64.ofNat n)).length ≤ 5 := by
    rw [Varint.encode, hn]
    exact Varint.length_groups_le _ (Nat.lt_trans h (by decide))
  simp only [readSize, Varint.decode_encode_append, hn, List.length_append]
  rw [if_pos ⟨h, by omega⟩]

theorem element_literal {size : Nat} {out : Array UInt8} {bytes rest : Bytes}
    (hp : 0 < bytes.length) (hl : bytes.length ≤ 60) (hs : out.size + bytes.length ≤ size) :
    element size out (UInt8.ofNat ((bytes.length - 1) * 4)) (bytes ++ rest) =
      some (out ++ bytes, rest) := by
  have hb : (UInt8.ofNat ((bytes.length - 1) * 4)).toNat = (bytes.length - 1) * 4 :=
    UInt8.toNat_ofNat_of_lt' (Nat.lt_of_le_of_lt (by omega : _ ≤ 59 * 4) (by decide))
  have hn : (bytes.length - 1) * 4 / 4 + 1 = bytes.length := by omega
  have hliteral : literalLength (UInt8.ofNat ((bytes.length - 1) * 4)) (bytes ++ rest) =
      some (bytes.length, bytes ++ rest) := by
    rw [literalLength, hb, hn]
    exact if_pos hl
  rw [element, if_pos (by rw [hb]; omega), hliteral]
  simp [Nat.not_lt.2 hs]

theorem elements_literals {size limit : Nat} {out : Array UInt8} {parts : List Bytes}
    (hp : ∀ part ∈ parts, 0 < part.length ∧ part.length ≤ 60)
    (hs : out.size + parts.flatten.length ≤ size) (hl : parts.length ≤ limit) :
    elements size limit out (parts.flatMap literal) = some (out ++ parts.flatten) := by
  induction parts generalizing limit out with
  | nil => cases limit <;> simp [elements]
  | cons part parts ih =>
    obtain ⟨hp₀, hp₁⟩ := hp part (.head _)
    rw [List.flatten_cons] at hs ⊢
    rw [List.length_append] at hs
    cases limit with
    | zero => simp at hl
    | succ limit =>
      rw [List.flatMap_cons, literal, List.cons_append, elements,
        element_literal hp₀ hp₁ (by omega)]
      show elements size limit (out ++ part) (parts.flatMap literal) = _
      have hout := size_append_list out part
      rw [ih (fun p h => hp p (.tail _ h)) (by omega) (Nat.le_of_succ_le_succ hl),
        append_list_append]

theorem length_le_flatMap_literal (parts : List Bytes) :
    parts.length ≤ (parts.flatMap literal).length := by
  induction parts with
  | nil => simp
  | cons part parts ih =>
    simp only [List.flatMap_cons, List.length_append, List.length_cons, literal]
    omega

theorem decompress_compress {data : Bytes} (h : data.length < 2 ^ 32) :
    decompress (compress data) = some data := by
  have hd := flatten_pieces 59 data
  have hs : (#[] : Array UInt8).size + (pieces 59 data).flatten.length ≤ data.length := by
    rw [hd]
    simp
  have he := elements_literals (fun _ hp => length_of_mem_pieces hp) hs
    (length_le_flatMap_literal (pieces 59 data))
  simp only [decompress, compress, readSize_encode h]
  show (elements data.length _ #[] _ >>= _) = _
  rw [he, hd]
  simp

end SeriesFile.Codec.Snappy
