import SeriesFile.Codec.Window

/-!
# LZ4 blocks behind their size

The number of bytes that a block may restore to stands before it, in four bytes. A block is a row
of sequences: a token with two lengths of four bits, literals, and a copy of at least four bytes.
A length of fifteen goes on in further bytes, up to the first below 255. The last sequence ends
after its literals.

`compress` writes one sequence of literals.
-/

namespace SeriesFile.Codec.Lz4

/-- The further bytes of a length. -/
def extend (n : Nat) : Bytes :=
  List.replicate (n / 255) 255 ++ [UInt8.ofNat (n % 255)]

/-- Literals behind their token. -/
def literals (bytes : Bytes) : Bytes :=
  (if bytes.length < 15 then [UInt8.ofNat (bytes.length * 16)]
    else 0xF0 :: extend (bytes.length - 15)) ++ bytes

/-- A block that holds some bytes as they are, behind its size. -/
def compress (data : Bytes) : Bytes :=
  Bytes.littleEndian 4 data.length ++ literals data

/-- The sum of the further bytes of a length, and the bytes after them. -/
def further : Bytes → Option (Nat × Bytes)
  | [] => none
  | b :: bytes =>
    if b = 255 then (further bytes).map fun (n, rest) => (n + 255, rest) else some (b.toNat, bytes)

/-- The length whose first four bits are given, and the bytes after it. -/
def length (first : Nat) (bytes : Bytes) : Option (Nat × Bytes) :=
  if first = 15 then (further bytes).map fun (n, rest) => (n + 15, rest) else some (first, bytes)

/-- Restores sequences, `limit` at most, to no more than `capacity` bytes in all. -/
def sequences (capacity : Nat) : (limit : Nat) → Array UInt8 → Bytes → Option (Array UInt8)
  | _, _, [] => none
  | 0, _, _ :: _ => none
  | limit + 1, out, token :: bytes => do
    let (n, bytes) ← length (token.toNat / 16) bytes
    let (taken, bytes) ← bytes.split? n
    if capacity < out.size + n then none
    let out := out ++ taken
    -- The last sequence has no copy.
    if bytes.isEmpty then return out
    let (distance, bytes) ← bytes.split? 2
    let (n, bytes) ← length (token.toNat % 16) bytes
    if capacity < out.size + (n + 4) then none
    let out ← copyBack? distance.ofLittleEndian (n + 4) out
    sequences capacity limit out bytes

/-- The bytes that a block behind its size holds; they may be fewer than the size says. -/
def decompress (data : Bytes) : Option Bytes := do
  let (size, block) ← data.split? 4
  let out ← sequences size.ofLittleEndian block.length #[] block
  return out.toList

/-! ### Restoring what was compressed -/

theorem further_extend (n : Nat) (rest : Bytes) : further (extend n ++ rest) = some (n, rest) := by
  suffices h : ∀ k, further (List.replicate k 255 ++ [UInt8.ofNat (n % 255)] ++ rest) =
      some (k * 255 + n % 255, rest) by
    rw [extend, h, Nat.mul_comm, Nat.div_add_mod]
  intro k
  induction k with
  | zero =>
    have hm : n % 255 < 255 := Nat.mod_lt _ (by decide)
    have hb : (UInt8.ofNat (n % 255)).toNat = n % 255 :=
      UInt8.toNat_ofNat_of_lt' (Nat.lt_trans hm (by decide))
    have hne : UInt8.ofNat (n % 255) ≠ 255 := by
      intro e
      have := congrArg UInt8.toNat e
      rw [hb] at this
      exact Nat.ne_of_lt hm this
    simp [further, hne, hb]
  | succ k ih =>
    rw [List.replicate_succ, List.cons_append, List.cons_append, further, if_pos rfl, ih]
    simp only [Option.map_some, Option.some.injEq, Prod.mk.injEq, and_true]
    omega

/-- A sequence of literals that nothing follows restores to them. -/
theorem sequences_literals {capacity limit : Nat} {bytes : Bytes} (h : bytes.length ≤ capacity)
    (hl : 0 < limit) : sequences capacity limit #[] (literals bytes) = some bytes.toArray := by
  obtain ⟨limit, rfl⟩ := Nat.exists_eq_succ_of_ne_zero (Nat.ne_of_gt hl)
  have hlast : bytes.split? bytes.length = some (bytes, []) := by
    simpa using Bytes.split?_append bytes []
  unfold literals
  split
  · rename_i hs
    have hb : (UInt8.ofNat (bytes.length * 16)).toNat = bytes.length * 16 :=
      UInt8.toNat_ofNat_of_lt' (Nat.lt_of_le_of_lt (by omega : _ ≤ 14 * 16) (by decide))
    have hlength : length ((UInt8.ofNat (bytes.length * 16)).toNat / 16) bytes =
        some (bytes.length, bytes) := by
      rw [hb, Nat.mul_div_cancel _ (by decide), length, if_neg (by omega)]
    rw [List.singleton_append, sequences, hlength]
    simp [hlast, Nat.not_lt.2 h]
  · rename_i hs
    have hlength : length ((0xF0 : UInt8).toNat / 16) (extend (bytes.length - 15) ++ bytes) =
        some (bytes.length, bytes) := by
      rw [length, if_pos (by decide), further_extend]
      simp only [Option.map_some, Option.some.injEq, Prod.mk.injEq, and_true]
      omega
    rw [List.cons_append, sequences, hlength]
    simp [hlast, Nat.not_lt.2 h]

theorem decompress_compress {data : Bytes} (h : data.length < 2 ^ 32) :
    decompress (compress data) = some data := by
  have hsize : (Bytes.littleEndian 4 data.length).ofLittleEndian = data.length := by
    rw [Bytes.ofLittleEndian_littleEndian]
    exact Nat.mod_eq_of_lt h
  have hsplit : (compress data).split? 4 =
      some (Bytes.littleEndian 4 data.length, literals data) := by
    have := Bytes.split?_append (Bytes.littleEndian 4 data.length) (literals data)
    rwa [Bytes.length_littleEndian] at this
  have hpos : 0 < (literals data).length := by
    unfold literals
    split <;> simp
  rw [decompress, hsplit]
  show (sequences (Bytes.littleEndian 4 data.length).ofLittleEndian _ #[] _ >>= _) = _
  rw [hsize, sequences_literals (Nat.le_refl _) hpos]
  simp

end SeriesFile.Codec.Lz4
