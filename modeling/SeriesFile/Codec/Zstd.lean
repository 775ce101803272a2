import SeriesFile.Codec.Zstd.Older

/-!
# Zstandard data

Data is a row of frames, of which some are to be skipped, and some may be of earlier editions of the
format.

`compress` writes one frame of blocks of bytes as they are.
-/

namespace SeriesFile.Codec.Zstd

/-! ### Writing -/

def magic : Nat := 0xFD2FB528

def plainBlocks : List Bytes → Bytes
  | [] => BlockHeader.write ⟨true, .plain, 0⟩
  | [bytes] => BlockHeader.write ⟨true, .plain, bytes.length⟩ ++ bytes
  | bytes :: rest => BlockHeader.write ⟨false, .plain, bytes.length⟩ ++ bytes ++ plainBlocks rest

/-- A frame that holds some bytes as they are. Its window is as large as its largest block. -/
def compress (data : Bytes) : Bytes :=
  Bytes.littleEndian 4 magic ++ [0x00, 0x38] ++ plainBlocks (pieces (mostBlock - 1) data)

/-! ### Reading -/

/-- What is kept from frame to frame: buffers, and those for earlier editions. -/
structure Kept where
  buffers : Buffers
  older : Option Older.Buffer

/-- Restores a frame after its first number. The whole of it, with that number, may be within the
first `room` bytes. -/
def readFrame (kept : Kept) (room : Nat) (data : Bytes) : Option (Bytes × Kept × Bytes) := do
  let (header, rest) ← Header.read data
  if isWhole header (room - (4 + data.length - rest.length)) rest then
    let (out, rest) ← readWhole header rest
    return (out, kept, rest)
  else
    let (out, buffers, rest) ← readStreamed kept.buffers header rest
    return (out, { kept with buffers }, rest)

/-- Skips what is announced by its length. -/
def skipFrame (kept : Kept) (data : Bytes) : Option (Bytes × Kept × Bytes) := do
  let (size, data) ← data.split? 4
  let size := size.ofLittleEndian
  let (_, data) ← data.split? size
  return ([], { kept with buffers := kept.buffers.fit 1024 0 (some size) }, data)

/-- Restores one frame, which holds nothing if it is to be skipped; the bytes after it are left. -/
def readAnyFrame (kept : Kept) (room : Nat) (data : Bytes) : Option (Bytes × Kept × Bytes) := do
  let (start, rest) ← data.split? 4
  let start := start.ofLittleEndian
  if start = magic then readFrame kept room rest
  else if start / 16 = 0x184D2A5 then skipFrame kept rest
  else
    let edition ← Older.Edition.ofStart? start
    -- An earlier edition is recognised by five bytes.
    if room < 5 then none
    let (out, older, rest) ← Older.readFrame kept.older edition rest
    return (out, { kept with older }, rest)

/-- In how many bytes the data is handed over at a time: the largest block and its front. -/
def portion : Nat := mostBlock + 3

/-- The bytes of frames, `limit` at most; there must be one. Of the data, `total` bytes in all, some
may be behind. -/
def readFrames (total : Nat) : (limit : Nat) → Kept → Bytes → Option Bytes
  | 0, _, _ => none
  | limit + 1, kept, data => do
    let room := portion - (total - data.length) % portion
    let (bytes, kept, data) ← readAnyFrame kept room data
    if data.isEmpty then return bytes else return bytes ++ (← readFrames total limit kept data)

def decompress (data : Bytes) : Option Bytes :=
  readFrames data.length data.length ⟨⟨0, 0⟩, none⟩ data

/-! ### Restoring what was compressed -/

theorem read_write_plain (isLast : Bool) {size : Nat} (h : size ≤ mostBlock) (rest : Bytes) :
    BlockHeader.read (BlockHeader.write ⟨isLast, .plain, size⟩ ++ rest) =
      some (⟨isLast, .plain, size⟩, rest) := by
  have hnumber : (BlockHeader.write ⟨isLast, .plain, size⟩).ofLittleEndian =
      (if isLast then 1 else 0) + 8 * size := by
    simp only [BlockHeader.write, Nat.mul_zero, Nat.add_zero, Bytes.ofLittleEndian_littleEndian]
    have : size ≤ 2 ^ 17 := h
    cases isLast <;> simp <;> omega
  have hsplit : (BlockHeader.write ⟨isLast, .plain, size⟩ ++ rest).split? 3 =
      some (BlockHeader.write ⟨isLast, .plain, size⟩, rest) := by
    have := Bytes.split?_append (BlockHeader.write ⟨isLast, .plain, size⟩) rest
    rwa [BlockHeader.write, Bytes.length_littleEndian] at this
  have hkind : ((if isLast then 1 else 0) + 8 * size) / 2 % 4 = 0 := by
    cases isLast <;> simp <;> omega
  have hsize : ((if isLast then 1 else 0) + 8 * size) / 8 = size := by
    split <;> omega
  have hlast : decide (((if isLast then 1 else 0) + 8 * size) % 2 = 1) = isLast := by
    cases isLast
    · simp
      omega
    · simp
      omega
  simp only [BlockHeader.read, hsplit, Option.bind_eq_bind, Option.bind_some, hnumber, hkind,
    hsize, hlast]
  rfl

/-- The header of the frames that are written. -/
def plainHeader : Header := ⟨mostBlock, none, false⟩

theorem read_header (rest : Bytes) :
    Header.read (0x00 :: 0x38 :: rest) = some (plainHeader, rest) := by
  rfl

/-- A block of bytes as they are goes into the buffer, if there is room for the largest one. -/
theorem readBlock_plain {bounds : Bounds} {isLast : Bool} {carried : Carried} {out : Array UInt8}
    {bytes rest : Bytes} (h : out.size + bytes.length ≤ bounds.total) :
    readBlock bounds ⟨isLast, .plain, bytes.length⟩ carried out (bytes ++ rest) =
      some (carried, out ++ bytes, rest) := by
  have hsplit : (bytes ++ rest).split? (BlockHeader.length ⟨isLast, .plain, bytes.length⟩) =
      some (bytes, rest) :=
    Bytes.split?_append bytes rest
  simp [readBlock, hsplit, Nat.not_lt.2 h]

/-- There is room in the buffer for another block. -/
def Restored.HasRoom (restored : Restored) (capacity : Nat) : Prop :=
  restored.bytes.size + mostBlock ≤ restored.start + capacity

theorem hasRoom_turn (restored : Restored) {capacity : Nat} (h : mostBlock ≤ capacity) :
    (restored.turn mostBlock capacity plainHeader).HasRoom capacity ∧
      (restored.turn mostBlock capacity plainHeader).bytes = restored.bytes := by
  by_cases hfull : capacity < restored.bytes.size - restored.start + mostBlock
  · have hturn : restored.turn mostBlock capacity plainHeader =
        { restored with start := restored.bytes.size, floor := restored.start } :=
      if_pos ⟨rfl, hfull⟩
    rw [hturn]
    exact ⟨Nat.add_le_add_left h _, rfl⟩
  · have hturn : restored.turn mostBlock capacity plainHeader = restored :=
      if_neg fun ⟨_, hlt⟩ => hfull hlt
    rw [hturn]
    refine ⟨?_, rfl⟩
    show restored.bytes.size + mostBlock ≤ restored.start + capacity
    omega

/-- One block of bytes as they are, in front of others. -/
theorem streamedBlocks_plain {capacity limit : Nat} {carried : Carried} {restored : Restored}
    {isLast : Bool} {bytes rest : Bytes} (hp : 0 < bytes.length) (hb : bytes.length ≤ mostBlock)
    (hr : restored.HasRoom capacity) :
    streamedBlocks plainHeader capacity (limit + 1) carried restored
        (BlockHeader.write ⟨isLast, .plain, bytes.length⟩ ++ bytes ++ rest) =
      if isLast then some (false, restored.bytes ++ bytes, rest)
      else streamedBlocks plainHeader capacity limit carried
        (Restored.turn { restored with bytes := restored.bytes ++ bytes } mostBlock capacity
          plainHeader) rest := by
  have hroom : restored.bytes.size + bytes.length ≤
      min (restored.start + capacity) (restored.bytes.size + mostBlock) := by
    have : restored.bytes.size + mostBlock ≤ restored.start + capacity := hr
    omega
  have hne : (restored.bytes ++ bytes).size ≠ restored.bytes.size := by
    rw [size_append_list]
    omega
  have hlength : BlockHeader.length ⟨isLast, .plain, bytes.length⟩ = bytes.length := rfl
  rw [List.append_assoc, streamedBlocks]
  simp only [read_write_plain isLast hb, Option.bind_eq_bind, Option.bind_some, hlength,
    show plainHeader.mostBlock = mostBlock from rfl, Nat.ne_of_gt hp, if_false, Nat.not_lt.2 hb,
    or_self]
  rw [readBlock_plain hroom]
  cases isLast <;> simp [hne]

/-- Where the blocks of bytes as they are end, the last of them was empty exactly if there are no
bytes. -/
theorem streamedBlocks_plainBlocks {capacity limit : Nat} {carried : Carried}
    {restored : Restored} {parts : List Bytes} (hc : mostBlock ≤ capacity)
    (hp : ∀ part ∈ parts, 0 < part.length ∧ part.length ≤ mostBlock)
    (hl : parts.length < limit) (hr : restored.HasRoom capacity) :
    streamedBlocks plainHeader capacity limit carried restored (plainBlocks parts) =
      some (parts.isEmpty, restored.bytes ++ parts.flatten, []) := by
  fun_induction plainBlocks parts generalizing limit restored with
  | case1 =>
    obtain ⟨limit, rfl⟩ := Nat.exists_eq_succ_of_ne_zero (Nat.ne_of_gt hl)
    have hread := read_write_plain true (Nat.zero_le mostBlock) []
    rw [List.append_nil] at hread
    simp [streamedBlocks, hread, BlockHeader.length]
  | case2 bytes =>
    obtain ⟨limit, rfl⟩ := Nat.exists_eq_succ_of_ne_zero (Nat.ne_of_gt (Nat.zero_lt_of_lt hl))
    obtain ⟨hpos, hmost⟩ := hp bytes (.head _)
    have h := @streamedBlocks_plain capacity limit carried restored true bytes [] hpos hmost hr
    rw [List.append_nil] at h
    simp [h]
  | case3 bytes rest hne ih =>
    obtain ⟨limit, rfl⟩ := Nat.exists_eq_succ_of_ne_zero (Nat.ne_of_gt (Nat.zero_lt_of_lt hl))
    obtain ⟨hpos, hmost⟩ := hp bytes (.head _)
    have hturn := hasRoom_turn { restored with bytes := restored.bytes ++ bytes } hc
    have hempty : rest.isEmpty = false := by
      cases rest with
      | nil => exact (hne rfl).elim
      | cons => rfl
    rw [streamedBlocks_plain hpos hmost hr,
      if_neg Bool.false_ne_true, ih (fun p h => hp p (.tail _ h)) (Nat.lt_of_succ_lt_succ hl)
        hturn.1, hturn.2, append_list_append, List.flatten_cons, hempty]
    rfl

theorem length_lt_plainBlocks (parts : List Bytes) :
    parts.length < (plainBlocks parts).length := by
  fun_induction plainBlocks parts with
  | case1 => simp [BlockHeader.write]
  | case2 bytes => simp [BlockHeader.write]; omega
  | case3 bytes rest hne ih =>
    simp only [List.length_cons, List.length_append, BlockHeader.write,
      Bytes.length_littleEndian] at ih ⊢
    omega

/-- A frame of bytes as they are is restored block by block. -/
theorem readStreamed_plainBlocks (data : Bytes) :
    ∃ buffers, readStreamed ⟨0, 0⟩ plainHeader (plainBlocks (pieces (mostBlock - 1) data)) =
      some (data, buffers, []) := by
  have hp (part : Bytes) (h : part ∈ pieces (mostBlock - 1) data) :
      0 < part.length ∧ part.length ≤ mostBlock :=
    length_of_mem_pieces h
  have hblocks := @streamedBlocks_plainBlocks (3 * mostBlock + 64) _ .initial ⟨#[], 0, 0⟩ _
    (by decide) hp (length_lt_plainBlocks _)
    (show 0 + mostBlock ≤ 0 + (3 * mostBlock + 64) by decide)
  rw [flatten_pieces] at hblocks
  have hsize : plainHeader.size = none := rfl
  have hfit : Buffers.fit ⟨0, 0⟩ (max plainHeader.window 1024) plainHeader.mostBlock none =
      ⟨mostBlock, 3 * mostBlock + 64⟩ := rfl
  have hwindow : ¬mostWindow < max plainHeader.window 1024 := by decide
  refine ⟨⟨mostBlock, 3 * mostBlock + 64⟩, ?_⟩
  simp only [readStreamed, hwindow, if_false, hsize, hfit, hblocks, Option.bind_eq_bind,
    Option.bind_some]
  simp [checkSum, plainHeader]

theorem decompress_compress (data : Bytes) : decompress (compress data) = some data := by
  obtain ⟨buffers, hstreamed⟩ := readStreamed_plainBlocks data
  have hmagic : (Bytes.littleEndian 4 magic).ofLittleEndian = magic := by decide
  have hsplit (rest : Bytes) : (Bytes.littleEndian 4 magic ++ rest).split? 4 =
      some (Bytes.littleEndian 4 magic, rest) :=
    Bytes.split?_append (Bytes.littleEndian 4 magic) rest
  have hframe (room : Nat) : readAnyFrame ⟨⟨0, 0⟩, none⟩ room (compress data) =
      some (data, ⟨buffers, none⟩, []) := by
    rw [readAnyFrame, compress, List.append_assoc, hsplit]
    simp only [Option.bind_eq_bind, Option.bind_some, hmagic, if_true]
    show readFrame _ _ (0x00 :: 0x38 :: plainBlocks (pieces (mostBlock - 1) data)) = _
    simp only [readFrame, read_header, Option.bind_eq_bind, Option.bind_some,
      show isWhole plainHeader = fun _ _ => false from rfl, hstreamed]
    rfl
  have hlength : (compress data).length = (compress data).length - 1 + 1 := by
    simp [compress]
    omega
  rw [decompress, hlength, readFrames]
  simp only [hframe, Option.bind_eq_bind, Option.bind_some]
  rfl

end SeriesFile.Codec.Zstd
