import SeriesFile.Proofs.Appending
import SeriesFile.Proofs.Buffering

/-!
# How much larger a page is than its points

No encoding makes more than a quarter more of points than they are counted with in a buffer, up to
ten bytes for the length of the time section (`Page.encode_expands`). The quarter is needed:
differences of 32-bit numbers that leap take fifteen bytes for a point of twelve.

Every encoding has its own worst case, which is bounded point for point: ten bytes for a difference
of times or of 64-bit numbers, five for one of 32-bit numbers; 68 bits for a change of a distance;
and, for a difference in a window of its own, thirteen bits and the window, of which 32-bit numbers
need no more than 33 because at least 31 bits in front are always left out.
-/

namespace SeriesFile

/-! ### Varints -/

namespace Varint

/-- Seven bits go into a byte, so a number below `128 ^ (k + 1)` takes no more than `k + 1` of
them. -/
theorem length_encode_of_lt {n : UInt64} {k : Nat} (h : n.toNat < 128 ^ (k + 1)) :
    (encode n).length ≤ k + 1 :=
  length_groups_le maxLength h

/-- A length takes one byte if it is small. -/
theorem length_encode_ofNat {n : Nat} (h : n < 128) : (encode (UInt64.ofNat n)).length ≤ 1 := by
  refine length_encode_of_lt (k := 0) ?_
  rw [UInt64.toNat_ofNat']
  omega

/-- Folding doubles magnitudes. -/
theorem zigzag_lt {n : Int64} (h : -2 ^ 32 < n.toInt) (h' : n.toInt < 2 ^ 32) :
    (zigzag n).toNat < 2 ^ 33 := by
  have hx := n.toUInt64.toNat_lt
  have hn : n.toInt = if 2 * n.toUInt64.toNat < 2 ^ 64 then (n.toUInt64.toNat : Int)
      else n.toUInt64.toNat - (2 : Int) ^ 64 := BitVec.toInt_eq_toNat_cond n.toBitVec
  unfold zigzag
  split
  · -- A negative number, which is its two's complement less 2 ^ 64.
    rename_i hneg
    rw [neg_iff] at hneg
    rw [if_neg (by omega)] at hn
    rw [toNat_turned, toNat_twice]
    omega
  · rename_i hpos
    rw [neg_iff] at hpos
    rw [if_pos (by omega)] at hn
    rw [toNat_twice]
    omega

end Varint

/-! ### What points are counted with -/

namespace Buffer

/-- Eight bytes for every timestamp, and those of the values. -/
theorem costs_join {times : List Int64} {column : Column} (h : times.length = column.length) :
    costs (Page.join times column) = 8 * times.length + (column.values.map Value.rawSize).sum := by
  have hvalues := Page.values_join h
  rw [costs, ← hvalues, ← Page.length_join h]
  generalize Page.join times column = points
  induction points with
  | nil => rfl
  | cons p points ih =>
    simp only [List.map_cons, List.sum_cons, List.length_cons, cost] at ih ⊢
    omega

end Buffer

/-- Values of fixed width are counted with it. -/
theorem Column.sum_rawSize {column : Column} {width : Nat}
    (h : column.dataType.width? = some width) :
    (column.values.map Value.rawSize).sum = width * column.length := by
  cases column <;> cases h <;>
    simp [values, length, Function.comp_def, Value.rawSize, Nat.mul_comm]

namespace Page

/-! ### Plain values -/

namespace Plain

/-- A text takes more than its bytes and four for its length only if it is huge. -/
theorem length_text_le (s : String) :
    4 * (Bytes.text s).length ≤ 5 * (s.utf8ByteSize + 4) + 8 := by
  have hten := Varint.length_encode_le (UInt64.ofNat s.utf8ByteSize)
  rw [Bytes.text, List.length_append, Utf8.length_encode]
  by_cases h : s.utf8ByteSize < 128 ^ 4
  · have hfour := Varint.length_encode_of_lt (n := UInt64.ofNat s.utf8ByteSize) (k := 3)
      (by rw [UInt64.toNat_ofNat']; omega)
    omega
  · omega

/-- So it is for several texts, with the slack of each. -/
theorem length_texts_le (vs : List String) :
    4 * (encodeValues (.text vs)).length ≤
      5 * ((Column.text vs).values.map Value.rawSize).sum + 8 * vs.length := by
  induction vs with
  | nil => rfl
  | cons s vs ih =>
    have hfirst := length_text_le s
    simp only [encodeValues, Column.values, List.flatMap_cons, List.length_append, List.map_cons,
      List.sum_cons, List.length_cons, Value.rawSize] at ih ⊢
    omega

/-- Values of fixed width take it. -/
theorem length_fixed {column : Column} {width : Nat} (h : column.dataType.width? = some width) :
    (encodeValues column).length = width * column.length := by
  cases column with
  | text vs => contradiction
  | boolean vs =>
    cases h
    have hbool (b : Bool) : (Bytes.bool b).length = 1 := rfl
    exact (Bytes.length_flatMap_of_width hbool vs).trans (Nat.mul_comm _ _)
  | int32 vs =>
    cases h
    exact (Bytes.length_flatMap_of_width Bytes.length_i32 vs).trans (Nat.mul_comm _ _)
  | int64 vs =>
    cases h
    exact (Bytes.length_flatMap_of_width Bytes.length_i64 vs).trans (Nat.mul_comm _ _)
  | float vs =>
    cases h
    exact (Bytes.length_flatMap_of_width Bytes.length_u32 vs).trans (Nat.mul_comm _ _)
  | double vs =>
    cases h
    exact (Bytes.length_flatMap_of_width Bytes.length_u64 vs).trans (Nat.mul_comm _ _)

end Plain

/-! ### Differences of 32-bit numbers -/

namespace Difference

/-- The difference of two 32-bit numbers needs 33 bits when folded, which are five bytes. -/
theorem length_differences32_le (previous : Int32) (vs : List Int32) :
    (differences32 previous vs).length ≤ 5 * vs.length := by
  induction vs generalizing previous with
  | nil => exact Nat.zero_le _
  | cons v vs ih =>
    have hrest := ih v
    have hp := previous.toInt_lt
    have hp' := previous.le_toInt
    have hv := v.toInt_lt
    have hv' := v.le_toInt
    have hfolded : (Varint.zigzag (v.toInt64 - previous.toInt64)).toNat < 128 ^ (4 + 1) := by
      have hlt := Varint.zigzag_lt (n := v.toInt64 - previous.toInt64)
        (by rw [toInt_difference32]; omega) (by rw [toInt_difference32]; omega)
      omega
    have hfirst := Varint.length_encode_of_lt hfolded
    rw [differences32, List.length_append, List.length_cons, Varint.encodeSigned]
    omega

/-- The first number takes four bytes. -/
theorem length_encode32_le (vs : List Int32) : (encode32 vs).length ≤ 5 * vs.length := by
  cases vs with
  | nil => exact Nat.zero_le _
  | cons v vs =>
    have hrest := length_differences32_le v vs
    rw [encode32, List.length_append, Bytes.length_i32, List.length_cons]
    omega

end Difference

/-! ### Numbers as changed bits -/

namespace ValueBits

/-- The greatest width of a window that differences of so many bits can need: no more than 31 equal
bits in front are left out. -/
def widest (bits : Nat) : Nat :=
  64 - min (64 - bits) 31

theorem Window.width_around_le {bits difference : Nat} (h : difference < 2 ^ bits) :
    (Window.around difference).width ≤ widest bits := by
  have hlead : 64 - bits ≤ leadingZeros difference := by
    unfold leadingZeros
    split
    · exact Nat.sub_le 64 bits
    · rename_i hne
      have hlog : difference.log2 < bits := (Nat.log2_lt hne).2 h
      omega
  show 64 - min (leadingZeros difference) 31 - trailingZeros 64 difference ≤ 64 - min (64 - bits) 31
  omega

/-- Two bits for the form, eleven for a window and the bits inside of it. -/
theorem length_encodeFollowing_le {bits : Nat} {window : Option Window} {previous : UInt64}
    {ps : List UInt64} (hw : ∀ w ∈ window, w.width ≤ widest bits)
    (hprevious : previous.toNat < 2 ^ bits) (hps : ∀ p ∈ ps, p.toNat < 2 ^ bits) :
    (encodeFollowing window previous ps).length ≤ (13 + widest bits) * ps.length := by
  induction ps generalizing window previous with
  | nil => exact Nat.zero_le _
  | cons p ps ih =>
    have hp : p.toNat < 2 ^ bits := hps p (.head _)
    have hdifference : (p ^^^ previous).toNat < 2 ^ bits := by
      rw [UInt64.toNat_xor]
      exact Nat.xor_lt_two_pow hp hprevious
    have hown := Window.width_around_le hdifference
    have hw' : ∀ w ∈ some (Window.around (p ^^^ previous).toNat), w.width ≤ widest bits :=
      fun w hw => Option.some.inj hw ▸ hown
    -- What follows is in the window in force, or in the one around the difference.
    have same := ih hw hp fun q hq => hps q (.tail _ hq)
    have new := ih hw' hp fun q hq => hps q (.tail _ hq)
    have hmul : (13 + widest bits) * (ps.length + 1) =
        (13 + widest bits) * ps.length + (13 + widest bits) := Nat.mul_succ _ _
    rw [List.length_cons, hmul]
    have hheader (w : Window) : w.header.length = 11 := by
      simp [Window.header]
    have hbits (w : Window) (difference : Nat) : (w.bits difference).length = w.width := by
      simp [Window.bits]
    -- The window in force is none, or one that covers the difference or does not.
    simp only [encodeFollowing]
    split
    · rw [List.length_cons]
      omega
    · split
      · rename_i w
        have hinside := hw w rfl
        split
        · simp only [List.length_append, List.length_cons, List.length_nil, hbits]
          omega
        · simp only [List.length_append, List.length_cons, List.length_nil, hheader, hbits]
          omega
      · simp only [List.length_append, List.length_cons, List.length_nil, hheader, hbits]
        omega

/-- The first pattern takes 64 bits. -/
theorem length_encodeBits_le {bits : Nat} {ps : List UInt64}
    (h : ∀ p ∈ ps, p.toNat < 2 ^ bits) :
    (encodeBits ps).length ≤ 64 + (13 + widest bits) * (ps.length - 1) := by
  cases ps with
  | nil => exact Nat.zero_le _
  | cons p ps =>
    have hnone : ∀ w ∈ (none : Option Window), w.width ≤ widest bits := nofun
    have hrest := length_encodeFollowing_le hnone (h p (.head _)) fun q hq => h q (.tail _ hq)
    rw [encodeBits, List.length_append, Bits.length_ofNat]
    exact Nat.add_le_add_left hrest 64

/-- The bits of a column, rounded up to bytes. -/
theorem length_encode_le {bits : Nat} {column : Column}
    (h : Encoding.gorilla.supports column.dataType)
    (hbits : ∀ p ∈ patterns column, p.toNat < 2 ^ bits) :
    (encode column).length ≤ (64 + (13 + widest bits) * (column.length - 1) + 7) / 8 := by
  have hlength := length_encodeBits_le hbits
  rw [length_patterns h] at hlength
  rw [encode, Bits.length_pack]
  omega

/-- Numbers of 32 bits are patterns that end with them. -/
theorem patterns_lt {column : Column} (h : column.dataType.width? = some 4) :
    ∀ p ∈ patterns column, p.toNat < 2 ^ 32 := by
  intro p hp
  cases column with
  | boolean vs | int64 vs | double vs | text vs => simp [Column.dataType, DataType.width?] at h
  | int32 vs =>
    obtain ⟨v, -, rfl⟩ := List.mem_map.1 hp
    rw [UInt32.toNat_toUInt64]
    exact v.toUInt32.toNat_lt
  | float vs =>
    obtain ⟨v, -, rfl⟩ := List.mem_map.1 hp
    rw [UInt32.toNat_toUInt64]
    exact v.toNat_lt

end ValueBits

/-! ### Both sections of a page -/

section

variable {encoding : Encoding} {times : List Int64} {column : Column}

/-- What the timestamps and the values of a page take. -/
def sectionsLength (encoding : Encoding) (times : List Int64) (column : Column) : Nat :=
  (encodeTimes encoding times).length + (encodeValues encoding column).length

/-- Points of fixed width are counted with eight bytes and their width. -/
theorem costs_fixed (hlength : times.length = column.length) {width : Nat}
    (hwidth : column.dataType.width? = some width) :
    Buffer.costs (join times column) = (8 + width) * times.length := by
  rw [Buffer.costs_join hlength, Column.sum_rawSize hwidth, hlength, Nat.add_mul]

/-- Plain values never take more than they are counted with, but for the lengths of texts. -/
theorem plain_expands (hlength : times.length = column.length) :
    4 * sectionsLength .plain times column ≤ 5 * Buffer.costs (join times column) := by
  have htimes : (encodeTimes .plain times).length = times.length * 8 :=
    Bytes.length_flatMap_of_width Bytes.length_i64 times
  rw [sectionsLength, htimes]
  cases hwidth : column.dataType.width? with
  | some width =>
    have hvalues : (encodeValues .plain column).length = width * times.length :=
      hlength ▸ Plain.length_fixed hwidth
    rw [hvalues, costs_fixed hlength hwidth, Nat.add_mul]
    omega
  | none =>
    cases column with
    | boolean | int32 | int64 | float | double => contradiction
    | text vs =>
      have hvalues : 4 * (encodeValues .plain (.text vs)).length ≤ _ := Plain.length_texts_le vs
      have hcount : times.length = vs.length := hlength
      rw [Buffer.costs_join hlength]
      omega

/-- Fifteen bytes for twelve, or twenty for sixteen. -/
theorem ts2diff_expands (h : Encoding.ts2diff.supports column.dataType)
    (hlength : times.length = column.length) :
    4 * sectionsLength .ts2diff times column ≤ 5 * Buffer.costs (join times column) := by
  have htimes := length_encodeTimes_le .ts2diff times
  rw [sectionsLength]
  cases column with
  | boolean | float | double | text => contradiction
  | int32 vs =>
    have hvalues : (encodeValues .ts2diff (.int32 vs)).length ≤ 5 * times.length :=
      hlength ▸ Difference.length_encode32_le vs
    rw [costs_fixed hlength (show (Column.int32 vs).dataType.width? = some 4 from rfl)]
    omega
  | int64 vs =>
    have hvalues : (encodeValues .ts2diff (.int64 vs)).length ≤ 10 * times.length :=
      hlength ▸ Difference.length_encode64_le vs
    rw [costs_fixed hlength (show (Column.int64 vs).dataType.width? = some 8 from rfl)]
    omega

/-- Changed bits take more than a quarter more only of a few numbers of 32 bits, the first of which
takes 64. Their timestamps then take so little that one byte tells it. -/
theorem gorilla_expands (h : Encoding.gorilla.supports column.dataType)
    (hlength : times.length = column.length) :
    4 * sectionsLength .gorilla times column ≤ 5 * Buffer.costs (join times column) ∨
      (encodeTimes .gorilla times).length < 128 ∧
        4 * sectionsLength .gorilla times column ≤ 5 * Buffer.costs (join times column) + 36 := by
  have htimes : (encodeTimes .gorilla times).length ≤ (68 * times.length + 7) / 8 := by
    have hbits := TimeBits.length_encodeBits_le times
    rw [encodeTimes, TimeBits.encode, Bits.length_pack]
    omega
  have hvalues (bits : Nat) (hbits : ∀ p ∈ ValueBits.patterns column, p.toNat < 2 ^ bits) :
      (encodeValues .gorilla column).length ≤ _ := ValueBits.length_encode_le h hbits
  rw [← hlength] at hvalues
  have hwidth : column.dataType.width? = some 4 ∨ column.dataType.width? = some 8 := by
    cases column <;> first | contradiction | simp [Column.dataType, DataType.width?]
  rw [sectionsLength]
  rcases hwidth with hwidth | hwidth
  · have hvalues := hvalues 32 (ValueBits.patterns_lt hwidth)
    -- 46 bits for a number of 32 bits, and 68 for its time.
    rw [show ValueBits.widest 32 = 33 from rfl] at hvalues
    rw [costs_fixed hlength hwidth]
    omega
  · have hvalues := hvalues 64 fun p _ => p.toNat_lt
    -- 77 bits for a number of 64 bits, and 68 for its time.
    rw [show ValueBits.widest 64 = 64 from rfl] at hvalues
    rw [costs_fixed hlength hwidth]
    omega

/-- A page takes ten bytes more than its sections, or one if it is short. -/
theorem length_page_le (h : encoding.supports column.dataType)
    (hlength : times.length = column.length) {page : Bytes}
    (hpage : encode encoding times column = .ok page) :
    4 * page.length ≤ 5 * Buffer.costs (join times column) + 40 := by
  obtain ⟨-, -, rfl⟩ := encode_ok hpage
  -- The length of the time section is a varint, of one byte if the section is short.
  have hten := Varint.length_encode_le (UInt64.ofNat (encodeTimes encoding times).length)
  have hone := Varint.length_encode_ofNat (n := (encodeTimes encoding times).length)
  have hsections : 4 * sectionsLength encoding times column ≤
        5 * Buffer.costs (join times column) ∨
      (encodeTimes encoding times).length < 128 ∧ 4 * sectionsLength encoding times column ≤
        5 * Buffer.costs (join times column) + 36 := by
    cases encoding with
    | plain => exact .inl (plain_expands hlength)
    | ts2diff => exact .inl (ts2diff_expands h hlength)
    | gorilla => exact gorilla_expands h hlength
  rw [sectionsLength] at hsections
  rw [List.length_append, List.length_append]
  omega

end

end Page

/-! ### What a chunk header has room for -/

section

variable [Compressor]

/-- A run whose number of points and whose page a chunk header has room for: if a chunk is refused
for its size, it is for that of the payload, which is as long as the compressor makes it. -/
structure Chunk.HeaderFits (schema : Schema) (times : List Int64) (column : Column) : Prop where
  count : times.length < 2 ^ 32
  page : ∀ page, Page.encode schema.encoding times column = .ok page → page.length < 2 ^ 32
  refused : ∀ measurement what size, build measurement schema times column =
    .error (.writeFailure (.chunkTooLarge what size)) → what = .compressedLength

variable {schema : Schema} {times : List Int64} {column : Column}

omit [Compressor] in
/-- A page is not refused for the sink. -/
theorem Page.encode_ne_writeFailure {encoding : Encoding} {cause : IoCause} :
    encode encoding times column ≠ .error (.writeFailure cause) := by
  unfold encode
  split
  · simp
  · split <;> simp

/-- Nor is it when it is packed. -/
theorem Compression.pack_ne_writeFailure {form : Compression} {page : Bytes} {cause : IoCause} :
    form.pack page ≠ .error (.writeFailure cause) := by
  unfold pack
  split
  · simp
  · cases Compressor.compress form page <;> simp [Except.mapError]

omit [Compressor] in
/-- A size is refused under its own name. -/
theorem Chunk.fieldOf_error {what what' : ChunkSize} {size size' : Nat}
    (h : fieldOf what size = .error (.writeFailure (.chunkTooLarge what' size'))) :
    what' = what := by
  unfold fieldOf at h
  split at h
  · contradiction
  · cases h
    rfl

/-- If the count and the page fit, only the payload can be too large. -/
theorem Chunk.HeaderFits.of_lengths (hcount : times.length < 2 ^ 32)
    (hpage : ∀ page, Page.encode schema.encoding times column = .ok page → page.length < 2 ^ 32) :
    HeaderFits schema times column where
  count := hcount
  page := hpage
  refused measurement what size h := by
    unfold build at h
    split at h
    · contradiction
    rcases bind_eq_error.1 h with h | ⟨page, hencode, h⟩
    · exact absurd h Page.encode_ne_writeFailure
    rcases bind_eq_error.1 h with h | ⟨payload, -, h⟩
    · exact absurd h Compression.pack_ne_writeFailure
    -- The sizes are looked at in the order of the fields, and the first two fit.
    rw [fieldOf_of_lt hcount, ok_bind, fieldOf_of_lt (hpage page hencode), ok_bind] at h
    rcases bind_eq_error.1 h with h | ⟨compressedLength, -, h⟩
    · exact fieldOf_error h
    · contradiction

/-- Points that are counted with three thousand million bytes leave a quarter more, and ten bytes,
below the 2 ^ 32 of a field. -/
theorem Chunk.headerFits_of_costs (hlength : times.length = column.length)
    (h : Buffer.costs (Page.join times column) ≤ 3 * 10 ^ 9) :
    HeaderFits schema times column := by
  refine .of_lengths ?_ fun page hpage => ?_
  · have height := Buffer.costs_join hlength
    omega
  · have hexpands := Page.length_page_le (Page.encode_ok hpage).1 hlength hpage
    omega

end

section

variable {σ : Type} [Sink σ] [Compressor]

/-- A page takes at most a quarter more bytes than its points are counted with, and ten more. So the
header of its chunk has room for what a buffer has collected, up to three thousand million bytes,
whatever was done with the buffer before. -/
theorem Page.encode_expands :
    (∀ {encoding : Encoding} {times : List Int64} {column : Column},
      encoding.supports column.dataType → times.length = column.length →
      ∃ page, encode encoding times column = .ok page ∧
        4 * page.length ≤ 5 * Buffer.costs (join times column) + 40) ∧
    ∀ (schema : Schema) (calls : List (Buffer.Call σ)),
      ((Buffer.new schema).after calls).rawBytes ≤ 3 * 10 ^ 9 →
      Chunk.HeaderFits schema ((Buffer.new schema).after calls).times
        ((Buffer.new schema).after calls).column := by
  constructor
  · intro encoding times column hsupports hlength
    obtain ⟨page, hpage⟩ := encode_supported hsupports hlength
    exact ⟨page, hpage, length_page_le hsupports hlength hpage⟩
  · intro schema calls hraw
    have hordered := (Buffer.ordered_new schema).after calls
    exact Chunk.headerFits_of_costs hordered.parallel (hordered.counted ▸ hraw)

end

/-- One 32-bit number in changed bits takes 17 bytes for the twelve it is counted with, so a quarter
alone is not enough. -/
theorem Page.encode_expands_sample :
    (∃ page, encode .gorilla [5] (.int32 [7]) = .ok page ∧ page.length = 17 ∧
      5 * Buffer.costs (join [5] (.int32 [7])) < 4 * page.length ∧
      4 * page.length ≤ 5 * Buffer.costs (join [5] (.int32 [7])) + 40) ∧
    Chunk.HeaderFits ⟨.int32, .gorilla, .uncompressed⟩ [5] (.int32 [7]) := by
  obtain ⟨hexpands, hfits⟩ := encode_expands (σ := MemorySink)
  refine ⟨?_, hfits ⟨.int32, .gorilla, .uncompressed⟩ [.append 5 (.int32 7)] (by decide +kernel)⟩
  have hsupports : Encoding.gorilla.supports (Column.int32 [7]).dataType := rfl
  have hparallel : ([5] : List Int64).length = (Column.int32 [7]).length := rfl
  obtain ⟨page, hpage, hlength⟩ := hexpands hsupports hparallel
  have hsize : page.length = 17 := by
    cases hpage
    decide +kernel
  exact ⟨page, hpage, hsize, by rw [hsize]; decide, hlength⟩

end SeriesFile
