import SeriesFile.Proofs.Pages
import SeriesFile.Proofs.Parts

/-!
# Chunks that were made from points

A `Run` is a run of points of one series together with the chunk that was made of it. The chunk
gives the points back (`Run.decode`), its header tells the truth about them, and everything in it
fits its field (`Run.sound`).
-/

namespace SeriesFile

open Reader (Reads)

/-! ### Statistics of columns -/

namespace Statistics

variable {times : List Int64} {column : Column} {s : Statistics}

/-- Statistics are made of points: there are some, and their number is counted. -/
theorem ofColumns?_eq_some (h : ofColumns? times column = some s) :
    times ≠ [] ∧ s.count = UInt64.ofNat times.length ∧
      ValueSummary.ofColumn? column = some s.values := by
  simp only [ofColumns?, Option.bind_eq_bind, Option.bind_eq_some_iff, Option.pure_def,
    Option.some.injEq] at h
  obtain ⟨first, hf, last, -, values, hv, rfl⟩ := h
  refine ⟨?_, rfl, hv⟩
  rintro rfl
  contradiction

/-- A summary is of the type of its column. -/
theorem dataType_ofColumn? {v : ValueSummary} (h : ValueSummary.ofColumn? column = some v) :
    v.dataType = column.dataType := by
  cases column with
  | boolean vs | text vs =>
    simp only [ValueSummary.ofColumn?] at h
    split at h
    · rw [← Option.some.inj h]
      rfl
    · contradiction
  | int32 vs | int64 vs | float vs | double vs =>
    obtain ⟨numbers, -, rfl⟩ := Option.map_eq_some_iff.1 h
    rfl

/-- There are no statistics without timestamps, nor without values. -/
theorem ofColumns?_eq_none_iff : ofColumns? times column = none ↔ times = [] ∨ column.isEmpty := by
  cases times with
  | nil => simp [ofColumns?]
  | cons t times =>
    cases column with
    | boolean vs | int32 vs | int64 vs | float vs | double vs | text vs =>
      cases vs with
      | nil =>
        simp [ofColumns?, ValueSummary.ofColumn?, NumberSummary.ofList?, Column.isEmpty,
          Column.length]
      | cons v vs =>
        simp [ofColumns?, ValueSummary.ofColumn?, NumberSummary.ofList?, Column.isEmpty,
          Column.length, List.getLast?_cons]

/-- Every column of points has statistics. -/
theorem ofColumns?_isSome (ht : times ≠ []) (hl : times.length = column.length) :
    (ofColumns? times column).isSome := by
  rw [Option.isSome_iff_ne_none]
  intro hnone
  rcases ofColumns?_eq_none_iff.1 hnone with hnil | hempty
  · exact ht hnil
  · -- Then there are no timestamps either.
    rw [Column.isEmpty, ← hl, beq_iff_eq] at hempty
    exact ht (List.eq_nil_of_length_eq_zero hempty)

/-- Statistics are short, but for the two texts that may stand in them. -/
theorem length_write_le {encoding : Encoding} (h : ofColumns? times column = some s)
    (hsupports : encoding.supports column.dataType) :
    s.write.length ≤ 64 + 2 * (Page.encodeValues encoding column).length := by
  obtain ⟨-, -, hv⟩ := ofColumns?_eq_some h
  simp only [write, List.length_append, Bytes.length_u64, Bytes.length_i64]
  -- Only the summary of texts has no fixed length: it repeats the first and the last one.
  cases column with
  | boolean vs =>
    simp only [ValueSummary.ofColumn?] at hv
    split at hv
    · rw [← Option.some.inj hv]
      simp only [ValueSummary.write, Bytes.bool, List.length_append, List.length_singleton,
        Bytes.length_u64]
      omega
    · contradiction
  | int32 vs | int64 vs | float vs | double vs =>
    obtain ⟨numbers, -, hv⟩ := Option.map_eq_some_iff.1 hv
    rw [← hv]
    simp only [ValueSummary.write, NumberSummary.write, List.length_append, Bytes.length_i32,
      Bytes.length_u32, Bytes.length_i64, Bytes.length_u64]
    omega
  | text vs =>
    simp only [ValueSummary.ofColumn?] at hv
    split at hv
    · rename_i first last hf hl
      have hfirst := @Bytes.length_le_flatMap _ Bytes.text _ _ (List.mem_of_head? hf)
      have hlast := @Bytes.length_le_flatMap _ Bytes.text _ _ (List.mem_of_getLast? hl)
      rw [← Option.some.inj hv]
      cases encoding with
      | plain =>
        simp only [ValueSummary.write, List.length_append, Page.encodeValues,
          Page.Plain.encodeValues]
        omega
      | ts2diff | gorilla => contradiction
    · contradiction

end Statistics

/-! ### What a chunk is made of -/

namespace Chunk

/-- What a field records is the size itself. -/
theorem fieldOf_ok {what : ChunkSize} {size : Nat} {field : UInt32}
    (h : fieldOf what size = .ok field) : size < 2 ^ 32 ∧ field.toNat = size := by
  unfold fieldOf at h
  split at h
  · rename_i hlt
    rw [← Except.ok.inj h]
    exact ⟨hlt, UInt32.toNat_ofNat_of_lt' hlt⟩
  · contradiction

/-- A chunk is never empty: it begins with its marker. -/
theorem length_write_pos (c : Chunk) : 0 < c.write.length := by
  rw [write, List.length_append, List.length_cons]
  omega

variable [Compressor]

/-- A chunk is what points are made into. -/
structure Of (measurement : String) (schema : Schema) (times : List Int64) (column : Column)
    (page : Bytes) (c : Chunk) : Prop where
  measurement_eq : c.header.measurement = measurement
  schema_eq : c.header.schema = schema
  statistics_eq : Statistics.ofColumns? times column = some c.header.statistics
  page_eq : Page.encode schema.encoding times column = .ok page
  payload_eq : schema.compression.pack page = .ok c.payload
  pointCount_eq : c.header.pointCount.toNat = times.length
  rawLength_eq : c.header.rawLength.toNat = page.length
  compressedLength_eq : c.header.compressedLength.toNat = c.payload.length
  checksum_eq : c.header.checksum = Crc32.hash c.payload

/-- Whatever was made is made of the points, step by step. -/
theorem build_ok {measurement : String} {schema : Schema} {times : List Int64} {column : Column}
    {c : Chunk} (h : build measurement schema times column = .ok (some c)) :
    ∃ page, Of measurement schema times column page c := by
  rcases hs : Statistics.ofColumns? times column with _ | statistics
  · simp [build, hs] at h
  · simp only [build, hs] at h
    obtain ⟨page, hpage, h⟩ := bind_eq_ok.1 h
    obtain ⟨payload, hpayload, h⟩ := bind_eq_ok.1 h
    obtain ⟨pointCount, hp, h⟩ := bind_eq_ok.1 h
    obtain ⟨rawLength, hr, h⟩ := bind_eq_ok.1 h
    obtain ⟨compressedLength, hc, h⟩ := bind_eq_ok.1 h
    obtain rfl := Option.some.inj (Except.ok.inj h)
    exact ⟨page, rfl, rfl, hs, hpage, hpayload, (fieldOf_ok hp).2, (fieldOf_ok hr).2,
      (fieldOf_ok hc).2, rfl⟩

/-- Nothing is made of points without timestamps, nor without values. -/
theorem build_eq_none_iff {measurement : String} {schema : Schema} {times : List Int64}
    {column : Column} :
    build measurement schema times column = .ok none ↔ times = [] ∨ column.isEmpty := by
  rw [← Statistics.ofColumns?_eq_none_iff]
  cases hs : Statistics.ofColumns? times column with
  | none => simp [build, hs]
  | some statistics =>
    constructor
    · -- With statistics there are five steps, none of which ends without a chunk.
      intro h
      simp only [build, hs] at h
      obtain ⟨page, -, h⟩ := bind_eq_ok.1 h
      obtain ⟨payload, -, h⟩ := bind_eq_ok.1 h
      obtain ⟨pointCount, -, h⟩ := bind_eq_ok.1 h
      obtain ⟨rawLength, -, h⟩ := bind_eq_ok.1 h
      obtain ⟨compressedLength, -, h⟩ := bind_eq_ok.1 h
      exact absurd (Except.ok.inj h) (Option.some_ne_none _)
    · intro h
      contradiction

/-- Only without points there is nothing to make a chunk of. -/
theorem build_ne_none {measurement : String} {schema : Schema} {times : List Int64}
    {column : Column} (ht : times ≠ []) (hl : times.length = column.length) :
    build measurement schema times column ≠ .ok none := by
  rw [Ne, build_eq_none_iff, ← Statistics.ofColumns?_eq_none_iff, ← Ne,
    ← Option.isSome_iff_ne_none]
  exact Statistics.ofColumns?_isSome ht hl

end Chunk

/-- A run of points of one series, and the chunk that was made of it. -/
structure Run [Compressor] where
  key : SeriesKey
  schema : Schema
  times : List Int64
  column : Column
  chunk : Chunk
  typed : column.dataType = schema.dataType
  built : Chunk.build key.measurement schema times column = .ok (some chunk)

namespace Run

variable [Compressor] (run : Run)

/-- The points of a run. -/
def points : List Point :=
  Page.join run.times run.column

/-- The statistics of a run. -/
def statistics : Statistics :=
  run.chunk.header.statistics

theorem measurement_eq : run.chunk.header.measurement = run.key.measurement :=
  let ⟨_, h⟩ := Chunk.build_ok run.built
  h.measurement_eq

/-- The header states the schema that the points were written with. -/
theorem schema_eq : run.chunk.header.schema = run.schema :=
  let ⟨_, h⟩ := Chunk.build_ok run.built
  h.schema_eq

/-- And the statistics of the points. -/
theorem statistics_eq : Statistics.ofColumns? run.times run.column = some run.statistics :=
  let ⟨_, h⟩ := Chunk.build_ok run.built
  h.statistics_eq

/-- And their number. -/
theorem pointCount_eq : run.chunk.header.pointCount.toNat = run.times.length :=
  let ⟨_, h⟩ := Chunk.build_ok run.built
  h.pointCount_eq

/-- A run that was made into a chunk has a value for every timestamp. -/
theorem length_column : run.times.length = run.column.length :=
  let ⟨_, h⟩ := Chunk.build_ok run.built
  (Page.encode_ok h.page_eq).2.1

/-- Its statistics are of the type of its schema. -/
theorem dataType_statistics : run.statistics.dataType = run.schema.dataType := by
  obtain ⟨-, -, hv⟩ := Statistics.ofColumns?_eq_some run.statistics_eq
  rw [← run.typed, ← Statistics.dataType_ofColumn? hv]
  rfl

/-- The chunk gives back the points that it was made of. -/
theorem decode : run.chunk.decode = .ok (run.times, run.column) := by
  obtain ⟨page, h⟩ := Chunk.build_ok run.built
  -- The length of the page is in its field, so it fits 32 bits.
  have hpage : page.length < 2 ^ 32 := by
    rw [← h.rawLength_eq]
    exact run.chunk.header.rawLength.toNat_lt
  have hpacked := Compression.decompress_of_pack h.payload_eq hpage
  have hpoints := Page.decode_encode h.page_eq (Nat.lt_trans hpage (by decide))
  rw [Chunk.decode, h.schema_eq, h.rawLength_eq, h.pointCount_eq, hpacked, ok_bind, ← run.typed]
  exact hpoints

/-- So are the points themselves, timestamps joined to values. -/
theorem points_eq : run.chunk.points = .ok run.points := by
  rw [Chunk.points, run.decode]
  rfl

/-- The texts in the statistics stand in the page too, whose length fits 32 bits. -/
theorem length_statistics_lt : run.statistics.write.length < 2 ^ 34 := by
  obtain ⟨page, h⟩ := Chunk.build_ok run.built
  obtain ⟨hsupports, -, hbytes⟩ := Page.encode_ok h.page_eq
  have hpage : page.length < 2 ^ 32 := by
    rw [← h.rawLength_eq]
    exact run.chunk.header.rawLength.toNat_lt
  have hlength := Statistics.length_write_le run.statistics_eq hsupports
  rw [hbytes, List.length_append] at hpage
  omega

/-- Everything in a chunk that was made fits its field. -/
theorem sound (h : run.key.measurement.utf8ByteSize < 2 ^ 64) : run.chunk.Sound := by
  obtain ⟨page, hc⟩ := Chunk.build_ok run.built
  refine ⟨?_, ?_, ?_, hc.compressedLength_eq, hc.checksum_eq⟩
  · rwa [run.measurement_eq]
  · rw [run.schema_eq]
    exact run.dataType_statistics
  · exact Nat.lt_trans run.length_statistics_lt (by decide)

/-- A chunk takes up less than 2³⁵ bytes, if its name is no longer than the footer can be. -/
theorem length_write_lt (h : run.key.measurement.utf8ByteSize < 2 ^ 32) :
    run.chunk.write.length < 2 ^ 35 := by
  obtain ⟨page, hc⟩ := Chunk.build_ok run.built
  have hpayload : run.chunk.payload.length < 2 ^ 32 := by
    rw [← hc.compressedLength_eq]
    exact run.chunk.header.compressedLength.toNat_lt
  have hstatistics := run.length_statistics_lt
  rw [statistics] at hstatistics
  -- A name takes at most ten bytes more than it has.
  have hname : (Bytes.text run.key.measurement).length ≤ 10 + run.key.measurement.utf8ByteSize := by
    rw [Bytes.text, List.length_append, Utf8.length_encode]
    exact Nat.add_le_add_right (Varint.length_encode_le _) _
  simp only [Chunk.write, ChunkHeader.write, Schema.write, List.length_append, List.length_cons,
    List.length_nil, Bytes.length_u32, run.measurement_eq]
  omega

end Run

end SeriesFile
