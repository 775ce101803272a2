import SeriesFile.Proofs.Reading

/-!
# The parts of a file are read back

For every part of a file there are two facts about its reader. It gives back what was written, which
takes that numbers fit the fields that record them; for the parts of the footer this follows from
the size of what was written (`Footer.reads`). And it is local: it decides by the bytes that it
takes (`Footer.local_read`).
-/

namespace SeriesFile

open Reader (Reads Local)

/-- A text is read back if with its length it is shorter than what a length can tell. -/
theorem Reader.Reads.text_of_length {s : String} (h : (Bytes.text s).length < 2 ^ 64) :
    Reads Reader.text (Bytes.text s) s :=
  .text (Nat.lt_of_le_of_lt (Bytes.length_text s) h)

/-! ### Schemas and statistics -/

/-- A schema is three tags, each of which stands for one thing. -/
theorem Schema.reads (s : Schema) : Reads Schema.read s.write s :=
  (Reads.tag s.dataType.ofTag?_tag).bind <| (Reads.tag s.encoding.ofTag?_tag).bind <|
    (Reads.tag s.compression.ofTag?_tag).map _

theorem Schema.local_read : Local Schema.read :=
  (Local.tag _ _).bind fun _ => (Local.tag _ _).bind fun _ =>
    (Local.tag _ _).map _

namespace NumberSummary

variable {α σ : Type} {value : Reader α} {total : Reader σ}

/-- Five numbers, of which the last may be of another width than the others. -/
theorem reads {writeValue : α → Bytes} {writeTotal : σ → Bytes}
    (hv : ∀ v, Reads value (writeValue v) v) (ht : ∀ t, Reads total (writeTotal t) t)
    (s : NumberSummary α σ) : Reads (read value total) (s.write writeValue writeTotal) s := by
  simp only [write, List.append_assoc]
  exact (hv s.min).bind <| (hv s.max).bind <| (hv s.first).bind <| (hv s.last).bind <|
    (ht s.sum).map _

theorem local_read (hv : Local value) (ht : Local total) : Local (read value total) :=
  hv.bind fun _ => hv.bind fun _ => hv.bind fun _ => hv.bind fun _ => ht.map _

end NumberSummary

namespace ValueSummary

/-- The summary of values is read back for the type it is of, which the reader is told and does not
find. -/
theorem reads {s : ValueSummary} (h : s.write.length < 2 ^ 64) :
    Reads (read s.dataType) s.write s := by
  cases s with
  | boolean first last trueCount =>
    cases first <;> cases last <;>
      exact (Reads.byte _).bind <| (Reads.byte _).bind <| (Reads.u64 trueCount).map _
  | int32 s => exact (s.reads .i32 .i64).map int32
  | int64 s => exact (s.reads .i64 .u64).map int64
  | float s => exact (s.reads .u32 .u64).map float
  | double s => exact (s.reads .u64 .u64).map double
  | text first last =>
    -- Only texts have lengths, and they are shorter than the summary.
    rw [write, List.length_append] at h
    exact (Reads.text_of_length (by omega)).bind <|
      (Reads.text_of_length (by omega)).map _

theorem local_read (type : DataType) : Local (read type) := by
  cases type with
  | boolean =>
    exact Local.byte.bind fun first => Local.byte.bind fun last =>
      Local.u64.map (boolean (first != 0) (last != 0))
  | int32 => exact (NumberSummary.local_read .i32 .i64).map int32
  | int64 => exact (NumberSummary.local_read .i64 .u64).map int64
  | float => exact (NumberSummary.local_read .u32 .u64).map float
  | double => exact (NumberSummary.local_read .u64 .u64).map double
  | text => exact Local.text.bind fun first => Local.text.map (text first)

end ValueSummary

namespace Statistics

/-- Statistics begin with the count and the two times and end with the summary of the values. -/
theorem reads {s : Statistics} (h : s.write.length < 2 ^ 64) :
    Reads (read s.dataType) s.write s := by
  have hvalues : s.values.write.length < 2 ^ 64 := by
    rw [write, List.length_append] at h
    omega
  simp only [write, List.append_assoc]
  exact (Reads.u64 _).bind <| (Reads.i64 _).bind <| (Reads.i64 _).bind <|
    (ValueSummary.reads hvalues).map _

theorem local_read (type : DataType) : Local (read type) :=
  Local.u64.bind fun _ => Local.i64.bind fun _ => Local.i64.bind fun _ =>
    (ValueSummary.local_read type).map _

end Statistics

/-! ### Chunks -/

/-- The header of a chunk fits its payload, and everything in it fits its field. -/
structure Chunk.Sound (c : Chunk) : Prop where
  measurement : c.header.measurement.utf8ByteSize < 2 ^ 64
  dataType : c.header.statistics.dataType = c.header.schema.dataType
  statistics : c.header.statistics.write.length < 2 ^ 64
  compressedLength : c.header.compressedLength.toNat = c.payload.length
  checksum : c.header.checksum = Crc32.hash c.payload

namespace ChunkHeader

/-- A header tells everything about its chunk, the type of its statistics included: the schema is
read before them. -/
theorem reads {h : ChunkHeader} (hm : h.measurement.utf8ByteSize < 2 ^ 64)
    (ht : h.statistics.dataType = h.schema.dataType) (hs : h.statistics.write.length < 2 ^ 64) :
    Reads read h.write h := by
  -- The reader takes the type from the schema, so both types have to be one.
  have hstatistics := Statistics.reads hs
  rw [ht] at hstatistics
  simp only [write, List.append_assoc]
  exact (Reads.text hm).bind <| (Schema.reads _).bind <| (Reads.u32 _).bind <|
    (Reads.u32 _).bind <| (Reads.u32 _).bind <| (Reads.u32 _).bind <|
      hstatistics.map _

theorem local_read : Local read :=
  Local.text.bind fun _ => Schema.local_read.bind fun schema => Local.u32.bind fun _ =>
    Local.u32.bind fun _ => Local.u32.bind fun _ => Local.u32.bind fun _ =>
      (Statistics.local_read schema.dataType).map _

end ChunkHeader

namespace Chunk

/-- A chunk is read back, payload and all, since the checksum is that of its payload. -/
theorem reads {c : Chunk} (h : c.Sound) : Reads read (c.header.write ++ c.payload) c := by
  -- The comparison of the checksums comes last and takes no bytes.
  have last : Reads (do
      let actual := Crc32.hash c.payload
      if actual = c.header.checksum then return c
      else Reader.fail (.checksumMismatch c.header.checksum actual)) [] c := by
    rw [if_pos h.checksum.symm]
    exact .pure c
  apply (ChunkHeader.reads h.measurement h.dataType h.statistics).bind
  rw [h.compressedLength]
  exact (Reads.take c.payload).bind_nil last

theorem local_read : Local read :=
  ChunkHeader.local_read.bind fun _ => (Local.take _).bind fun _ => Local.ite (.pure _) (.fail _)

end Chunk

/-! ### Registries -/

namespace SeriesTable

variable {α : Type}

/-- An entry that comes after all others goes to the end. -/
theorem place_of_last {key : SeriesKey} {a : α} {entries : List (SeriesKey × α)}
    (h : ∀ entry ∈ entries, compare entry.1 key = .lt) :
    place key a entries = entries ++ [(key, a)] := by
  induction entries with
  | nil => rfl
  | cons entry rest ih =>
    have hgt : compare key entry.1 = .gt := Std.OrientedCmp.gt_iff_lt.2 (h entry (.head _))
    simp only [place, hgt, List.cons_append]
    rw [ih fun e he => h e (.tail _ he)]

/-- A series that comes after all others is not among them. -/
theorem contains_of_last {t : SeriesTable α} {key : SeriesKey}
    (h : ∀ entry ∈ t.entries, compare entry.1 key = .lt) : t.contains key = false := by
  have hnone : t.entries.find? (fun entry => entry.1 = key) = none := by
    rw [List.find?_eq_none]
    intro entry he hk
    have hlt := h entry he
    rw [of_decide_eq_true hk, show compare key key = .eq from Std.ReflCmp.compare_self] at hlt
    contradiction
  rw [contains, find?, hnone]
  rfl

end SeriesTable

namespace Registry

/-- Entries are read into the registry that those before them have made. They come in ascending
order, so each is the last one when it is added: by induction on the entries, with the registry as
it grows. -/
theorem reads_into {entries : List (SeriesKey × Schema)} (r s : Registry)
    (hs : s.entries = r.entries ++ entries)
    (fits : ∀ entry ∈ entries, entry.1.device.utf8ByteSize < 2 ^ 64 ∧
      entry.1.measurement.utf8ByteSize < 2 ^ 64) :
    Reads (readInto r entries.length) (entries.flatMap writeEntry) s := by
  induction entries generalizing r with
  | nil =>
    obtain ⟨rentries, _⟩ := r
    obtain ⟨sentries, _⟩ := s
    obtain rfl : sentries = rentries := by simpa using hs
    exact .pure _
  | cons entry rest ih =>
    obtain ⟨key, schema⟩ := entry
    obtain ⟨hdevice, hmeasurement⟩ := fits _ (.head _)
    -- All that has been read comes before this one.
    have hlast : ∀ entry ∈ r.entries, compare entry.1 key = .lt := by
      have hpairs := s.ascending
      rw [hs, List.pairwise_append] at hpairs
      exact fun entry he => hpairs.2.2 entry he (key, schema) (.head _)
    -- So it is not refused as a repetition.
    have hadd : r.add key schema = .ok (r.insert key schema) := by
      rw [add, SeriesTable.contains_of_last hlast]
      rfl
    have hentries : s.entries = (r.insert key schema).entries ++ rest := by
      show s.entries = SeriesTable.place key schema r.entries ++ rest
      rw [SeriesTable.place_of_last hlast, List.append_assoc]
      exact hs
    have hrest := ih (r.insert key schema) hentries fun entry he => fits entry (.tail _ he)
    rw [List.flatMap_cons, writeEntry, List.append_assoc, List.append_assoc]
    refine (Reads.text hdevice).bind <| (Reads.text hmeasurement).bind <|
      (Schema.reads schema).bind ?_
    dsimp only
    rw [hadd]
    exact hrest

/-- The lengths of the names in a registry fit the numbers that are written before them, as those
of all strings that fit a memory do. -/
def NamesFit (r : Registry) : Prop :=
  ∀ key ∈ r.keys, key.device.utf8ByteSize < 2 ^ 64 ∧ key.measurement.utf8ByteSize < 2 ^ 64

/-- A registry is its size and its entries. -/
theorem reads {r : Registry} (hn : r.NamesFit) (hs : r.size < 2 ^ 32) :
    Reads read r.write r := by
  apply (Reads.u32 _).bind
  rw [UInt32.toNat_ofNat_of_lt' hs]
  exact reads_into SeriesTable.empty r rfl fun entry he => hn entry.1 (List.mem_map_of_mem he)

/-- No name is longer than the registry that it is written in. -/
theorem name_lt_of_length {r : Registry} {bound : Nat} (h : r.write.length < bound)
    {key : SeriesKey} (hkey : key ∈ r.keys) :
    key.device.utf8ByteSize < bound ∧ key.measurement.utf8ByteSize < bound := by
  rw [write, List.length_append] at h
  obtain ⟨entry, he, rfl⟩ := List.mem_map.1 hkey
  have hentry := @Bytes.length_le_flatMap _ writeEntry _ _ he
  rw [writeEntry, List.length_append, List.length_append] at hentry
  have hdevice := Bytes.length_text entry.1.device
  have hmeasurement := Bytes.length_text entry.1.measurement
  constructor <;> omega

/-- What a registry takes up in the footer bounds the number of its series. -/
theorem size_lt_of_length {r : Registry} {bound : Nat} (h : r.write.length < bound) :
    r.size < bound := by
  have hentries : 3 * r.entries.length ≤ (r.entries.flatMap writeEntry).length := by
    apply Bytes.mul_length_le_flatMap
    intro entry _
    rw [writeEntry, List.length_append]
    exact Nat.le_add_left 3 _
  rw [write, List.length_append] at h
  show r.entries.length < bound
  omega

/-- And it bounds its names. -/
theorem reads_of_length {r : Registry} (h : r.write.length < 2 ^ 32) : Reads read r.write r :=
  reads (fun _ hkey => name_lt_of_length (Nat.lt_trans h (by decide)) hkey) (size_lt_of_length h)

/-- Whether an entry is refused as a repetition depends on those that were read, not on what
follows. -/
theorem local_readInto (r : Registry) (count : Nat) : Local (readInto r count) := by
  induction count generalizing r with
  | zero => exact .pure r
  | succ count ih =>
    refine Local.text.bind fun device => Local.text.bind fun measurement =>
      Schema.local_read.bind fun schema => ?_
    split
    · exact ih _
    · exact .fail _

theorem local_read : Local read :=
  Local.u32.bind fun count => local_readInto SeriesTable.empty count.toNat

end Registry

/-! ### Entries of the footer -/

namespace ChunkEntry

/-- An entry for a chunk is its offset and its statistics. -/
theorem reads {e : ChunkEntry} (h : e.statistics.write.length < 2 ^ 64) :
    Reads (read e.statistics.dataType) e.write e :=
  (Reads.u64 _).bind <| (Statistics.reads h).map _

theorem local_read (type : DataType) : Local (read type) :=
  Local.u64.bind fun _ => (Statistics.local_read type).map _

end ChunkEntry

namespace SeriesEntry

/-- Everything in an entry is of the entry's type. -/
structure Typed (e : SeriesEntry) : Prop where
  statistics : e.statistics.dataType = e.dataType
  chunks : ∀ c ∈ e.chunks, c.statistics.dataType = e.dataType

/-- A chunk takes up at least 32 bytes of the entry: its offset, number of points and times. -/
theorem mul_length_chunks_le (e : SeriesEntry) : 32 * e.chunks.length ≤ e.write.length := by
  have hchunks : 32 * e.chunks.length ≤ (e.chunks.flatMap ChunkEntry.write).length := by
    apply Bytes.mul_length_le_flatMap
    intro c _
    simp only [ChunkEntry.write, Statistics.write, List.length_append, Bytes.length_u64,
      Bytes.length_i64]
    omega
  rw [write, List.length_append]
  omega

/-- The entry of a series is read back if its own length fits 32 bits: that bounds the number of its
chunks and the length of everything in it. -/
theorem reads {e : SeriesEntry} (h : e.write.length < 2 ^ 32) (ht : e.Typed) :
    Reads read e.write e := by
  have hchunks := e.mul_length_chunks_le
  have hcount : (UInt32.ofNat e.chunks.length).toNat = e.chunks.length :=
    UInt32.toNat_ofNat_of_lt' (Nat.lt_of_le_of_lt (by omega) h)
  simp only [write, List.length_append] at h
  -- The reader takes the type from the entry.
  have hstatistics : Reads (Statistics.read e.dataType) e.statistics.write e.statistics := by
    have hread := @Statistics.reads e.statistics (by omega)
    rwa [ht.statistics] at hread
  -- And it is that of the chunks too.
  have hentries : Reads (Reader.replicate e.chunks.length (ChunkEntry.read e.dataType))
      (e.chunks.flatMap ChunkEntry.write) e.chunks := by
    refine .replicate fun c hc => ?_
    have hlength := @Bytes.length_le_flatMap _ ChunkEntry.write _ _ hc
    rw [ChunkEntry.write, List.length_append] at hlength
    rw [← ht.chunks c hc]
    exact ChunkEntry.reads (by omega)
  simp only [write, List.append_assoc]
  refine (Reads.text_of_length (by omega)).bind <| (Reads.text_of_length (by omega)).bind <|
    (Reads.tag e.dataType.ofTag?_tag).bind <| hstatistics.bind <| (Reads.u32 _).bind ?_
  rw [hcount]
  exact hentries.map _

theorem local_read : Local read :=
  Local.text.bind fun _ => Local.text.bind fun _ => (Local.tag _ _).bind fun dataType =>
    (Statistics.local_read dataType).bind fun _ => Local.u32.bind fun count =>
      ((ChunkEntry.local_read dataType).replicate count.toNat).map _

end SeriesEntry

namespace Bloom

/-- The words of a filter are no more than its bytes. -/
theorem length_words_lt {b : Bloom} {bound : Nat} (h : b.write.length < bound) :
    b.words.length < bound := by
  rw [write, List.length_append, Bytes.length_flatMap_of_width Bytes.length_u64] at h
  omega

/-- A filter is the number of its words, that of its hashes and the words; with no words at all it
would be refused. -/
theorem reads {b : Bloom} (h : b.words.length < 2 ^ 32) (h₀ : b.words ≠ []) :
    Reads read b.write b := by
  have hcount : (UInt32.ofNat b.words.length).toNat = b.words.length :=
    UInt32.toNat_ofNat_of_lt' h
  have hne : UInt32.ofNat b.words.length ≠ 0 := by
    intro hzero
    rw [hzero] at hcount
    exact h₀ (List.eq_nil_of_length_eq_zero hcount.symm)
  have hwords : Reads (Reader.replicate b.words.length Reader.u64) (b.words.flatMap Bytes.u64)
      b.words :=
    .replicate fun w _ => .u64 w
  simp only [write, List.append_assoc]
  refine (Reads.u32 _).bind <| (Reads.byte b.hashes).bind <| (Reads.take [0, 0, 0]).bind ?_
  rw [if_neg hne, hcount]
  exact hwords.map _

theorem local_read : Local read :=
  Local.u32.bind fun _ => Local.byte.bind fun _ => (Local.take 3).bind fun _ =>
    Local.ite (.fail _) ((Local.u64.replicate _).map _)

end Bloom

/-! ### Footers -/

namespace Footer

/-- Everything in a footer is of the type that it should be of, and the filter has words. -/
structure Sound (f : Footer) : Prop where
  typed : ∀ e ∈ f.series, e.Typed
  bloom : f.bloom.words ≠ []

/-- The parts of a footer are no longer than all of it. -/
theorem length_parts_lt {f : Footer} {bound : Nat} (h : f.write.length < bound) :
    f.schemas.write.length < bound ∧ f.series.length < bound ∧
      (∀ e ∈ f.series, e.write.length < bound) ∧ f.bloom.write.length < bound := by
  -- Each entry takes at least one byte.
  have hseries : 1 * f.series.length ≤ (f.series.flatMap SeriesEntry.write).length := by
    apply Bytes.mul_length_le_flatMap
    intro e _
    simp only [SeriesEntry.write, List.length_append, Bytes.length_u32]
    omega
  simp only [write, List.length_append, List.length_cons, List.length_nil, Bytes.length_u32] at h
  refine ⟨by omega, by omega, ?_, by omega⟩
  intro e he
  have hlength := @Bytes.length_le_flatMap _ SeriesEntry.write _ _ he
  omega

/-- A footer whose length fits the tail is read back. -/
theorem reads {f : Footer} (h : f.write.length < 2 ^ 32) (hf : f.Sound) :
    Reads read f.write f := by
  -- One bound for the whole gives one for every part.
  obtain ⟨hschemas, hnumber, hlengths, hbloom⟩ := length_parts_lt h
  have hcount : (UInt32.ofNat f.series.length).toNat = f.series.length :=
    UInt32.toNat_ofNat_of_lt' hnumber
  have hentries : Reads (Reader.replicate f.series.length SeriesEntry.read)
      (f.series.flatMap SeriesEntry.write) f.series :=
    .replicate fun e he => SeriesEntry.reads (hlengths e he) (hf.typed e he)
  simp only [write, List.append_assoc]
  apply (Reads.byte Frame.footerMarker).bind
  rw [if_neg (not_not_intro rfl)]
  refine (Registry.reads_of_length hschemas).bind <| (Reads.u32 _).bind ?_
  rw [hcount]
  exact hentries.bind ((Bloom.reads (Bloom.length_words_lt hbloom) hf.bloom).map _)

theorem local_read : Local read := by
  refine Local.byte.bind fun marker => Local.ite (.fail _) ?_
  exact Registry.local_read.bind fun _ => Local.u32.bind fun _ =>
    (SeriesEntry.local_read.replicate _).bind fun _ => Bloom.local_read.map _

/-- Nothing is taken for a footer that does not start with the marker. -/
theorem marker_of_read {f : Footer} {bytes rest : Bytes} (h : read bytes = .ok (f, rest)) :
    ∃ behind, bytes = Frame.footerMarker :: behind := by
  cases bytes with
  | nil => contradiction
  | cons marker behind =>
    refine ⟨behind, ?_⟩
    by_cases hm : marker = Frame.footerMarker
    · rw [hm]
    · -- Any other byte is refused at once.
      obtain ⟨b, left, hb, h⟩ := Reader.bind_ok.1 h
      obtain ⟨rfl, rfl⟩ := Prod.mk.inj (Except.ok.inj hb)
      rw [if_pos hm] at h
      contradiction

end Footer

end SeriesFile
