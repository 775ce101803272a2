import SeriesFile.Proofs.AnySink
import SeriesFile.Proofs.PageRoundTrip

/-!
# Chunks that are appended

What a run of points leaves on a stream. If the run is as its schema says, then the chunk behind the
marker is read back, whatever follows, and gives the points again; and a run that is not stored
leaves the stream alone, unless the sink itself has failed (`Stream.appendChunk_restores`).

Nothing looks whether the run is as its schema says. Statistics are taken of the columns, the page
is made by the type of the column, and the header repeats the schema. So a chunk is readable exactly
if the declared type is the one that was stored, and a run of which one column only is empty passes
for no run at all (`Stream.appendChunk_readable_iff`).
-/

namespace SeriesFile

open Reader (Reads)

variable {σ τ : Type}

/-! ### When there is a chunk to append -/

namespace Chunk

/-- A size below 2 ^ 32 is recorded. -/
theorem fieldOf_of_lt {what : ChunkSize} {size : Nat} (h : size < 2 ^ 32) :
    fieldOf what size = .ok (UInt32.ofNat size) :=
  if_pos h

variable [Compressor] {measurement : String} {schema : Schema} {times : List Int64}
  {column : Column}

/-- Points of which no page can be made are refused for the same reason. -/
theorem build_error {fault : Fault} (ht : times ≠ []) (hc : ¬ column.isEmpty)
    (h : Page.encode schema.encoding times column = .error fault) :
    build measurement schema times column = .error fault := by
  cases hs : Statistics.ofColumns? times column with
  | none =>
    rcases Statistics.ofColumns?_eq_none_iff.1 hs with hnil | hempty
    · exact absurd hnil ht
    · exact absurd hempty hc
  | some statistics =>
    simp only [build, hs, h]
    rfl

/-- Of points whose page was made and packed there is a chunk, if all sizes fit their fields. -/
theorem build_of_pack {page payload : Bytes} (ht : times ≠ [])
    (hpage : Page.encode schema.encoding times column = .ok page)
    (hpayload : schema.compression.pack page = .ok payload) (hcount : times.length < 2 ^ 32)
    (hraw : page.length < 2 ^ 32) (hpacked : payload.length < 2 ^ 32) :
    ∃ c, build measurement schema times column = .ok (some c) := by
  obtain ⟨-, hlength, -⟩ := Page.encode_ok hpage
  obtain ⟨statistics, hs⟩ :=
    Option.isSome_iff_exists.1 (Statistics.ofColumns?_isSome ht hlength)
  let header : ChunkHeader := {
    measurement, schema, statistics
    pointCount := UInt32.ofNat times.length
    rawLength := UInt32.ofNat page.length
    compressedLength := UInt32.ofNat payload.length
    checksum := Crc32.hash payload }
  refine ⟨⟨header, payload⟩, ?_⟩
  simp only [build, hs, hpage, hpayload, ok_bind, fieldOf_of_lt hcount, fieldOf_of_lt hraw,
    fieldOf_of_lt hpacked]
  rfl

end Chunk

/-! ### What is read has the type that was asked for -/

/-- What is read and then changed by a function is a value of that function. -/
theorem Reader.map_ok {α β : Type} {read : Reader α} {f : α → β} {bytes rest : Bytes} {b : β}
    (h : (do return f (← read) : Reader β) bytes = .ok (b, rest)) : ∃ a, b = f a := by
  obtain ⟨a, left, -, h⟩ := Reader.bind_ok.1 h
  exact ⟨a, (congrArg Prod.fst (Except.ok.inj h)).symm⟩

namespace Page

variable {type : DataType} {encoding : Encoding} {count : Nat} {bytes rest : Bytes}
  {column : Column}

/-- Plain values are read as a column of the type that was asked for. -/
theorem Plain.dataType_of_decodeValues
    (h : Plain.decodeValues type count bytes = .ok (column, rest)) : column.dataType = type := by
  cases type with
  | boolean | int32 | int64 | float | double =>
    -- The size of the values is looked at before they are read.
    obtain ⟨done, left, -, h⟩ := Reader.bind_ok.1 h
    obtain ⟨vs, rfl⟩ := Reader.map_ok h
    rfl
  | text =>
    obtain ⟨vs, rfl⟩ := Reader.map_ok h
    rfl

/-- From patterns a column of the type that was asked for is made. -/
theorem ValueBits.dataType_of_ofPatterns {ps : List UInt64}
    (h : ValueBits.ofPatterns type ps = .ok column) : column.dataType = type := by
  cases type with
  | boolean | text => contradiction
  | int32 | int64 | float | double =>
    rw [← Except.ok.inj h]
    rfl

/-- So it is where the patterns are read before. -/
theorem ValueBits.dataType_of_decode
    (h : ValueBits.decode type count bytes = .ok (column, rest)) : column.dataType = type := by
  obtain ⟨ps, left, -, h⟩ := Reader.bind_ok.1 h
  cases hps : ValueBits.ofPatterns type ps with
  | error fault =>
    rw [hps] at h
    contradiction
  | ok column' =>
    rw [hps] at h
    obtain ⟨rfl, -⟩ := Prod.mk.inj (Except.ok.inj h)
    exact dataType_of_ofPatterns hps

/-- Whatever the encoding, the values have the type that was asked for. -/
theorem dataType_of_decodeValues (hsupports : encoding.supports type)
    (h : decodeValues encoding type count bytes = .ok (column, rest)) :
    column.dataType = type := by
  cases encoding with
  | plain => exact Plain.dataType_of_decodeValues h
  | gorilla => exact ValueBits.dataType_of_decode h
  | ts2diff =>
    cases type with
    | boolean | float | double | text => contradiction
    | int32 | int64 =>
      obtain ⟨vs, rfl⟩ := Reader.map_ok h
      rfl

/-- A page gives a column of the type that was asked for. -/
theorem dataType_of_decode {times : List Int64} {page : Bytes}
    (h : decode type encoding count page = .ok (times, column)) : column.dataType = type := by
  cases hsupports : encoding.supports type with
  | false =>
    rw [decode, hsupports] at h
    contradiction
  | true =>
    rw [decode, hsupports] at h
    -- The steps of reading, of which only that of the values matters.
    obtain ⟨⟨length, page⟩, -, h⟩ := bind_eq_ok.1 h
    obtain ⟨⟨done, page⟩, -, h⟩ := bind_eq_ok.1 h
    obtain ⟨⟨timeSection, page⟩, -, h⟩ := bind_eq_ok.1 h
    obtain ⟨⟨times', timesLeft⟩, -, h⟩ := bind_eq_ok.1 h
    obtain ⟨⟨column', valuesLeft⟩, hvalues, h⟩ := bind_eq_ok.1 h
    dsimp only at h
    split at h
    · obtain ⟨-, rfl⟩ := Prod.mk.inj (Except.ok.inj h)
      exact dataType_of_decodeValues hsupports hvalues
    · contradiction

end Page

/-- Whoever reads a header finds the schema that was written. -/
theorem ChunkHeader.schema_of_read {h h' : ChunkHeader} {more rest : Bytes}
    (hname : h.measurement.utf8ByteSize < 2 ^ 64)
    (hread : read (h.write ++ more) = .ok (h', rest)) : h'.schema = h.schema := by
  simp only [write, List.append_assoc] at hread
  obtain ⟨measurement, left, htext, hread⟩ := Reader.bind_ok.1 hread
  rw [Reads.text hname _] at htext
  obtain ⟨rfl, rfl⟩ := Prod.mk.inj (Except.ok.inj htext)
  obtain ⟨schema, left, hschema, hread⟩ := Reader.bind_ok.1 hread
  rw [Schema.reads h.schema _] at hschema
  obtain ⟨rfl, rfl⟩ := Prod.mk.inj (Except.ok.inj hschema)
  -- Name and schema come first, and the rest has no influence on them.
  obtain ⟨pointCount, left, -, hread⟩ := Reader.bind_ok.1 hread
  obtain ⟨rawLength, left, -, hread⟩ := Reader.bind_ok.1 hread
  obtain ⟨compressedLength, left, -, hread⟩ := Reader.bind_ok.1 hread
  obtain ⟨checksum, left, -, hread⟩ := Reader.bind_ok.1 hread
  obtain ⟨statistics, rfl⟩ := Reader.map_ok hread
  rfl

namespace Chunk

/-- A chunk as it stands behind its marker. -/
def body (c : Chunk) : Bytes :=
  c.header.write ++ c.payload

/-- Whoever reads a chunk finds the schema that was written. -/
theorem schema_of_read {c c' : Chunk} {rest left : Bytes}
    (hname : c.header.measurement.utf8ByteSize < 2 ^ 64)
    (h : read (c.body ++ rest) = .ok (c', left)) : c'.header.schema = c.header.schema := by
  rw [body, List.append_assoc] at h
  obtain ⟨header, behind, hheader, h⟩ := Reader.bind_ok.1 h
  obtain ⟨payload, behind, -, h⟩ := Reader.bind_ok.1 h
  split at h
  · obtain ⟨rfl, -⟩ := Prod.mk.inj (Except.ok.inj h)
    exact ChunkHeader.schema_of_read hname hheader
  · simp [Reader.fail] at h

/-- A chunk gives back points of the type that its header declares, whatever was stored. -/
theorem dataType_of_decode {c : Chunk} {times : List Int64} {column : Column}
    (h : c.decode = .ok (times, column)) : column.dataType = c.header.schema.dataType := by
  obtain ⟨page, -, h⟩ := bind_eq_ok.1 h
  exact Page.dataType_of_decode h

/-- What stands behind the marker is a chunk of the given points: the chunk is read from it,
whatever follows, and from no part of it; its header says what is known of the points, and it gives
them back. -/
structure Restores (measurement : String) (schema : Schema) (times : List Int64)
    (column : Column) (statistics : Statistics) (bytes : Bytes) (c : Chunk) : Prop where
  reads : Reads read bytes c
  front : ∀ front, front <+: bytes → front ≠ bytes → ∃ fault, read front = .error fault
  measurement_eq : c.header.measurement = measurement
  schema_eq : c.header.schema = schema
  pointCount_eq : c.header.pointCount.toNat = times.length
  statistics_eq : c.header.statistics = statistics
  decode : c.decode = .ok (times, column)

variable [Compressor] {measurement : String} {schema : Schema} {times : List Int64}
  {column : Column} {c : Chunk}

/-- A chunk of points that are as the schema says restores them. -/
theorem restores_of_build (hname : measurement.utf8ByteSize < 2 ^ 64)
    (htype : column.dataType = schema.dataType)
    (h : build measurement schema times column = .ok (some c)) :
    Restores measurement schema times column c.header.statistics c.body c := by
  let run : Run := ⟨⟨"", measurement⟩, schema, times, column, c, htype, h⟩
  have hreads : Reads read c.body c := reads (run.sound hname)
  constructor
  case reads => exact hreads
  case front => exact fun front hfront hne => hreads.error_of_front local_read hfront hne
  case measurement_eq => exact run.measurement_eq
  case schema_eq => exact run.schema_eq
  case pointCount_eq => exact run.pointCount_eq
  case statistics_eq => rfl
  case decode => exact run.decode

/-- A chunk gives back the points that it was made of exactly if they are of the declared type. -/
theorem readable_iff (hname : measurement.utf8ByteSize < 2 ^ 64)
    (h : build measurement schema times column = .ok (some c)) :
    (∃ c', Reads read c.body c' ∧ c'.decode = .ok (times, column)) ↔
      column.dataType = schema.dataType := by
  constructor
  · rintro ⟨c', hreads, hdecode⟩
    obtain ⟨page, hof⟩ := build_ok h
    have hname' : c.header.measurement.utf8ByteSize < 2 ^ 64 := by rwa [hof.measurement_eq]
    rw [dataType_of_decode hdecode, schema_of_read hname' (hreads []), hof.schema_eq]
  · intro htype
    have hrestores := restores_of_build hname htype h
    exact ⟨c, hrestores.reads, hrestores.decode⟩

end Chunk

/-! ### Failures of the sink -/

namespace Watched

variable [Sink σ] {s s' : Stream (Watched σ)} {fault : Fault}

/-- What could not be written entirely failed for the sink. -/
theorem failed_of_put {bytes : Bytes} (h : s.put bytes = (.error fault, s')) :
    s'.sink.failed = true := by
  unfold Stream.put at h
  split at h
  · simp at h
  · rename_i cause after hw
    rw [← (Prod.mk.inj h).2]
    exact failed_of_writeAllWithin (Nat.le_refl _) hw

/-- A chunk that was made and could not be appended failed for the sink. -/
theorem failed_of_appendChunk [Compressor] {measurement : String} {schema : Schema}
    {times : List Int64} {column : Column} {c : Chunk}
    (hbuild : Chunk.build measurement schema times column = .ok (some c))
    (h : s.appendChunk measurement schema times column = (.error fault, s')) :
    s'.sink.failed = true := by
  simp only [Stream.appendChunk, hbuild] at h
  split at h
  · rename_i after hhead
    rw [← (Prod.mk.inj h).2]
    exact failed_of_put hhead
  · split at h
    · rename_i after hpayload
      rw [← (Prod.mk.inj h).2]
      exact failed_of_put hpayload
    · simp at h

end Watched

/-- On a sink that takes everything a chunk that was made is appended. -/
theorem Sink.Generous.appendChunk [Sink τ] [Compressor] {P : τ → Prop} (g : Sink.Generous P)
    {s : Stream τ} (hp : P s.sink) {measurement : String} {schema : Schema} {times : List Int64}
    {column : Column} {c : Chunk}
    (hbuild : Chunk.build measurement schema times column = .ok (some c)) :
    ∃ s', s.appendChunk measurement schema times column =
      (.ok (some ⟨UInt64.ofNat s.position, c.header.statistics⟩), s') ∧ P s'.sink := by
  obtain ⟨middle, hhead, hm⟩ := g.put hp (Frame.chunkMarker :: c.header.write)
  obtain ⟨after, hpayload, ha⟩ := g.put hm c.payload
  refine ⟨after, ?_, ha⟩
  simp only [Stream.appendChunk, hbuild, hhead, hpayload]

/-- Whether a chunk is appended or not, a sink that takes everything goes on so. -/
theorem Sink.Generous.appendChunk_sink [Sink τ] [Compressor] {P : τ → Prop} (g : Sink.Generous P)
    {s : Stream τ} (hp : P s.sink) (measurement : String) (schema : Schema) (times : List Int64)
    (column : Column) : P (s.appendChunk measurement schema times column).2.sink := by
  rcases hbuild : Chunk.build measurement schema times column with fault | built
  · simp only [Stream.appendChunk, hbuild]
    exact hp
  · cases built with
    | none =>
      simp only [Stream.appendChunk, hbuild]
      exact hp
    | some c =>
      obtain ⟨s', happend, hp'⟩ := g.appendChunk hp hbuild
      rw [happend]
      exact hp'

namespace Stream

section

variable [Sink σ] [Compressor] {measurement : String} {schema : Schema} {times : List Int64}
  {column : Column} {s s' : Stream σ} {fault : Fault}

/-- Whether a call of the sink fails while a chunk is appended. -/
def sinkFails (s : Stream σ) (measurement : String) (schema : Schema) (times : List Int64)
    (column : Column) : Bool :=
  ((s.on (Watched.mk s.sink false)).appendChunk measurement schema times column).2.sink.failed

/-- A chunk that is not appended leaves the stream as it was, if the sink has not failed. -/
theorem appendChunk_untouched
    (h : s.appendChunk measurement schema times column = (.error fault, s'))
    (hsink : s.sinkFails measurement schema times column = false) : s' = s := by
  cases hbuild : Chunk.build measurement schema times column with
  | error cause =>
    simp only [appendChunk, hbuild] at h
    exact (Prod.mk.inj h).2.symm
  | ok chunk =>
    cases chunk with
    | none => simp [appendChunk, hbuild] at h
    | some c =>
      -- On the watched sink the same happens, and there it would be known.
      have hwatched := InStep.appendChunk Watched.pairing
        (rfl : (Watched.mk s.sink false).sink = s.sink) measurement schema times column
      unfold sinkFails at hsink
      generalize hw : (s.on (Watched.mk s.sink false)).appendChunk measurement schema times column =
        watched at hwatched hsink
      rw [h] at hwatched
      cases hwatched with
      | same hsame =>
        rw [Watched.failed_of_appendChunk hbuild hw] at hsink
        contradiction
      | cut hcut => exact hcut.elim

end

/-! ### What is appended -/

/-- Points that a chunk of the given schema can be made of. -/
structure Storable (measurement : String) (schema : Schema) (times : List Int64)
    (column : Column) : Prop where
  /-- As that of every string that fits a memory. -/
  name : measurement.utf8ByteSize < 2 ^ 64
  supported : schema.isSupported
  typed : column.dataType = schema.dataType
  nonempty : times ≠ []
  parallel : times.length = column.length
  count : times.length < 2 ^ 32

/-- Of storable points there is a page. -/
theorem Storable.exists_page {measurement : String} {schema : Schema} {times : List Int64}
    {column : Column} (h : Storable measurement schema times column) :
    ∃ page, Page.encode schema.encoding times column = .ok page := by
  apply Page.encode_supported _ h.parallel
  rw [h.typed]
  exact h.supported

variable [Compressor]

/-- Points that are as their schema says have a page. If it and its packed form fit the header, then
on a sink that takes everything their chunk is appended: the entry tells the position where the
stream was, which is that of the marker, and what stands behind the marker restores the points. On
any sink, what is refused without a failure of the sink leaves the stream as it was. -/
theorem appendChunk_restores [Sink τ] {P : τ → Prop} (g : Sink.Generous P) (measurement : String)
    (schema : Schema) (times : List Int64) (column : Column) :
    (Storable measurement schema times column →
      ∃ page, Page.encode schema.encoding times column = .ok page ∧
        ∀ payload, schema.compression.pack page = .ok payload →
          page.length < 2 ^ 32 → payload.length < 2 ^ 32 → ∀ s : Stream τ, P s.sink →
          ∃ e s' bytes c, s.appendChunk measurement schema times column = (.ok (some e), s') ∧
            e.offset = UInt64.ofNat s.position ∧ Extends s s' (Frame.chunkMarker :: bytes) ∧
            Chunk.Restores measurement schema times column e.statistics bytes c) ∧
    ∀ {σ : Type} [Sink σ] (s s' : Stream σ) (fault : Fault),
      s.appendChunk measurement schema times column = (.error fault, s') →
      s.sinkFails measurement schema times column = false → s' = s := by
  constructor
  · intro h
    obtain ⟨page, hpage⟩ := h.exists_page
    refine ⟨page, hpage, ?_⟩
    intro payload hpayload hraw hpacked s hp
    obtain ⟨c, hbuild⟩ : ∃ c, Chunk.build measurement schema times column = .ok (some c) :=
      Chunk.build_of_pack h.nonempty hpage hpayload h.count hraw hpacked
    obtain ⟨s', happend, -⟩ := g.appendChunk hp hbuild
    obtain ⟨c', hbuild', hextends, -⟩ := appendChunk_ok happend
    -- What was appended is the chunk that the points build: building is a function of them alone.
    obtain rfl : c' = c := Option.some.inj (Except.ok.inj (hbuild'.symm.trans hbuild))
    exact ⟨_, s', c'.body, c', happend, rfl, hextends,
      Chunk.restores_of_build h.name h.typed hbuild⟩
  · intro σ _ s s' fault happend hsink
    exact appendChunk_untouched happend hsink

end Stream

/-- A stream on which three bytes stand already. -/
def sampleStream : Stream MemorySink :=
  ⟨{ MemorySink.unlimited with taken := #[7, 0, 1] }, 3, Crc32.initial⟩

/-- A schema that the samples below keep to, or do not. -/
def sampleSchema : Schema :=
  ⟨.int32, .plain, .uncompressed⟩

/-- The sample stream has room. -/
theorem generous_sampleStream : sampleStream.sink.IsUnlimited :=
  ⟨rfl, rfl, rfl⟩

/-- Two integers that the sample schema allows. -/
theorem storable_sample :
    Stream.Storable "s" sampleSchema [5, -5] (.int32 [2147483647, -1]) := by
  constructor
  case name => decide +kernel
  case supported => rfl
  case typed => rfl
  case nonempty => exact List.cons_ne_nil _ _
  case parallel => rfl
  case count => decide

/-- They are appended at the third byte; a column that is shorter than the timestamps is refused. -/
theorem appendChunk_restores_sample :
    (∃ e s' bytes c, sampleStream.appendChunk "s" sampleSchema [5, -5]
        (.int32 [2147483647, -1]) = (.ok (some e), s') ∧ e.offset = 3 ∧
      sampleStream.Extends s' (Frame.chunkMarker :: bytes) ∧
      Chunk.Restores "s" sampleSchema [5, -5] (.int32 [2147483647, -1]) e.statistics bytes c) ∧
    ∃ s', sampleStream.appendChunk "s" sampleSchema [5, -5] (.int32 [1]) =
        (.error (.corrupted (.unequalLengths 2 1)), s') ∧ s' = sampleStream := by
  constructor
  · have happend := (Stream.appendChunk_restores MemorySink.generous "s" sampleSchema [5, -5]
      (.int32 [2147483647, -1])).1 storable_sample
    obtain ⟨page, hpage, happend⟩ := happend
    have hlength : page.length = 25 := by
      rw [← Except.ok.inj hpage]
      decide +kernel
    have hfits : page.length < 2 ^ 32 := by omega
    exact happend page rfl hfits hfits sampleStream generous_sampleStream
  · have hrefused : sampleStream.appendChunk "s" sampleSchema [5, -5] (.int32 [1]) =
        (.error (.corrupted (.unequalLengths 2 1)), sampleStream) := rfl
    exact ⟨_, hrefused, (Stream.appendChunk_restores MemorySink.generous "s" sampleSchema [5, -5]
      (.int32 [1])).2 sampleStream _ _ hrefused rfl⟩

/-- What is accepted as a run. Without timestamps, and also without values, nothing is appended and
nothing is refused. Otherwise the encoding must support the type of the values, and there must be as
many of them as timestamps. If then a chunk is appended, it gives the points back exactly if they
are of the type that the schema declares. -/
theorem Stream.appendChunk_readable_iff [Sink σ] [Compressor] {measurement : String}
    (hname : measurement.utf8ByteSize < 2 ^ 64) (schema : Schema) (times : List Int64)
    (column : Column) (s : Stream σ) :
    ((s.appendChunk measurement schema times column).1 = .ok none →
      times = [] ∨ column.isEmpty) ∧
    (times = [] ∨ column.isEmpty → s.appendChunk measurement schema times column = (.ok none, s)) ∧
    (times ≠ [] → ¬ column.isEmpty → ¬ schema.encoding.supports column.dataType →
      s.appendChunk measurement schema times column =
        (.error (.encodingMismatch column.dataType schema.encoding), s)) ∧
    (times ≠ [] → ¬ column.isEmpty → schema.encoding.supports column.dataType →
      times.length ≠ column.length → s.appendChunk measurement schema times column =
        (.error (.corrupted (.unequalLengths times.length column.length)), s)) ∧
    ∀ e s', s.appendChunk measurement schema times column = (.ok (some e), s') →
      ∃ bytes, s.Extends s' (Frame.chunkMarker :: bytes) ∧
        ((∃ c, Reads Chunk.read bytes c ∧ c.decode = .ok (times, column)) ↔
          column.dataType = schema.dataType) := by
  refine ⟨?_, ?_, ?_, ?_, ?_⟩
  · intro h
    exact Chunk.build_eq_none_iff.1 (Stream.appendChunk_none (Prod.ext h rfl))
  · intro h
    simp only [Stream.appendChunk, Chunk.build_eq_none_iff.2 h]
  · intro ht hc hsupports
    have hpage : Page.encode schema.encoding times column =
        .error (.encodingMismatch column.dataType schema.encoding) := by
      simp [Page.encode, hsupports]
    simp only [Stream.appendChunk, Chunk.build_error ht hc hpage]
  · intro ht hc hsupports hlength
    have hpage : Page.encode schema.encoding times column =
        .error (.corrupted (.unequalLengths times.length column.length)) := by
      simp [Page.encode, hsupports, hlength]
    simp only [Stream.appendChunk, Chunk.build_error ht hc hpage]
  · intro e s' h
    obtain ⟨c, hbuild, hextends, -⟩ := Stream.appendChunk_ok h
    -- Whether it is read back is a matter of the chunk that was built, not of the stream.
    exact ⟨c.body, hextends, Chunk.readable_iff hname hbuild⟩

/-- Values without timestamps pass for no run, and texts are stored where numbers are declared, from
which nobody gets them back. -/
theorem appendChunk_readable_iff_sample :
    "s".utf8ByteSize < 2 ^ 64 ∧
    sampleStream.appendChunk "s" sampleSchema [1] (.int32 []) = (.ok none, sampleStream) ∧
    ∃ e s' bytes, sampleStream.appendChunk "s" sampleSchema [1] (.text ["x"]) =
        (.ok (some e), s') ∧ sampleStream.Extends s' (Frame.chunkMarker :: bytes) ∧
      ¬ ∃ c, Reads Chunk.read bytes c ∧ c.decode = .ok ([1], .text ["x"]) := by
  have hname : "s".utf8ByteSize < 2 ^ 64 := by decide +kernel
  obtain ⟨-, hnone, -⟩ :=
    Stream.appendChunk_readable_iff hname sampleSchema [1] (.int32 []) sampleStream
  obtain ⟨-, -, -, -, happended⟩ :=
    Stream.appendChunk_readable_iff hname sampleSchema [1] (.text ["x"]) sampleStream
  obtain ⟨bytes, hextends, hreadable⟩ := happended _ _ rfl
  refine ⟨hname, hnone (.inr rfl), _, _, bytes, rfl, hextends, ?_⟩
  intro hread
  have htype : DataType.text = DataType.int32 := hreadable.1 hread
  contradiction

end SeriesFile
