import Mathlib.Data.UInt
import SeriesFile.Proofs.Merging
import SeriesFile.Proofs.RoundTrip

/-!
# What a writer counts

A writer keeps four tallies beside what they count: the bytes of all buffers, the bytes of each
buffer, the points and the chunks. After whatever it was asked for they agree with its buffers, its
index and its file (`Conserved`), and when it is closed with the footer of the file (`conserved`).

The writer counts points without bound, while the counts in the index are numbers of 64 bits that
wrap around. So the points agree as such numbers, and exactly as long as they are fewer than 2⁶⁴.
-/

namespace SeriesFile

/-! ### Counts of an index -/

/-- A sum of 64-bit numbers is the sum of what they stand for, wrapped around. -/
theorem sum_map_ofNat (ns : List Nat) : (ns.map UInt64.ofNat).sum = UInt64.ofNat ns.sum := by
  induction ns with
  | nil => rfl
  | cons n ns ih => rw [List.map_cons, List.sum_cons, List.sum_cons, ih, UInt64.ofNat_add]

section

variable [Compressor]

/-- A run has as many points as timestamps. -/
theorem Run.length_points (run : Run) : run.points.length = run.times.length :=
  Page.length_join run.length_column

namespace Indexed

variable {registry : Registry} {runs : List Run} {index : SeriesTable SeriesEntry}
  (h : Indexed registry runs index)
include h

/-- There are as many entries in an index as there are chunks. -/
theorem sum_chunks : (index.values.map fun e => e.chunks.length).sum = runs.length := by
  have hlength := h.perm_entries.length_eq
  simpa only [List.length_flatMap, List.length_map, Run.length_inFile] using hlength

/-- The points of the series of an index are those of all runs. -/
theorem sum_pointsOf : (index.values.map fun e => (Run.pointsOf e.key runs).length).sum =
    (runs.map fun run => run.times.length).sum := by
  -- Runs are sorted by series; none is lost, as each is in the index.
  have hcovered (run : Run) (hr : run ∈ runs) : run.key ∈ index.keys := by
    have hne : Run.entriesOf run.key runs ≠ [] := by
      rw [Ne, ← Run.pointsOf_eq_nil_iff, Run.pointsOf, List.flatMap_eq_nil_iff]
      exact fun hnil => run.points_ne_nil
        (hnil run (List.mem_filter.2 ⟨hr, decide_eq_true rfl⟩))
    obtain ⟨e, he, -⟩ := h.present run.key hne
    exact SeriesTable.mem_keys_iff.2 ⟨e, he⟩
  -- So the runs, taken series by series, are the runs in another order.
  have hperm := (perm_flatMap_filter Run.key index.nodup_keys hcovered).flatMap_right Run.points
  have hlength := hperm.length_eq
  rw [List.flatMap_assoc, ← h.map_key_values, List.flatMap_map] at hlength
  simpa only [Run.pointsOf, List.length_flatMap, Run.length_points] using hlength

/-- The count of a series is the number of its points, wrapped around. -/
theorem count_eq {e : SeriesEntry} (he : e ∈ index.values) :
    e.statistics.count = UInt64.ofNat (Run.pointsOf e.key runs).length := by
  obtain ⟨schema, s, -, -, hs, hexact⟩ := h.exact_statistics he
  obtain ⟨hcount, -⟩ := Statistics.ofColumns?_iff.1 hs
  obtain ⟨hsame, -⟩ := ExactStatistics.mk.inj hexact
  rw [hsame, hcount, List.length_map]

/-- The counts of an index add up to the points of all runs, wrapped around. -/
theorem sum_count : (index.values.map fun e => e.statistics.count).sum =
    UInt64.ofNat (runs.map fun run => run.times.length).sum := by
  rw [← h.sum_pointsOf, ← sum_map_ofNat, List.map_map]
  exact congrArg List.sum (List.map_congr_left fun e he => h.count_eq he)

/-- As long as they fit, points are counted exactly. -/
theorem sum_count_toNat (hfits : (runs.map fun run => run.times.length).sum < 2 ^ 64) :
    (index.values.map fun e => e.statistics.count.toNat).sum =
      (runs.map fun run => run.times.length).sum := by
  rw [← h.sum_pointsOf] at hfits ⊢
  refine SeriesTable.sum_congr fun key e he => ?_
  -- Each count is one summand, and fits if the sum does.
  have hle := SeriesTable.le_sum he fun e => (Run.pointsOf e.key runs).length
  rw [h.count_eq (SeriesTable.mem_values_iff.2 ⟨key, he⟩),
    UInt64.toNat_ofNat_of_lt' (Nat.lt_of_le_of_lt hle hfits)]

end Indexed

/-- Flushing a buffer that has points ends with a chunk or a fault. -/
theorem Buffer.flush_ne_none {σ : Type} [Sink σ] {b : Buffer} (hfilled : b.isEmpty = false)
    (hparallel : b.times.length = b.column.length) {measurement : String} {stream : Stream σ} :
    (b.flush measurement stream).1 ≠ .ok none := by
  have htimes : b.times ≠ [] := fun hnil => by simp [isEmpty, hnil] at hfilled
  rcases hput : stream.appendChunk measurement b.schema b.times b.column with ⟨answer, after⟩
  simp only [flush, hfilled, hput, Bool.false_eq_true, if_false]
  rcases answer with fault | _ | entry
  · intro h
    contradiction
  · exact absurd (Stream.appendChunk_none hput) (Chunk.build_ne_none htimes hparallel)
  · intro h
    have hnone : some entry = none := Except.ok.inj h
    contradiction

namespace Writer

variable {σ : Type} [Sink σ]

/-- What an open writer counts is what it has, in its buffers, its index and its file. -/
structure Conserved (sink : σ) (w : Writer σ) : Prop where
  bufferedBytes : w.bufferedBytes = (w.buffers.values.map Buffer.rawBytes).sum
  rawBytes : ∀ key b, w.buffers.find? key = some b →
    b.rawBytes = (b.points.map fun p => 8 + p.value.rawSize).sum
  /-- What is counted off when a buffer is flushed has been counted. -/
  covered : ∀ key b, w.buffers.find? key = some b → b.rawBytes ≤ w.bufferedBytes
  /-- Flushing a buffer that has points does not end without a chunk. -/
  flushes : ∀ key b, w.buffers.find? key = some b → b.isEmpty = false →
    ∀ measurement (stream : Stream σ), (b.flush measurement stream).1 ≠ .ok none
  pointsWritten : UInt64.ofNat w.pointsWritten =
    (w.index.values.map fun e => e.statistics.count).sum +
      UInt64.ofNat (w.buffers.values.map fun b => b.points.length).sum
  pointsWritten_exact : w.pointsWritten < 2 ^ 64 → w.pointsWritten =
    (w.index.values.map fun e => e.statistics.count.toNat).sum +
      (w.buffers.values.map fun b => b.points.length).sum
  chunksFlushed : w.chunksFlushed = (w.index.values.map fun e => e.chunks.length).sum
  /-- The chunks can be counted in the file as far as it goes. -/
  inFile : w.registry.NamesFit → ∃ bytes,
    Sink.accepted w.output.sink = Sink.accepted sink ++ bytes ∧
      w.chunksFlushed = (BodyItem.chunksOf bytes).length

/-- What a writer counts when it is closed is what its file has. -/
structure CountsFile (w : Writer σ) (d : Document) : Prop where
  bufferedBytes : w.bufferedBytes = 0
  pointsWritten : UInt64.ofNat w.pointsWritten =
    (d.footer.series.map fun e => e.statistics.count).sum
  pointsWritten_exact : w.pointsWritten < 2 ^ 64 →
    w.pointsWritten = (d.footer.series.map fun e => e.statistics.count.toNat).sum
  chunksFlushed : w.chunksFlushed = d.footer.chunkCount

variable {o : Opening σ} {w w' : Writer σ} {runs : List Run} {ledger : Ledger}

namespace Holds

variable {state : WriterState} (h : Holds o state runs ledger w)
include h

/-- A buffer counts the points that can be read from it. -/
theorem sum_length : (w.buffers.values.map Buffer.length).sum =
    (w.buffers.values.map fun b => b.points.length).sum := by
  refine SeriesTable.sum_congr fun key b hb => ?_
  obtain ⟨_, _, -, -, hkeeps⟩ := h.keeps_buffer hb
  exact hkeeps.length_points.symm

/-- What is held is what is counted. -/
theorem counts : Conserved o.sink w where
  bufferedBytes := h.tallies.bytes
  rawBytes key b hb := h.rawBytes_eq hb
  covered key b hb := h.tallies.rawBytes_le hb
  flushes key b hb hfilled measurement stream := by
    obtain ⟨_, _, -, -, hkeeps⟩ := h.keeps_buffer hb
    exact Buffer.flush_ne_none hfilled hkeeps.parallel
  pointsWritten := by
    rw [h.tallies.points, h.sum_length, UInt64.ofNat_add, h.indexed.sum_count]
  pointsWritten_exact hfits := by
    rw [h.tallies.points] at hfits
    rw [h.tallies.points, h.sum_length, h.indexed.sum_count_toNat (by omega)]
  chunksFlushed := by rw [h.tallies.chunks, h.indexed.sum_chunks]
  inFile hn := by
    refine ⟨_, h.wrote.took, ?_⟩
    rw [h.registry_eq] at hn
    rw [Run.chunksOf_layout (h.sound hn), List.length_map, h.tallies.chunks]

end Holds

variable [Logarithm]

/-- What was counted up to the sealing is what the footer has. -/
theorem SealedFrom.countsFile (h : SealedFrom o runs ledger w w') {d : Document}
    (hd : d.footer = Footer.build o.registry w.index.values o.options.bloomRateBits) :
    CountsFile w' d := by
  obtain ⟨hbytes, hpoints, hchunks⟩ := h.counts
  have htallies := h.holds.tallies
  have hindexed := h.holds.indexed
  -- Nothing is left in the buffers, so all points are in runs.
  have hzero : (w.buffers.values.map Buffer.length).sum = 0 := by
    refine SeriesTable.sum_eq_zero fun key b hb => ?_
    rw [Buffer.length, List.isEmpty_iff.1 (isEmpty_of_not_filled (h.empty key) hb)]
    rfl
  have hwritten : w'.pointsWritten = (runs.map fun run => run.times.length).sum := by
    rw [hpoints, htallies.points, hzero, Nat.add_zero]
  have hseries : d.footer.series = w.index.values := by
    rw [hd]
    rfl
  refine ⟨?_, ?_, fun hfits => ?_, ?_⟩
  · rw [hbytes, h.holds.bufferedBytes_eq_zero h.empty]
  · rw [hwritten, hseries, hindexed.sum_count]
  · rw [hwritten] at hfits
    rw [hwritten, hseries, hindexed.sum_count_toNat hfits]
  · rw [hchunks, htallies.chunks, Footer.chunkCount, hseries, hindexed.sum_chunks]

/-- Whatever an open writer was asked for, what it counts is what it has; and if it can then be
closed, what it has counted is what is in the file. -/
theorem conserved {sink : σ} {registry : Registry} {options : Options} {opened : Writer σ}
    (hstart : start sink registry options = .ok opened) (ops : List Operation) :
    ((opened.after ops).state = .active → Conserved sink (opened.after ops)) ∧
      ∀ closed, close (opened.after ops) = .ok () closed → ∃ bytes d,
        Sink.accepted closed.output.sink = Sink.accepted sink ++ bytes ∧
          Document.parse bytes = .ok d ∧ CountsFile closed d := by
  refine ⟨fun hactive => ?_, fun closed hclose => ?_⟩
  · obtain ⟨-, runs, h⟩ := (start_ok hstart).performAll hactive
    exact h.counts
  · obtain ⟨-, runs, h⟩ := (start_ok hstart).performAll (active_of_close hclose)
    obtain ⟨-, -, runs', w, hfrom⟩ := h.close_ends.of_ok hclose
    obtain ⟨d, hd, hfooter, -⟩ := hfrom.sealed.parse
    exact ⟨_, d, hfrom.took, hd, hfrom.countsFile hfooter⟩

end Writer

end

section

attribute [local instance] sampleLogarithm

/-- The sample before and after it is closed. -/
theorem conserved_sample : ∃ opened closed : Writer MemorySink,
    Writer.start MemorySink.unlimited sampleRegistry sampleOptions = .ok opened ∧
      Writer.close (opened.after sampleOperations) = .ok () closed ∧
      Writer.Conserved MemorySink.unlimited (opened.after sampleOperations) ∧
      ∃ bytes d, Sink.accepted closed.output.sink = Sink.accepted MemorySink.unlimited ++ bytes ∧
        Document.parse bytes = .ok d ∧ closed.CountsFile d := by
  obtain ⟨opened, closed, hstart, hclose⟩ := Writer.exists_of_closes sample_closes
  obtain ⟨hopen, hclosed⟩ := Writer.conserved hstart sampleOperations
  exact ⟨opened, closed, hstart, hclose, hopen (Writer.active_of_close hclose),
    hclosed closed hclose⟩

end

end SeriesFile
