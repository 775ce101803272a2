import SeriesFile.Proofs.Merging
import SeriesFile.Proofs.RoundTrip

/-!
# Flushing and content

The options of a writer and the flushes that a caller asks for decide how points are cut into
chunks, and nothing else. Two closed files to which the same points were offered have the same
content (`Document.SameContent`), however either was flushed, and the points had the same answers
(`close_sameContent`).

Both files are compared with the ledger, which knows of no flushes (`Ledger.performAll_unflushed`):
from a closed file its points are read, and the exact part of the statistics of a series is that of
the points of the ledger (`Document.Summarizes`).
-/

namespace SeriesFile

/-! ### Operations without flushes -/

namespace Operation

/-- Some operations without the flushes among them. -/
def unflushed (ops : List Operation) : List Operation :=
  ops.filter (· ≠ .flush)

/-- Operations with their answers, without the flushes among them. -/
def answered (ops : List Operation) (answers : List (Except Fault Unit)) :
    List (Operation × Except Fault Unit) :=
  (ops.zip answers).filter fun entry => entry.1 ≠ .flush

end Operation

/-- Without its flushes a ledger gives the same answers and is the same in the end. -/
theorem Ledger.performAll_unflushed (l : Ledger) (ops : List Operation) :
    Operation.answered ops (l.performAll ops).1 =
        (Operation.unflushed ops).zip (l.performAll (Operation.unflushed ops)).1 ∧
      (l.performAll ops).2 = (l.performAll (Operation.unflushed ops)).2 := by
  induction ops generalizing l with
  | nil => exact ⟨rfl, rfl⟩
  | cons op ops ih =>
    obtain ⟨hanswers, hledger⟩ := ih (l.perform op).2
    by_cases hflush : op = .flush
    · -- A flush leaves the ledger alone, and is left out of the answers.
      subst hflush
      exact ⟨hanswers, hledger⟩
    · have hunflushed : Operation.unflushed (op :: ops) = op :: Operation.unflushed ops :=
        List.filter_cons_of_pos (decide_eq_true hflush)
      have hanswered : Operation.answered (op :: ops) (l.performAll (op :: ops)).1 =
          (op, (l.perform op).1) :: Operation.answered ops ((l.perform op).2.performAll ops).1 :=
        List.filter_cons_of_pos (decide_eq_true hflush)
      rw [hunflushed, hanswered, hanswers]
      exact ⟨rfl, hledger⟩

/-! ### The content of a file -/

/-- A series, its type, and what of its statistics does not depend on how it was cut. -/
def SeriesEntry.summary (e : SeriesEntry) : SeriesKey × DataType × ExactStatistics :=
  (e.key, e.dataType, e.statistics.exact)

/-- What the points of a ledger have for the summary of a series. -/
def Ledger.summary? (l : Ledger) (registry : Registry) (key : SeriesKey) :
    Option (SeriesKey × DataType × ExactStatistics) := do
  let schema ← registry.find? key
  let statistics ← Statistics.ofPoints? schema.dataType (l.points key)
  return (key, schema.dataType, statistics.exact)

namespace Document

/-- Documents that differ only in how their series are cut into chunks. -/
structure SameContent (d d' : Document) : Prop where
  schemas : d.footer.schemas = d'.footer.schemas
  summaries : d.footer.series.map SeriesEntry.summary = d'.footer.series.map SeriesEntry.summary
  readable : ∀ e ∈ d.footer.series, (d.points? e.key).isSome
  points : ∀ key, d.points? key = d'.points? key

/-- The footer of a document gives the summaries of the points of a ledger. -/
def Summarizes (d : Document) (registry : Registry) (ledger : Ledger) : Prop :=
  ∀ e ∈ d.footer.series, ledger.summary? registry e.key = some e.summary

variable {d d' : Document} {registry : Registry} {ledger : Ledger}

/-- What is read of a series is its points, and nothing if there are none. -/
theorem HoldsPoints.points?_eq (h : d.HoldsPoints registry ledger) (key : SeriesKey) :
    d.points? key = if ledger.points key = [] then none else some (ledger.points key) := by
  split
  · rename_i hnil
    exact h.absent key hnil
  · rename_i hne
    exact h.points key hne

/-- A summary is told by its series, so summaries of the same series are the same. -/
theorem Summarizes.map_summary (h : d.Summarizes registry ledger) :
    (d.footer.series.map SeriesEntry.summary).map some =
      (d.footer.series.map SeriesEntry.key).map (ledger.summary? registry) := by
  rw [List.map_map, List.map_map]
  exact List.map_congr_left fun e he => (h e he).symm

/-- The points of a ledger are all that matters. -/
theorem HoldsPoints.sameContent (h : d.HoldsPoints registry ledger)
    (h' : d'.HoldsPoints registry ledger) (hs : d.Summarizes registry ledger)
    (hs' : d'.Summarizes registry ledger) : d.SameContent d' where
  schemas := h.schemas.trans h'.schemas.symm
  summaries := by
    apply List.map_injective_iff.2 (Option.some_injective _)
    rw [hs.map_summary, hs'.map_summary, h.series, h'.series]
  readable e he := by
    -- A series is listed because it has points, and those can be read.
    have hkey : e.key ∈ registry.keys.filter fun key => !(ledger.points key).isEmpty := by
      rw [← h.series]
      exact List.mem_map_of_mem he
    have hne : ledger.points e.key ≠ [] := by simpa using (List.mem_filter.1 hkey).2
    rw [h.points _ hne]
    rfl
  points key := by rw [h.points?_eq, h'.points?_eq]

end Document

/-! ### Closed files -/

section

variable [Compressor] [Logarithm]

/-- What is read from a complete file are the points of its ledger and their summaries. -/
theorem Writer.File.parse_summarizes {σ : Type} {o : Opening σ} {ledger : Ledger} {bytes : Bytes}
    (h : File o ledger bytes) :
    ∃ d, Document.parse bytes = .ok d ∧ d.HoldsPoints o.registry ledger ∧
      d.Summarizes o.registry ledger := by
  obtain ⟨d, hd, hholds⟩ := h.parse
  refine ⟨d, hd, hholds, fun e he => ?_⟩
  -- An entry is summarized from the points of its runs, which are those of the ledger.
  obtain ⟨runs, index, hsealed, hpoints, rfl⟩ := h
  obtain ⟨d', hd', hfooter, -⟩ := hsealed.parse
  obtain rfl := Except.ok.inj (hd.symm.trans hd')
  rw [hfooter] at he
  obtain ⟨schema, s, hschema, htype, hs, hexact⟩ := hsealed.indexed.exact_statistics he
  simp only [Ledger.summary?, hschema, hpoints, hs, Option.bind_eq_bind, Option.bind_some,
    Option.pure_def, SeriesEntry.summary, htype, hexact]

namespace Writer

variable {σ τ : Type} [Sink σ] [Sink τ] {sink : σ} {sink' : τ} {registry : Registry}
  {options options' : Options} {ops ops' : List Operation} {opened closed : Writer σ}
  {opened' closed' : Writer τ}

/-- A closed file has in it what its ledger knows, and the answers were those of the ledger. -/
theorem close_summarizes (hstart : start sink registry options = .ok opened)
    (hclose : close (opened.after ops) = .ok () closed) :
    (opened.performAll ops).1 = ((Ledger.new registry).performAll ops).1 ∧
      ∃ bytes d, Sink.accepted closed.output.sink = Sink.accepted sink ++ bytes ∧
        Document.parse bytes = .ok d ∧
        d.HoldsPoints registry ((Ledger.new registry).performAll ops).2 ∧
        d.Summarizes registry ((Ledger.new registry).performAll ops).2 := by
  obtain ⟨hanswers, hkeeps⟩ := (start_ok hstart).performAll (active_of_close hclose)
  obtain ⟨-, -, bytes, hfile, htook⟩ := hkeeps.close_ends.of_ok hclose
  obtain ⟨d, hd, hholds, hsummarizes⟩ := hfile.parse_summarizes
  exact ⟨hanswers, bytes, d, htook, hd, hholds, hsummarizes⟩

/-- However two writers are set up and flushed: if they are offered the same points and both are
closed, then the points had the same answers and the files have the same content. -/
theorem close_sameContent (hops : Operation.unflushed ops = Operation.unflushed ops')
    (hstart : start sink registry options = .ok opened)
    (hclose : close (opened.after ops) = .ok () closed)
    (hstart' : start sink' registry options' = .ok opened')
    (hclose' : close (opened'.after ops') = .ok () closed') :
    Operation.answered ops (opened.performAll ops).1 =
        Operation.answered ops' (opened'.performAll ops').1 ∧
      ∃ bytes bytes' d d', Sink.accepted closed.output.sink = Sink.accepted sink ++ bytes ∧
        Sink.accepted closed'.output.sink = Sink.accepted sink' ++ bytes' ∧
        Document.parse bytes = .ok d ∧ Document.parse bytes' = .ok d' ∧ d.SameContent d' := by
  obtain ⟨hanswers, bytes, d, htook, hd, hholds, hsum⟩ := close_summarizes hstart hclose
  obtain ⟨hanswers', bytes', d', htook', hd', hholds', hsum'⟩ := close_summarizes hstart' hclose'
  obtain ⟨hsame, hledger⟩ := (Ledger.new registry).performAll_unflushed ops
  obtain ⟨hsame', hledger'⟩ := (Ledger.new registry).performAll_unflushed ops'
  -- Both ledgers are the one without flushes.
  rw [hledger, hops, ← hledger'] at hholds hsum
  refine ⟨?_, bytes, bytes', d, d', htook, htook', hd, hd',
    hholds.sameContent hholds' hsum hsum'⟩
  rw [hanswers, hanswers', hsame, hsame', hops]

end Writer

end

section

attribute [local instance] sampleLogarithm

/-- Nothing is kept in memory. -/
def sampleEagerOptions : Options where
  maxBufferedBytes := 0
  pressurePolicy := .flushAll

/-- With nothing kept in memory the sample is closed as well. -/
theorem sample_closes_eager : Writer.closes MemorySink.unlimited sampleRegistry sampleEagerOptions
    (.flush :: Operation.unflushed sampleOperations) = true := by
  decide +kernel

/-- Chunks of two points, and chunks of single points that are written at once. -/
theorem close_sameContent_sample : ∃ opened closed opened' closed' : Writer MemorySink,
    Operation.unflushed sampleOperations =
        Operation.unflushed (.flush :: Operation.unflushed sampleOperations) ∧
      Writer.start MemorySink.unlimited sampleRegistry sampleOptions = .ok opened ∧
      Writer.close (opened.after sampleOperations) = .ok () closed ∧
      Writer.start MemorySink.unlimited sampleRegistry sampleEagerOptions = .ok opened' ∧
      Writer.close (opened'.after (.flush :: Operation.unflushed sampleOperations)) =
        .ok () closed' ∧
      Operation.answered sampleOperations (opened.performAll sampleOperations).1 =
        Operation.answered (.flush :: Operation.unflushed sampleOperations)
          (opened'.performAll (.flush :: Operation.unflushed sampleOperations)).1 ∧
      ∃ bytes bytes' d d',
        Sink.accepted closed.output.sink = Sink.accepted MemorySink.unlimited ++ bytes ∧
        Sink.accepted closed'.output.sink = Sink.accepted MemorySink.unlimited ++ bytes' ∧
        Document.parse bytes = .ok d ∧ Document.parse bytes' = .ok d' ∧ d.SameContent d' := by
  have hops : Operation.unflushed sampleOperations =
      Operation.unflushed (.flush :: Operation.unflushed sampleOperations) := by decide
  obtain ⟨opened, closed, hstart, hclose⟩ := Writer.exists_of_closes sample_closes
  obtain ⟨opened', closed', hstart', hclose'⟩ := Writer.exists_of_closes sample_closes_eager
  exact ⟨opened, closed, opened', closed', hops, hstart, hclose, hstart', hclose',
    Writer.close_sameContent hops hstart hclose hstart' hclose'⟩

end

end SeriesFile
