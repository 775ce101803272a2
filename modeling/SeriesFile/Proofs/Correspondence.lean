import Mathlib.Data.List.Forall2
import SeriesFile.Proofs.RoundTrip

/-!
# Footer and body of a closed file

The footer and the body of a closed file speak of the same chunks. Every entry of the footer stands
for one chunk of the body and tells the truth about it (`Document.Describes`), every chunk has an
entry, and the entries of a series are in the order of the file (`close_corresponds`).
-/

namespace SeriesFile

/-- The entries of all chunks, each with its series. -/
def Footer.entries (f : Footer) : List (SeriesKey × ChunkEntry) :=
  f.series.flatMap fun e => e.chunks.map fun c => (e.key, c)

/-- An entry of the footer tells the truth about a chunk of the file. -/
structure Document.Describes (d : Document) (file : Bytes) (registry : Registry)
    (entry : SeriesKey × ChunkEntry) (placed : PlacedChunk) : Prop where
  offset_eq : entry.2.offset.toNat = placed.offset
  marker : file[placed.offset]? = some Frame.chunkMarker
  grouped : ∃ g ∈ d.groups, g.device = entry.1.device ∧ placed ∈ g.chunks
  measurement_eq : placed.chunk.header.measurement = entry.1.measurement
  schema_eq : registry.find? entry.1 = some placed.chunk.header.schema
  statistics_eq : placed.chunk.header.statistics = entry.2.statistics
  decodes : ∃ times column, placed.chunk.decode = .ok (times, column) ∧
    Statistics.ofColumns? times column = some entry.2.statistics ∧
    times.length = placed.chunk.header.pointCount.toNat ∧
    times.length = entry.2.statistics.count.toNat ∧ times.length = column.length

/-- The entries of the footer and the chunks of the body of a file correspond one to one, and the
entries of a series are in the order of the file. -/
structure Document.Corresponds (d : Document) (file : Bytes) (registry : Registry) : Prop where
  describes : ∃ entries, entries.Perm d.footer.entries ∧
    List.Forall₂ (d.Describes file registry) entries d.chunks
  ascends : d.chunks.Pairwise fun a b => a.offset < b.offset
  inOrder : ∀ e ∈ d.footer.series, e.chunks.Pairwise fun a b => a.offset < b.offset

section

variable [Compressor]

namespace Run

/-- The number of points of a run, as its statistics give it. -/
theorem count_eq (run : Run) : run.times.length = run.statistics.count.toNat := by
  obtain ⟨-, hcount, -⟩ := Statistics.ofColumns?_eq_some run.statistics_eq
  -- The header states the number in 32 bits, so it fits the statistics.
  have hlt : run.times.length < 2 ^ 64 := by
    rw [← run.pointCount_eq]
    exact Nat.lt_trans run.chunk.header.pointCount.toNat_lt (by decide)
  rw [hcount, UInt64.toNat_ofNat_of_lt' hlt]

end Run

variable [Logarithm] {registry : Registry} {rateBits : UInt64} {runs : List Run}
  {index : SeriesTable SeriesEntry} {d : Document}

/-- There is a marker where a chunk was placed. -/
theorem marker_sealedImage {placed : Nat × Run} (hp : placed ∈ Run.inFile runs) :
    (sealedImage registry rateBits runs index).file[placed.1]? = some Frame.chunkMarker := by
  obtain ⟨before, behind, hplace, hwrite⟩ := Run.write_of_mem_place hp
  -- The file is cut in front of the chunk, which begins with its marker.
  have hfile : (sealedImage registry rateBits runs index).file =
      (Frame.head ++ before) ++ (placed.2.chunk.write ++ (behind ++
        ((sealedImage registry rateBits runs index).footer.write ++
          (sealedImage registry rateBits runs index).tail.write))) := by
    have hitems : (sealedImage registry rateBits runs index).items = Run.layout none runs := rfl
    rw [Image.file, Image.covered, hitems, hwrite]
    simp only [List.append_assoc]
  have hlength : placed.1 = (Frame.head ++ before).length := by
    rw [hplace, List.length_append]
    rfl
  rw [hfile, hlength, List.getElem?_append_right (Nat.le_refl _), Nat.sub_self]
  rfl

namespace Sealed

variable (h : Sealed registry rateBits runs index)
include h

/-- The entry of a run describes its chunk. -/
theorem describes (hlocated : d.located = (Run.inFile runs).map fun placed =>
      (placed.2.key.device, ⟨placed.1, placed.2.chunk⟩)) {placed : Nat × Run}
    (hp : placed ∈ Run.inFile runs) :
    d.Describes (sealedImage registry rateBits runs index).file registry
      (placed.2.key, Run.entry placed) ⟨placed.1, placed.2.chunk⟩ where
  offset_eq := UInt64.toNat_ofNat_of_lt' (h.place_lt hp)
  marker := marker_sealedImage hp
  grouped := by
    -- The chunk is located in some group of the device.
    have hmem : (placed.2.key.device, ⟨placed.1, placed.2.chunk⟩) ∈ d.located := by
      rw [hlocated]
      exact List.mem_map_of_mem hp
    obtain ⟨g, hg, hplaced⟩ := List.mem_flatMap.1 hmem
    obtain ⟨other, ho, heq⟩ := List.mem_map.1 hplaced
    obtain ⟨hdevice, rfl⟩ := Prod.mk.inj heq
    exact ⟨g, hg, hdevice, ho⟩
  measurement_eq := placed.2.measurement_eq
  schema_eq := by
    rw [placed.2.schema_eq]
    exact h.indexed.schemas placed.2 (Run.mem_of_mem_inFile hp)
  statistics_eq := rfl
  decodes := ⟨_, _, placed.2.decode, placed.2.statistics_eq, placed.2.pointCount_eq.symm,
    placed.2.count_eq, placed.2.length_column⟩

/-- The entries of a series are in the order of the file. -/
theorem ascends_entriesOf (key : SeriesKey) :
    (Run.entriesOf key runs).Pairwise fun a b => a.offset < b.offset := by
  -- Places below 2 ^ 64 are in the same order as the offsets that stand for them.
  have hascends := (Run.place_ascends none Frame.headSize runs).filter fun placed =>
    placed.2.key = key
  refine List.pairwise_map.2 (hascends.imp_of_mem fun {a b} ha hb hlt => ?_)
  have ha := h.place_lt (List.mem_filter.1 ha).1
  have hb := h.place_lt (List.mem_filter.1 hb).1
  rw [UInt64.lt_iff_toNat_lt, Run.entry, Run.entry, UInt64.toNat_ofNat_of_lt' ha,
    UInt64.toNat_ofNat_of_lt' hb]
  exact hlt

/-- Footer and body of a sealed file correspond. -/
theorem corresponds (hfooter : d.footer = Footer.build registry index.values rateBits)
    (hlocated : d.located = (Run.inFile runs).map fun placed =>
      (placed.2.key.device, ⟨placed.1, placed.2.chunk⟩)) :
    d.Corresponds (sealedImage registry rateBits runs index).file registry := by
  have hchunks := Document.chunks_of_located hlocated
  refine ⟨⟨(Run.inFile runs).map fun placed => (placed.2.key, Run.entry placed), ?_, ?_⟩, ?_, ?_⟩
  · rw [hfooter]
    exact h.indexed.perm_entries.symm
  · rw [hchunks, List.forall₂_map_left_iff, List.forall₂_map_right_iff, List.forall₂_same]
    intro placed hp
    exact h.describes hlocated hp
  · rw [hchunks]
    exact List.pairwise_map.2 (Run.place_ascends none Frame.headSize runs)
  · intro e he
    rw [hfooter] at he
    rw [(h.indexed.lists_of_mem_values he).chunks_eq]
    exact h.ascends_entriesOf e.key

end Sealed

/-! ### Closed files -/

namespace Writer

/-- The footer and the body of a closed file correspond. -/
theorem close_corresponds {σ : Type} [Sink σ] {sink : σ} {options : Options}
    {ops : List Operation} {opened closed : Writer σ}
    (hstart : start sink registry options = .ok opened)
    (hclose : close (opened.after ops) = .ok () closed) :
    ∃ bytes d, Sink.accepted closed.output.sink = Sink.accepted sink ++ bytes ∧
      Document.parse bytes = .ok d ∧ d.Corresponds bytes registry := by
  obtain ⟨-, hkeeps⟩ := (start_ok hstart).performAll (active_of_close hclose)
  obtain ⟨-, -, bytes, ⟨runs, index, hsealed, -, rfl⟩, htook⟩ := hkeeps.close_ends.of_ok hclose
  obtain ⟨d, hd, hfooter, hlocated⟩ := hsealed.parse
  exact ⟨_, d, htook, hd, hsealed.corresponds hfooter hlocated⟩

end Writer

end

section

attribute [local instance] sampleLogarithm

/-- Of the sample every entry has its chunk, and every chunk its entry. -/
theorem close_corresponds_sample : ∃ opened closed : Writer MemorySink,
    Writer.start MemorySink.unlimited sampleRegistry sampleOptions = .ok opened ∧
      Writer.close (opened.after sampleOperations) = .ok () closed ∧
      ∃ bytes d, Sink.accepted closed.output.sink = Sink.accepted MemorySink.unlimited ++ bytes ∧
        Document.parse bytes = .ok d ∧ d.Corresponds bytes sampleRegistry := by
  obtain ⟨opened, closed, hstart, hclose⟩ := Writer.exists_of_closes sample_closes
  exact ⟨opened, closed, hstart, hclose, Writer.close_corresponds hstart hclose⟩

end

end SeriesFile
