import SeriesFile.Proofs.Closing

/-!
# What is read from a closed file

A writer that is still open after some operations has answered all of them as the ledger does, and
holds the ledger (`Keeps.performAll`). If it can then be closed, its file holds the points of the
ledger, and reading finds them again (`close_roundTrip`).
-/

namespace SeriesFile

section

variable {σ : Type} [Sink σ] [Compressor] [Logarithm] {o : Opening σ} {ledger : Ledger}

namespace Writer

variable {w : Writer σ}

/-- As long as a writer is open it answers as the ledger does and holds what the ledger says. -/
theorem Keeps.performAll (h : Keeps o .active ledger w) {ops : List Operation}
    (hactive : (w.after ops).state = .active) :
    (w.performAll ops).1 = (ledger.performAll ops).1 ∧
      Keeps o .active (ledger.performAll ops).2 (w.after ops) := by
  induction ops generalizing ledger w with
  | nil => exact ⟨rfl, h⟩
  | cons op ops ih =>
    -- A writer that ends up open was open after this operation already: the other outcomes are
    -- final.
    have hopen : (w.perform op).2.state.isTerminal ≠ true := by
      intro hterminal
      rw [after_cons, after_terminal hterminal] at hactive
      rw [hactive] at hterminal
      contradiction
    cases h.outcome op with
    | kept _ answer keeps =>
      obtain ⟨hanswers, hkeeps⟩ := ih keeps hactive
      exact ⟨congrArg₂ List.cons answer hanswers, hkeeps⟩
    | lost _ lost =>
      rw [lost.aborted] at hopen
      contradiction
    | finished _ _ terminal _ => exact absurd terminal hopen

end Writer

namespace Document

/-- A document holds the points of a ledger: under every series that has points, and under no
other. -/
structure HoldsPoints (d : Document) (registry : Registry) (ledger : Ledger) : Prop where
  schemas : d.footer.schemas = registry
  series : d.footer.series.map SeriesEntry.key =
    registry.keys.filter fun key => !(ledger.points key).isEmpty
  points : ∀ key, ledger.points key ≠ [] → d.points? key = some (ledger.points key)
  absent : ∀ key, ledger.points key = [] → d.points? key = none

end Document

omit [Sink σ] in
/-- A complete file is parsed, and its document holds the points that the file was made of. -/
theorem Writer.File.parse {bytes : Bytes} (h : File o ledger bytes) :
    ∃ d, Document.parse bytes = .ok d ∧ d.HoldsPoints o.registry ledger := by
  obtain ⟨runs, index, hsealed, hpoints, rfl⟩ := h
  obtain ⟨d, hd, hfooter, hlocated⟩ := hsealed.parse
  have hseries : d.footer.series.map SeriesEntry.key =
      o.registry.keys.filter fun key => !(ledger.points key).isEmpty := by
    rw [hfooter]
    simp only [hpoints]
    exact hsealed.keys_series
  refine ⟨d, hd, ?_, hseries, ?_, ?_⟩
  · rw [hfooter]
    rfl
  · intro key hkey
    -- The runs of a series with points are found through its entry in the footer.
    rw [hpoints] at hkey ⊢
    exact hsealed.points?_eq hfooter hlocated hkey
  · intro key hkey
    -- A series without points has no entry.
    have hnone : d.footer.find? key = none := by
      rw [hpoints] at hkey
      rw [hfooter]
      exact hsealed.find?_eq_none hkey
    rw [Document.points?, hnone]
    rfl

namespace Writer

variable {sink : σ} {registry : Registry} {options : Options} {ops : List Operation}
  {opened closed : Writer σ}

/-- Only an open writer can be closed. -/
theorem active_of_close {w : Writer σ} (h : close w = .ok () closed) : w.state = .active := by
  rcases hs : w.state with _ | _ | _ | _
  · rfl
  all_goals
    simp only [close, hs] at h
    contradiction

/-- Whatever a writer was asked for before it was closed, it answered as the ledger does, and from
its file the points of the ledger are read. -/
theorem close_roundTrip (hstart : start sink registry options = .ok opened)
    (hclose : close (opened.after ops) = .ok () closed) :
    (opened.performAll ops).1 = ((Ledger.new registry).performAll ops).1 ∧
      ∃ bytes d, Sink.accepted closed.output.sink = Sink.accepted sink ++ bytes ∧
        Document.parse bytes = .ok d ∧
        d.HoldsPoints registry ((Ledger.new registry).performAll ops).2 := by
  obtain ⟨hanswers, hkeeps⟩ := (start_ok hstart).performAll (active_of_close hclose)
  -- Closing an open writer that succeeds leaves a complete file of the ledger.
  obtain ⟨-, -, bytes, hfile, htook⟩ := hkeeps.close_ends.of_ok hclose
  obtain ⟨d, hd, hholds⟩ := hfile.parse
  exact ⟨hanswers, bytes, d, htook, hd, hholds⟩

/-- Whether a writer can be opened, and closed after some operations. -/
def closes (sink : σ) (registry : Registry) (options : Options) (ops : List Operation) : Bool :=
  match start sink registry options with
  | .error _ => false
  | .ok opened =>
    match close (opened.after ops) with
    | .error _ _ => false
    | .ok _ _ => true

/-- What `closes` computes is that both writers exist, the one that is opened and the one that is
closed. -/
theorem exists_of_closes (h : closes sink registry options ops = true) :
    ∃ opened closed, start sink registry options = .ok opened ∧
      close (opened.after ops) = .ok () closed := by
  unfold closes at h
  split at h
  · contradiction
  · rename_i opened hstart
    split at h
    · contradiction
    · rename_i closed hclose
      exact ⟨opened, closed, hstart, hclose⟩

end Writer

end

/-! ### A sample -/

section

/-- The logarithm of one twentieth, the only one that is asked for by default. -/
local instance sampleLogarithm : Logarithm := ⟨fun _ => Float.ofBits 0xC007F7427B73E391⟩

/-- Three series on two devices. -/
def sampleRegistry : Registry :=
  ((SeriesTable.empty.insert ⟨"root.a", "t"⟩ ⟨.int32, .ts2diff, .gzip⟩).insert ⟨"root.a", "n"⟩
    ⟨.text, .plain, .uncompressed⟩).insert ⟨"root.b", "v"⟩ ⟨.double, .gorilla, .snappy⟩

/-- The names of the sample are short enough for a footer. -/
theorem namesFit_sampleRegistry : sampleRegistry.NamesFit := by
  unfold Registry.NamesFit
  decide +kernel

/-- Every second point of a series fills a chunk. -/
def sampleOptions : Options :=
  Options.withMaxChunkPoints {} 2

/-- Points and records, some of which are refused, and chunks that are full or flushed. -/
def sampleOperations : List Operation := [
  .write ⟨"root.a", "t"⟩ 1 (.int32 7),
  .write ⟨"root.a", "t"⟩ 1 (.int32 8),
  .write ⟨"root.c", "t"⟩ 1 (.int32 8),
  .writeRecord "root.a" 2 [("t", .int32 (-3)), ("n", .text "TsFile")],
  .writeRecord "root.a" 3 [("t", .int32 4), ("t", .int32 5)],
  .flush,
  .write ⟨"root.b", "v"⟩ (-5) (.double 0x400921FB54442D18),
  .write ⟨"root.a", "t"⟩ 9 (.int32 1)]

/-- The sample is opened, and closed in the end. -/
theorem sample_closes :
    Writer.closes MemorySink.unlimited sampleRegistry sampleOptions sampleOperations = true := by
  decide +kernel

/-- The sample answers as its ledger does, two refusals and a refused record among the answers, and
its points are read from the file. -/
theorem close_roundTrip_sample : ∃ opened closed : Writer MemorySink,
    Writer.start MemorySink.unlimited sampleRegistry sampleOptions = .ok opened ∧
      Writer.close (opened.after sampleOperations) = .ok () closed ∧
      (opened.performAll sampleOperations).1 =
        ((Ledger.new sampleRegistry).performAll sampleOperations).1 ∧
      ∃ bytes d, Sink.accepted closed.output.sink = Sink.accepted MemorySink.unlimited ++ bytes ∧
        Document.parse bytes = .ok d ∧
        d.HoldsPoints sampleRegistry
          ((Ledger.new sampleRegistry).performAll sampleOperations).2 := by
  obtain ⟨opened, closed, hstart, hclose⟩ := Writer.exists_of_closes sample_closes
  exact ⟨opened, closed, hstart, hclose, Writer.close_roundTrip hstart hclose⟩

end

end SeriesFile
