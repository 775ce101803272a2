import SeriesFile.Proofs.RoundTrip

/-!
# What is read before a file is complete

Until the sink has taken the last byte of the tail, what it took cannot be read as a file: not after
any operations, nor at any moment during them, whatever names and texts were written
(`parse_iff_seals`). So a file can be read exactly if one of the operations was a close that got the
tail to its end (`Seals`).

That close may still fail, when the sink refuses to pass on what it took. Then the writer is given
up, but the file is complete and can be read (`close_error_parse_iff`).
-/

namespace SeriesFile

section

variable {σ : Type} [Sink σ] [Compressor] [Logarithm] {o : Opening σ} {ledger : Ledger}

namespace Writer

variable {w : Writer σ} {ops : List Operation}

/-- One of some operations closes the writer and gets the last byte of the tail into its sink. -/
inductive Seals : Writer σ → List Operation → Prop
  | close {w : Writer σ} {ops : List Operation} (active : w.state = .active)
      (completes : w.Completes) : Seals w (.close :: ops)
  | later {w : Writer σ} {op : Operation} {ops : List Operation}
      (seals : Seals (w.perform op).2 ops) : Seals w (op :: ops)

/-- A retired writer seals nothing: it is not open, and stays as it is. -/
theorem not_seals_of_terminal (h : w.state.isTerminal = true) (ops : List Operation) :
    ¬Seals w ops := by
  intro hs
  induction hs with
  | close active _ =>
    rw [active] at h
    contradiction
  | later _ ih =>
    rw [perform_terminal h] at ih
    exact ih h

/-- A writer that was open has a torn file unless it was sealed, and else a complete one. -/
theorem Keeps.torn_or_finished (h : Keeps o .active ledger w) (ops : List Operation) :
    ¬Seals w ops ∧
      (∃ bytes, (w.after ops).Took o bytes ∧ (o.registry.NamesFit → Unfinished bytes)) ∨
    Seals w ops ∧ ∃ ledger, Finished o ledger (w.after ops) := by
  induction ops generalizing w ledger with
  | nil =>
    -- Without operations there is no more than a body.
    obtain ⟨runs, h⟩ := h
    exact .inl ⟨nofun, (h.torn_body rfl rfl).unfinished⟩
  | cons op ops ih =>
    have hopen := h.state_eq
    rw [after_cons]
    cases h.outcome op with
    | kept incomplete _ keeps =>
      rcases ih keeps with ⟨hseals, htorn⟩ | ⟨hseals, hfinished⟩
      · refine .inl ⟨?_, htorn⟩
        intro hs
        cases hs with
        | close => exact incomplete rfl
        | later seals => exact hseals seals
      · exact .inr ⟨.later hseals, hfinished⟩
    | lost incomplete lost =>
      have hterminal := isTerminal_of_aborted lost.aborted
      rw [after_terminal hterminal]
      refine .inl ⟨?_, lost.unfinished⟩
      intro hs
      cases hs with
      | close _ completes => exact incomplete rfl completes
      | later seals => exact not_seals_of_terminal hterminal ops seals
    | finished closes completes terminal finished =>
      subst closes
      rw [after_terminal terminal]
      exact .inr ⟨.close hopen completes, ledger, finished⟩

omit [Sink σ] in
/-- Fronts of a file that are not all of it cannot be read. -/
theorem File.parse_front {bytes front : Bytes} (h : File o ledger bytes) (hf : front <+: bytes) :
    (∃ d, Document.parse front = .ok d) ↔ front = bytes := by
  constructor
  · rintro ⟨d, hd⟩
    by_contra hne
    obtain ⟨runs, index, hsealed, -, rfl⟩ := h
    exact Image.parse_front hsealed.sound hf hne d hd
  · rintro rfl
    obtain ⟨d, hd, -⟩ := h.parse
    exact ⟨d, hd⟩

/-! ### Sinks -/

/-- The sink after a writer was opened on it and asked for some operations. -/
def sinkAfter (sink : σ) (registry : Registry) (options : Options) (ops : List Operation) : σ :=
  match start sink registry options with
  | .error (_, sink) => sink
  | .ok opened => (opened.after ops).output.sink

/-- The writer could be opened, and one of the operations got the last byte of the tail into the
sink. -/
def SealsFrom (sink : σ) (registry : Registry) (options : Options) (ops : List Operation) : Prop :=
  ∃ opened, start sink registry options = .ok opened ∧ Seals opened ops

/-- Of all that a sink takes from a writer, a front can be read as a file only if it is all of it,
and then exactly if the tail got into the sink to its last byte. -/
theorem parse_iff_seals {registry : Registry} (hn : registry.NamesFit) (sink : σ)
    (options : Options) (ops : List Operation) :
    ∃ bytes, Sink.accepted (sinkAfter sink registry options ops) = Sink.accepted sink ++ bytes ∧
      ∀ front, front <+: bytes →
        ((∃ d, Document.parse front = .ok d) ↔
          front = bytes ∧ SealsFrom sink registry options ops) := by
  -- Of what is not finished no front can be read, and then nothing was sealed.
  have hunfinished {bytes : Bytes} (hu : Unfinished bytes)
      (hs : ¬SealsFrom sink registry options ops) (front : Bytes) (hf : front <+: bytes) :
      (∃ d, Document.parse front = .ok d) ↔ front = bytes ∧ SealsFrom sink registry options ops :=
    ⟨fun ⟨d, hd⟩ => absurd hd ((hu.of_front hf).parse d), fun h => absurd h.2 hs⟩
  rw [sinkAfter]
  split
  · rename_i fault sink' hstart
    obtain ⟨bytes, htook, hu⟩ := start_error hstart
    refine ⟨bytes, htook, hunfinished hu ?_⟩
    -- A writer that could not be opened seals nothing.
    rintro ⟨opened, hopened, -⟩
    rw [hstart] at hopened
    contradiction
  · rename_i opened hstart
    rcases (start_ok hstart).torn_or_finished ops with
      ⟨hseals, bytes, htook, hu⟩ | ⟨hseals, ledger, bytes, hfile, htook⟩
    · refine ⟨bytes, htook, hunfinished (hu hn) ?_⟩
      rintro ⟨other, hother, hs⟩
      obtain rfl := Except.ok.inj (hstart.symm.trans hother)
      exact hseals hs
    · refine ⟨bytes, htook, fun front hf => (hfile.parse_front hf).trans ?_⟩
      exact ⟨fun h => ⟨h, opened, hstart, hseals⟩, fun h => h.1⟩

end Writer

end

/-- The sample and its close, of which a single front can be read. -/
theorem parse_iff_seals_sample : sampleRegistry.NamesFit ∧
    ∃ bytes, Sink.accepted (Writer.sinkAfter MemorySink.unlimited sampleRegistry sampleOptions
        (sampleOperations ++ [.close])) = Sink.accepted MemorySink.unlimited ++ bytes ∧
      ∀ front, front <+: bytes →
        ((∃ d, Document.parse front = .ok d) ↔ front = bytes ∧
          Writer.SealsFrom MemorySink.unlimited sampleRegistry sampleOptions
            (sampleOperations ++ [.close])) :=
  ⟨namesFit_sampleRegistry, Writer.parse_iff_seals namesFit_sampleRegistry _ _ _⟩

/-! ### A close that fails -/

namespace Writer

section

variable {σ : Type} [Sink σ] [Compressor] [Logarithm] {ops : List Operation}

/-- When closing fails the writer is given up; what its sink took can then be read exactly if the
tail got into it to the last byte, and only the sink failed to pass it on. -/
theorem close_error_parse_iff {sink : σ} {registry : Registry} (hn : registry.NamesFit)
    {options : Options} {opened closed : Writer σ} {fault : Fault}
    (hstart : start sink registry options = .ok opened)
    (hactive : (opened.after ops).state = .active)
    (hclose : close (opened.after ops) = .error fault closed) :
    closed.state = .aborted ∧
      ∃ bytes, Sink.accepted closed.output.sink = Sink.accepted sink ++ bytes ∧
        ((∃ d, Document.parse bytes = .ok d) ↔ (opened.after ops).Completes) := by
  obtain ⟨-, hkeeps⟩ := (start_ok hstart).performAll hactive
  obtain ⟨haborted, hrest⟩ := hkeeps.close_ends.of_error hclose
  refine ⟨haborted, ?_⟩
  rcases hrest with ⟨hcompletes, bytes, hfile, htook⟩ | ⟨hincomplete, htorn⟩
  · -- The tail got in: the file is complete, and only what came after it failed.
    obtain ⟨d, hd, -⟩ := hfile.parse
    exact ⟨bytes, htook, fun _ => hcompletes, fun _ => ⟨d, hd⟩⟩
  · obtain ⟨bytes, htook, hu⟩ := htorn.unfinished
    exact ⟨bytes, htook, fun ⟨d, hd⟩ => absurd hd ((hu hn).parse d), fun h => absurd h hincomplete⟩

/-- Whether a writer can be opened, but closing it after some operations fails although the last
byte of the tail got into the sink. -/
def failsAtLast (sink : σ) (registry : Registry) (options : Options) (ops : List Operation) :
    Bool :=
  match start sink registry options with
  | .error _ => false
  | .ok opened =>
    (opened.after ops).state = .active &&
      match close (opened.after ops), complete { opened.after ops with state := .closing } with
      | .error _ _, .ok _ _ => true
      | _, _ => false

/-- What `failsAtLast` computes is that there is such a writer. -/
theorem exists_of_failsAtLast {sink : σ} {registry : Registry} {options : Options}
    (h : failsAtLast sink registry options ops = true) :
    ∃ opened closed fault, start sink registry options = .ok opened ∧
      (opened.after ops).state = .active ∧ close (opened.after ops) = .error fault closed ∧
      (opened.after ops).Completes := by
  unfold failsAtLast at h
  split at h
  · contradiction
  · rename_i opened hstart
    obtain ⟨hactive, hfails⟩ := Bool.and_eq_true_iff.1 h
    split at hfails
    · rename_i fault closed _ complete hclose hcomplete
      exact ⟨opened, closed, fault, hstart, of_decide_eq_true hactive, hclose, complete, hcomplete⟩
    · contradiction

end

end Writer

section

attribute [local instance] sampleLogarithm

/-- A sink that takes everything and passes on nothing. -/
def sampleRefusal : MemorySink :=
  { MemorySink.unlimited with refusesFlush := true }

/-- On a sink that passes on nothing the sample fails at its last step. -/
theorem sample_failsAtLast :
    Writer.failsAtLast sampleRefusal sampleRegistry sampleOptions sampleOperations = true := by
  decide +kernel

/-- A close that fails and leaves a file that can be read. -/
theorem close_error_parse_iff_sample : ∃ (opened closed : Writer MemorySink) (fault : Fault),
    sampleRegistry.NamesFit ∧
      Writer.start sampleRefusal sampleRegistry sampleOptions = .ok opened ∧
      (opened.after sampleOperations).state = .active ∧
      Writer.close (opened.after sampleOperations) = .error fault closed ∧
      closed.state = .aborted ∧
      ∃ bytes d, Sink.accepted closed.output.sink = Sink.accepted sampleRefusal ++ bytes ∧
        Document.parse bytes = .ok d := by
  have hn := namesFit_sampleRegistry
  obtain ⟨opened, closed, fault, hstart, hactive, hclose, hcompletes⟩ :=
    Writer.exists_of_failsAtLast sample_failsAtLast
  obtain ⟨haborted, bytes, htook, hparse⟩ :=
    Writer.close_error_parse_iff hn hstart hactive hclose
  obtain ⟨d, hd⟩ := hparse.2 hcompletes
  exact ⟨opened, closed, fault, hn, hstart, hactive, hclose, haborted, bytes, d, htook, hd⟩

end

end SeriesFile
