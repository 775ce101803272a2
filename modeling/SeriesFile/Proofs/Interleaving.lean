import SeriesFile.Proofs.Declarations
import SeriesFile.Proofs.Holding
import SeriesFile.Proofs.Refusals

/-!
# The order of independent writes

Points of different series meet in a file only when chunks are written. As long as no limit is
reached that is when the writer is closed, and then the chunks are written in the order of the
series. So two writers that were offered the same points for every series, in whatever order the
series took turns, are the same writer, and get the same bytes into their sinks.

Neither the order in which the series were declared leaves a trace in a file, since registries are
tables by series (`Registry.ofDefinitions_eq_ok_iff`), nor do operations that were refused
(`Writer.Interspersed.after_eq`).
-/

namespace SeriesFile

/-! ### Operations that are refused -/

namespace Writer

section

variable {σ : Type} [Sink σ] [Compressor] [Logarithm]

/-- Whether a writer refuses an operation. -/
def refuses (w : Writer σ) (op : Operation) : Bool :=
  match (w.perform op).1 with
  | .ok () => false
  | .error fault => fault.isRefusal

/-- Between some operations a writer is asked for others, all of which it refuses. -/
def Interspersed (w : Writer σ) (ops : List Operation) : List Operation → Prop
  | [] => ops = []
  | op :: more =>
    (ops.head? = some op ∧ (w.perform op).2.Interspersed ops.tail more) ∨
      (w.refuses op ∧ (w.perform op).2.Interspersed ops more)

instance decidableInterspersed (w : Writer σ) (ops : List Operation) :
    (more : List Operation) → Decidable (w.Interspersed ops more)
  | [] => inferInstanceAs (Decidable (ops = []))
  | op :: more =>
    have := decidableInterspersed (w.perform op).2 ops.tail more
    have := decidableInterspersed (w.perform op).2 ops more
    inferInstanceAs (Decidable (_ ∨ _))

variable {w : Writer σ}

/-- What a writer refuses leaves it as it was. -/
theorem Reachable.perform_of_refuses (h : Reachable w) {op : Operation} (hr : w.refuses op) :
    (w.perform op).2 = w := by
  unfold refuses at hr
  split at hr
  · contradiction
  · rename_i fault hanswer
    exact (h.refused_or_givenUp op).1 fault hanswer hr

/-- The operations that were refused in between leave no trace. -/
theorem Interspersed.after_eq (h : Reachable w) {ops more : List Operation}
    (hm : w.Interspersed ops more) : w.after more = w.after ops := by
  -- By induction on what was asked for: either it was the next operation, or it was refused and
  -- changed nothing.
  induction more generalizing w ops with
  | nil =>
    obtain rfl : ops = [] := hm
    rfl
  | cons op more ih =>
    rcases hm with ⟨hhead, htail⟩ | ⟨hrefuses, hrest⟩
    · obtain ⟨ops, rfl⟩ := List.head?_eq_some_iff.1 hhead
      exact ih (h.after op) htail
    · rw [h.perform_of_refuses hrefuses] at hrest
      rw [after_cons, h.perform_of_refuses hrefuses]
      exact ih h hrest

/-! ### Files -/

variable {sink : σ} {registry : Registry} {options : Options} {opened : Writer σ}
  {offers offers' : List Offer}

/-- A writer that was opened and then offered points that reach no limit holds what its ledger
holds. -/
theorem after_eq_holding (hstart : start sink registry options = .ok opened)
    (hw : ((Ledger.new registry).after (offers.map Offer.operation)).Within options) :
    opened.after (offers.map Offer.operation) =
      opened.holding ((Ledger.new registry).after (offers.map Offer.operation)) := by
  obtain ⟨runs, hholds⟩ := start_ok hstart
  obtain rfl : opened.registry = registry := hholds.registry_eq
  obtain rfl : opened.options = options := hholds.options_eq
  -- From the ledger of a new writer on, every offer keeps the writer what its ledger says.
  have hall := performAll_holding hholds.state_eq (.new opened.registry) hw
  rw [holding_of_start hstart] at hall
  rw [after, hall]

/-- The bytes in a sink after a writer was opened on it for the declared series, asked for some
operations and closed. -/
def sealedBytes (sink : σ) (definitions : List (SeriesKey × Schema)) (options : Options)
    (ops : List Operation) : Except Fault Bytes :=
  match Registry.ofDefinitions definitions with
  | .error fault => .error fault
  | .ok registry =>
    match start sink registry options with
    | .error (fault, _) => .error fault
    | .ok opened =>
      match close (opened.after ops) with
      | .error fault _ => .error fault
      | .ok _ closed => .ok (Sink.accepted closed.output.sink)

/-- As long as no limit is reached, a file depends on what was offered to each of its series and on
nothing else: not on how the series took turns, not on the order in which they were declared, and
not on what was refused in between. -/
theorem sealedBytes_interleaved {definitions definitions' : List (SeriesKey × Schema)}
    {more : List Operation} (hregistry : Registry.ofDefinitions definitions = .ok registry)
    (hperm : definitions'.Perm definitions) (hstart : start sink registry options = .ok opened)
    (hwithin : ((Ledger.new registry).after (offers.map Offer.operation)).Within options)
    (hsame : ∀ key, Offer.ofSeries key offers' = Offer.ofSeries key offers)
    (hmore : opened.Interspersed (offers'.map Offer.operation) more) :
    sealedBytes sink definitions' options more =
      sealedBytes sink definitions options (offers.map Offer.operation) := by
  have hledger := Ledger.after_congr hsame (Ledger.new registry)
  have hwriter : opened.after more = opened.after (offers.map Offer.operation) := by
    calc opened.after more
        = opened.after (offers'.map Offer.operation) := hmore.after_eq (.opened hstart)
      _ = opened.holding ((Ledger.new registry).after (offers'.map Offer.operation)) :=
          after_eq_holding hstart (hledger ▸ hwithin)
      _ = opened.holding ((Ledger.new registry).after (offers.map Offer.operation)) := by
          rw [hledger]
      _ = opened.after (offers.map Offer.operation) := (after_eq_holding hstart hwithin).symm
  simp only [sealedBytes, Registry.ofDefinitions_perm hperm hregistry, hregistry, hstart, hwriter]

/-- Whether a writer can be opened, refuses what it is asked for between some operations, and can be
closed after them. -/
def closesInterspersed (sink : σ) (registry : Registry) (options : Options)
    (ops more : List Operation) : Bool :=
  match start sink registry options with
  | .error _ => false
  | .ok opened =>
    opened.Interspersed ops more &&
      match close (opened.after more) with
      | .error _ _ => false
      | .ok _ _ => true

/-- What is decided for a run is had of its writers. -/
theorem exists_of_closesInterspersed {ops more : List Operation}
    (h : closesInterspersed sink registry options ops more = true) :
    ∃ opened closed, start sink registry options = .ok opened ∧ opened.Interspersed ops more ∧
      close (opened.after more) = .ok () closed := by
  unfold closesInterspersed at h
  split at h
  · contradiction
  · rename_i opened hstart
    obtain ⟨hmore, hcloses⟩ := Bool.and_eq_true_iff.1 h
    split at hcloses
    · contradiction
    · rename_i closed hclose
      exact ⟨opened, closed, hstart, of_decide_eq_true hmore, hclose⟩

end

end Writer

section

attribute [local instance] sampleLogarithm

/-- Points of two series, one series after the other. -/
def sampleOffers : List Offer := [
  ⟨⟨"root.a", "t"⟩, 1, .int32 7⟩,
  ⟨⟨"root.a", "t"⟩, 9, .int32 1⟩,
  ⟨⟨"root.b", "v"⟩, -5, .double 0x400921FB54442D18⟩]

/-- The same points, with the other series first. -/
def sampleTurns : List Offer := [
  ⟨⟨"root.b", "v"⟩, -5, .double 0x400921FB54442D18⟩,
  ⟨⟨"root.a", "t"⟩, 1, .int32 7⟩,
  ⟨⟨"root.a", "t"⟩, 9, .int32 1⟩]

/-- For every series the same is offered, whoever comes first. -/
theorem ofSeries_sampleTurns (key : SeriesKey) :
    Offer.ofSeries key sampleTurns = Offer.ofSeries key sampleOffers := by
  by_cases hb : (⟨"root.b", "v"⟩ : SeriesKey) = key
  · subst hb
    rfl
  · simp [Offer.ofSeries, sampleTurns, sampleOffers, List.filter_cons, hb]

/-- The points once more, and between them some that are refused, and a record that is. -/
def sampleInterruptions : List Operation := [
  .write ⟨"root.b", "v"⟩ (-5) (.double 0x400921FB54442D18),
  .write ⟨"root.b", "v"⟩ (-6) (.double 0),
  .write ⟨"root.a", "t"⟩ 1 (.int32 7),
  .writeRecord "root.a" 2 [("n", .text "TsFile"), ("t", .text "7")],
  .write ⟨"root.c", "t"⟩ 1 (.int32 8),
  .write ⟨"root.a", "t"⟩ 9 (.int32 1)]

/-- Three points reach none of the default limits. -/
theorem within_sampleOffers :
    ((Ledger.new sampleRegistry).after (sampleOffers.map Offer.operation)).Within {} := by
  constructor <;> decide +kernel

theorem sample_closesInterspersed :
    Writer.closesInterspersed MemorySink.unlimited sampleRegistry {}
      (sampleTurns.map Offer.operation) sampleInterruptions = true := by
  decide +kernel

/-- The registry is that of its own entries. -/
theorem ofDefinitions_sampleRegistry :
    Registry.ofDefinitions sampleRegistry.entries = .ok sampleRegistry :=
  Registry.ofDefinitions_eq_ok_iff.2 ⟨.refl _, by decide⟩

/-- Series declared in the other order, offered in other turns and with refusals in between, give
the same bytes. -/
theorem sealedBytes_interleaved_sample : ∃ (opened closed : Writer MemorySink),
    Registry.ofDefinitions sampleRegistry.entries = .ok sampleRegistry ∧
      Writer.start MemorySink.unlimited sampleRegistry {} = .ok opened ∧
      ((Ledger.new sampleRegistry).after (sampleOffers.map Offer.operation)).Within {} ∧
      (∀ key, Offer.ofSeries key sampleTurns = Offer.ofSeries key sampleOffers) ∧
      opened.Interspersed (sampleTurns.map Offer.operation) sampleInterruptions ∧
      Writer.close (opened.after sampleInterruptions) = .ok () closed ∧
      Writer.sealedBytes MemorySink.unlimited sampleRegistry.entries.reverse {} sampleInterruptions =
        Writer.sealedBytes MemorySink.unlimited sampleRegistry.entries {}
          (sampleOffers.map Offer.operation) := by
  obtain ⟨opened, closed, hstart, hmore, hclose⟩ :=
    Writer.exists_of_closesInterspersed sample_closesInterspersed
  exact ⟨opened, closed, ofDefinitions_sampleRegistry, hstart, within_sampleOffers,
    ofSeries_sampleTurns, hmore, hclose,
    Writer.sealedBytes_interleaved ofDefinitions_sampleRegistry (List.reverse_perm _) hstart
      within_sampleOffers ofSeries_sampleTurns hmore⟩

end

end SeriesFile
