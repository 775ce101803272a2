import Mathlib.Data.List.Forall2
import SeriesFile.Proofs.Merging
import SeriesFile.Proofs.RoundTrip

/-!
# The order of time in a file

A ledger accepts a point only after the last one of its series, so the times of a series ascend
(`Ledger.Ascends`), whatever is asked of the writer in between. The chunks of a series in a closed
file are pieces of that one ascending sequence, in order. Everything a reader may want to know of
their ranges follows from this: an entry states the first and the last time of its chunk, ranges do
not meet, and the entry of the series states the least and the greatest time of all
(`Document.TimeOrdered`, `close_timeOrdered`).
-/

namespace SeriesFile

/-! ### Ascending times -/

section

variable {times : List Int64} {t : Int64}

/-- Of ascending times the first is the least. -/
theorem head?_le_of_ascends (h : times.Pairwise (· < ·)) (ht : times.head? = some t) :
    ∀ u ∈ times, t ≤ u := by
  obtain ⟨later, rfl⟩ := List.head?_eq_some_iff.1 ht
  intro u hu
  rcases List.mem_cons.1 hu with rfl | hu
  · exact Int64.le_refl u
  · exact Int64.le_of_lt (List.rel_of_pairwise_cons h hu)

/-- Of ascending times the last is the greatest. -/
theorem le_getLast?_of_ascends (h : times.Pairwise (· < ·)) (ht : times.getLast? = some t) :
    ∀ u ∈ times, u ≤ t := by
  obtain ⟨earlier, rfl⟩ := List.getLast?_eq_some_iff.1 ht
  intro u hu
  rcases List.mem_append.1 hu with hu | hu
  · exact Int64.le_of_lt ((List.pairwise_append.1 h).2.2 u hu t (.head _))
  · exact Int64.le_of_eq (List.mem_singleton.1 hu)

/-- A point after the last one of those whose times ascend goes on with them. -/
theorem ascends_append {points : List Point} {p : Point}
    (h : (points.map Point.time).Pairwise (· < ·))
    (hlast : ∀ last ∈ points.getLast?, last.time < p.time) :
    ((points ++ [p]).map Point.time).Pairwise (· < ·) := by
  rw [List.map_append]
  refine List.pairwise_append.2 ⟨h, List.pairwise_singleton _ _, ?_⟩
  intro t ht u hu
  obtain rfl := List.mem_singleton.1 hu
  have hne : points ≠ [] := fun hnil => by simp [hnil] at ht
  have hend := List.getLast?_eq_some_getLast hne
  -- The last one is the greatest so far, and the new one is after it.
  have hle := le_getLast?_of_ascends h (by rw [List.getLast?_map, hend]; rfl) t ht
  exact Int64.lt_of_le_of_lt hle (hlast _ hend)

end

/-! ### The ledger -/

namespace Ledger

/-- The times of every series ascend. -/
def Ascends (l : Ledger) : Prop :=
  ∀ key account, l.find? key = some account → (account.points.map Point.time).Pairwise (· < ·)

variable {l l' : Ledger}

/-- What there is to know of a point that was accepted. -/
theorem accept_ok {key : SeriesKey} {time : Int64} {value : Value}
    (h : l.accept key time value = .ok l') :
    ∃ account, l.find? key = some account ∧
      l' = l.insert key { account with points := account.points ++ [⟨time, value⟩] } ∧
      ∀ last ∈ account.points.getLast?, last.time < time := by
  unfold accept at h
  split at h
  · contradiction
  rename_i account hfind
  dsimp only at h
  split at h
  · contradiction
  split at h
  · rename_i hlast
    refine ⟨account, hfind, (Except.ok.inj h).symm, fun last hmem => ?_⟩
    rw [hlast] at hmem
    contradiction
  · rename_i last hlast
    split at h
    · contradiction
    · rename_i hlt
      refine ⟨account, hfind, (Except.ok.inj h).symm, fun last' hmem => ?_⟩
      obtain rfl := Option.some.inj (hlast.symm.trans hmem)
      -- This is where a point not after the last one is refused.
      exact Int64.not_le.1 hlt

namespace Ascends

/-- A new ledger has no points. -/
theorem new (registry : Registry) : (Ledger.new registry).Ascends := by
  intro key account hfind
  rw [Ledger.new, SeriesTable.find?_map] at hfind
  obtain ⟨schema, -, rfl⟩ := Option.map_eq_some_iff.1 hfind
  exact .nil

variable (h : l.Ascends)
include h

/-- A point that is accepted comes after the last one of its series. -/
theorem accept {key : SeriesKey} {time : Int64} {value : Value}
    (ha : l.accept key time value = .ok l') : l'.Ascends := by
  obtain ⟨account, hfind, rfl, hlast⟩ := accept_ok ha
  intro k other hother
  rw [SeriesTable.find?_insert] at hother
  split at hother
  · obtain rfl := Option.some.inj hother
    exact ascends_append (h key account hfind) hlast
  · exact h k other hother

/-- A record is points accepted one after another. -/
theorem acceptRecord {device : String} {time : Int64} {fields : List (String × Value)}
    (ha : l.acceptRecord device time fields = .ok l') : l'.Ascends := by
  unfold Ledger.acceptRecord at ha
  induction fields generalizing l with
  | nil =>
    obtain rfl := Except.ok.inj ha
    exact h
  | cons field fields ih =>
    rw [List.foldlM_cons] at ha
    obtain ⟨l₁, hfirst, hrest⟩ := bind_eq_ok.1 ha
    exact ih (h.accept hfirst) hrest

/-- A refusal leaves the ledger as it was. -/
theorem settle {accepted : Except Fault Ledger} (ha : ∀ l', accepted = .ok l' → l'.Ascends) :
    (l.settle accepted).2.Ascends := by
  cases accepted with
  | error fault => exact h
  | ok l' => exact ha l' rfl

/-- Only writes touch the ledger. -/
theorem perform (op : Operation) : (l.perform op).2.Ascends := by
  cases op with
  | write key time value => exact h.settle fun _ ha => h.accept ha
  | writeRecord device time fields => exact h.settle fun _ ha => h.acceptRecord ha
  | flush | close | abort | drop => exact h

/-- Whatever is asked for, the times of a series ascend. -/
theorem performAll (ops : List Operation) : (l.performAll ops).2.Ascends := by
  induction ops generalizing l with
  | nil => exact h
  | cons op ops ih => exact ih (h.perform op)

/-- The times of the points of a series, which are none for an unknown one. -/
theorem points (key : SeriesKey) : ((l.points key).map Point.time).Pairwise (· < ·) := by
  rw [Ledger.points]
  cases hfind : l.find? key with
  | none => exact .nil
  | some account => exact h key account hfind

end Ascends

end Ledger

/-! ### Chunks and entries -/

/-- An entry of the footer leads to a chunk with these times and states the first and the last. -/
structure Document.Spans (d : Document) (entry : ChunkEntry) (times : List Int64) : Prop where
  decodes : ∃ chunk column, d.chunkAt? entry.offset = some chunk ∧
    chunk.decode = .ok (times, column)
  first : times.head? = some entry.statistics.startTime
  last : times.getLast? = some entry.statistics.endTime

/-- The chunks of a series, given by their times, are in the order of time. -/
structure Document.TimeOrdered (d : Document) (e : SeriesEntry) (times : List (List Int64)) :
    Prop where
  spans : List.Forall₂ d.Spans e.chunks times
  ascends : times.flatten.Pairwise (· < ·)
  /-- A time is only in a chunk whose range holds it. -/
  within : List.Forall₂ (fun entry ts => ∀ t ∈ ts, entry.statistics.startTime ≤ t ∧
    t ≤ entry.statistics.endTime) e.chunks times
  /-- A time is in no two chunks. -/
  disjoint : times.Pairwise List.Disjoint
  /-- Ranges do not meet. -/
  apart : e.chunks.Pairwise fun a b => a.statistics.endTime < b.statistics.startTime
  least : e.statistics.startTime ∈ times.flatten ∧
    ∀ t ∈ times.flatten, e.statistics.startTime ≤ t
  greatest : e.statistics.endTime ∈ times.flatten ∧
    ∀ t ∈ times.flatten, t ≤ e.statistics.endTime

section

variable [Compressor]

namespace Run

/-- The statistics of a run state the time of its first point. -/
theorem head?_times (run : Run) : run.times.head? = some run.statistics.startTime :=
  (Statistics.ofColumns?_iff.1 run.statistics_eq).2.1

/-- The statistics of a run state the time of its last point. -/
theorem getLast?_times (run : Run) : run.times.getLast? = some run.statistics.endTime :=
  (Statistics.ofColumns?_iff.1 run.statistics_eq).2.2.1

/-- The times of the runs of a series are those of its points. -/
theorem flatten_times (key : SeriesKey) (runs : List Run) :
    (((inFile runs).filter fun placed => placed.2.key = key).map fun placed =>
      placed.2.times).flatten = (pointsOf key runs).map Point.time := by
  rw [pointsOf_eq_flatMap, List.map_flatMap, ← List.flatMap_def]
  refine List.flatMap_congr fun placed _ => ?_
  exact (Page.times_join placed.2.length_column).symm

end Run

variable [Logarithm] {registry : Registry} {rateBits : UInt64} {runs : List Run}
  {index : SeriesTable SeriesEntry} {d : Document}

/-- If the times of every series ascend from run to run, then its entries in the footer are in the
order of time. -/
theorem Sealed.timeOrdered (h : Sealed registry rateBits runs index)
    (hlocated : d.located = (Run.inFile runs).map fun placed =>
      (placed.2.key.device, ⟨placed.1, placed.2.chunk⟩)) {e : SeriesEntry} (he : e ∈ index.values)
    (hascends : ((Run.pointsOf e.key runs).map Point.time).Pairwise (· < ·)) :
    d.TimeOrdered e (((Run.inFile runs).filter fun placed => placed.2.key = e.key).map fun placed =>
      placed.2.times) := by
  -- The entries of a series are those of its runs, one for each chunk.
  have hchunks := Document.chunks_of_located hlocated
  have hentries : e.chunks = ((Run.inFile runs).filter fun placed => placed.2.key = e.key).map
      Run.entry := (h.indexed.lists_of_mem_values he).chunks_eq
  -- The entry states the first and the last time of all points of the series.
  obtain ⟨schema, s, -, -, hs, hexact⟩ := h.indexed.exact_statistics he
  obtain ⟨-, hfirst, hlast, -⟩ := Statistics.ofColumns?_iff.1 hs
  obtain ⟨-, hstart, hend, -⟩ := ExactStatistics.mk.inj hexact
  rw [← hstart] at hfirst
  rw [← hend] at hlast
  rw [← Run.flatten_times] at hascends hfirst hlast
  -- The order of the whole series is split at the cuts: inside of chunks, and between them.
  obtain ⟨heach, hbetween⟩ := List.pairwise_flatten.1 hascends
  have heach (placed : Nat × Run)
      (hp : placed ∈ (Run.inFile runs).filter fun placed => placed.2.key = e.key) :
      placed.2.times.Pairwise (· < ·) := heach _ (List.mem_map_of_mem hp)
  exact {
    spans := by
      rw [hentries, List.forall₂_map_left_iff, List.forall₂_map_right_iff, List.forall₂_same]
      intro placed hp
      have hp := (List.mem_filter.1 hp).1
      exact ⟨⟨_, _, d.chunkAt?_of_mem hchunks hp (h.place_lt hp), placed.2.decode⟩,
        placed.2.head?_times, placed.2.getLast?_times⟩
    ascends := hascends
    within := by
      rw [hentries, List.forall₂_map_left_iff, List.forall₂_map_right_iff, List.forall₂_same]
      intro placed hp t ht
      exact ⟨head?_le_of_ascends (heach placed hp) placed.2.head?_times t ht,
        le_getLast?_of_ascends (heach placed hp) placed.2.getLast?_times t ht⟩
    disjoint := hbetween.imp fun hlt t ht ht' => Int64.lt_irrefl (hlt t ht t ht')
    apart := by
      rw [hentries]
      -- Between two chunks every time is compared with every other; the last of one and the first
      -- of the next are enough.
      refine List.pairwise_map.2 ((List.pairwise_map.1 hbetween).imp fun {a b} hlt => ?_)
      exact hlt _ (List.mem_of_getLast? a.2.getLast?_times) _
        (List.mem_of_mem_head? b.2.head?_times)
    least := ⟨List.mem_of_mem_head? hfirst, head?_le_of_ascends hascends hfirst⟩
    greatest := ⟨List.mem_of_getLast? hlast, le_getLast?_of_ascends hascends hlast⟩ }

namespace Writer

/-- In a closed file the chunks of every series are in the order of time. -/
theorem close_timeOrdered {σ : Type} [Sink σ] {sink : σ} {options : Options}
    {ops : List Operation} {opened closed : Writer σ}
    (hstart : start sink registry options = .ok opened)
    (hclose : close (opened.after ops) = .ok () closed) :
    ∃ bytes d, Sink.accepted closed.output.sink = Sink.accepted sink ++ bytes ∧
      Document.parse bytes = .ok d ∧
      ∀ e ∈ d.footer.series, ∃ times, d.TimeOrdered e times := by
  obtain ⟨-, hkeeps⟩ := (start_ok hstart).performAll (active_of_close hclose)
  obtain ⟨-, -, bytes, ⟨runs, index, hsealed, hpoints, rfl⟩, htook⟩ :=
    hkeeps.close_ends.of_ok hclose
  obtain ⟨d, hd, hfooter, hlocated⟩ := hsealed.parse
  refine ⟨_, d, htook, hd, fun e he => ⟨_, hsealed.timeOrdered hlocated ?_ ?_⟩⟩
  · rw [hfooter] at he
    exact he
  · rw [← hpoints]
    exact ((Ledger.Ascends.new registry).performAll ops).points e.key

end Writer

end

section

attribute [local instance] sampleLogarithm

/-- Three series, one with two chunks, whose file was closed. -/
theorem close_timeOrdered_sample : ∃ opened closed : Writer MemorySink,
    Writer.start MemorySink.unlimited sampleRegistry sampleOptions = .ok opened ∧
      Writer.close (opened.after sampleOperations) = .ok () closed ∧
      ∃ bytes d, Sink.accepted closed.output.sink = Sink.accepted MemorySink.unlimited ++ bytes ∧
        Document.parse bytes = .ok d ∧
        ∀ e ∈ d.footer.series, ∃ times, d.TimeOrdered e times := by
  obtain ⟨opened, closed, hstart, hclose⟩ := Writer.exists_of_closes sample_closes
  exact ⟨opened, closed, hstart, hclose, Writer.close_timeOrdered hstart hclose⟩

end

end SeriesFile
