import SeriesFile.Proofs.Index

/-!
# Merging statistics

The statistics of a series are merged from those of its chunks, so they could depend on how the
series was cut. What of them does not is their exact part (`Statistics.exact`): all but the sums
that are rounded, and the bounds of floating-point numbers, among which a NaN may stand. Merging the
statistics of two runs gives the exact part of the statistics of the whole
(`Statistics.exact_merge`), and so the exact part of an entry is that of all points of its series,
whatever its chunks are (`Indexed.exact_statistics`).
-/

namespace SeriesFile

/-! ### Bounds and sums -/

namespace Arithmetic

instance : Std.Associative int32.lesser := by
  constructor
  intro a b c
  simp only [int32, Int32.lt_iff_toInt_lt]
  grind

instance : Std.Associative int32.greater := by
  constructor
  intro a b c
  simp only [int32, Int32.lt_iff_toInt_lt]
  grind

instance : Std.Associative int32.add :=
  ⟨Int64.add_assoc⟩

instance : Std.Associative int64.lesser := by
  constructor
  intro a b c
  simp only [int64, Int64.lt_iff_toInt_lt]
  grind

instance : Std.Associative int64.greater := by
  constructor
  intro a b c
  simp only [int64, Int64.lt_iff_toInt_lt]
  grind

end Arithmetic

namespace NumberSummary

variable {α σ : Type} {ops : Arithmetic α σ} {a b : List α} {s t : NumberSummary α σ}

/-- The parts of a summary are gathered one by one. -/
theorem foldl_snoc (s : NumberSummary α σ) (vs : List α) :
    vs.foldl (snoc ops) s = {
      min := vs.foldl ops.lesser s.min
      max := vs.foldl ops.greater s.max
      first := s.first
      last := vs.getLast?.getD s.last
      sum := (vs.map ops.widen).foldl ops.add s.sum } := by
  induction vs generalizing s with
  | nil => rfl
  | cons v vs ih =>
    rw [List.foldl_cons, ih]
    simp [snoc, List.getLast?_cons]

/-- What comes later does not change how a run begins; of its end nothing is left. Bounds and sums
can be merged if they can be taken in any grouping. -/
theorem ofList?_append (ha : ofList? ops a = some s) (hb : ofList? ops b = some t) :
    ∃ u, ofList? ops (a ++ b) = some u ∧ u.first = s.first ∧ u.last = t.last ∧
      ([Std.Associative ops.lesser] → u.min = ops.lesser s.min t.min) ∧
      ([Std.Associative ops.greater] → u.max = ops.greater s.max t.max) ∧
      ([Std.Associative ops.add] → u.sum = ops.add s.sum t.sum) := by
  cases a with
  | nil => contradiction
  | cons v vs =>
    cases b with
    | nil => contradiction
    | cons w ws =>
      simp only [ofList?, foldl_snoc, single, Option.some.injEq] at ha hb
      subst ha hb
      refine ⟨_, rfl, ?_⟩
      rw [List.append_eq, foldl_snoc]
      simp only [single, List.foldl_append, List.foldl_cons, List.map_append, List.map_cons]
      exact ⟨trivial, by simp [List.getLast?_append, List.getLast?_cons], List.foldl_assoc,
        List.foldl_assoc, List.foldl_assoc⟩

/-- Where bounds and sums can be taken in any grouping, merging gives the summary of the whole. -/
theorem ofList?_append_eq_merge [Std.Associative ops.lesser] [Std.Associative ops.greater]
    [Std.Associative ops.add] (ha : ofList? ops a = some s) (hb : ofList? ops b = some t) :
    ofList? ops (a ++ b) = some (s.merge ops t) := by
  obtain ⟨u, hu, hfirst, hlast, hmin, hmax, hsum⟩ := ofList?_append ha hb
  rw [hu, merge, ← hfirst, ← hlast, ← hmin, ← hmax, ← hsum]

end NumberSummary

/-! ### The exact part -/

/-- The part of a summary that does not depend on how a run was cut. -/
inductive ExactSummary where
  | boolean (first last : Bool) (trueCount : UInt64)
  | int32 (numbers : NumberSummary Int32 Int64)
  | int64 (min max first last : Int64)
  | float (first last : UInt32)
  | double (first last : UInt64)
  | text (first last : String)
  deriving DecidableEq

/-- The part of statistics that does not depend on how a run was cut. -/
structure ExactStatistics where
  count : UInt64
  startTime : Int64
  endTime : Int64
  values : ExactSummary
  deriving DecidableEq

/-- The exact part of the summary of two runs; `none` if their types differ. -/
def ExactSummary.merge? : ExactSummary → ExactSummary → Option ExactSummary
  | boolean first _ n, boolean _ last m => some (boolean first last (n + m))
  | int32 a, int32 b => some (int32 (a.merge .int32 b))
  | int64 min max first _, int64 min' max' _ last =>
    some (int64 (Arithmetic.int64.lesser min min') (Arithmetic.int64.greater max max') first last)
  | float first _, float _ last => some (float first last)
  | double first _, double _ last => some (double first last)
  | text first _, text _ last => some (text first last)
  | _, _ => none

namespace ValueSummary

def exact : ValueSummary → ExactSummary
  | boolean first last trueCount => .boolean first last trueCount
  | int32 s => .int32 s
  | int64 s => .int64 s.min s.max s.first s.last
  | float s => .float s.first s.last
  | double s => .double s.first s.last
  | text first last => .text first last

/-- Nothing but the exact parts goes into the exact part of what is merged. -/
theorem exact_merge? (s later : ValueSummary) :
    (s.merge? later).map exact = s.exact.merge? later.exact := by
  cases s <;> cases later <;> rfl

/-- Nothing of a summary of 32-bit integers is left out of the exact part. -/
theorem eq_int32_of_exact {s : ValueSummary} {m : NumberSummary Int32 Int64}
    (h : s.exact = .int32 m) : s = .int32 m := by
  cases s <;> cases h
  rfl

end ValueSummary

namespace Statistics

def exact (s : Statistics) : ExactStatistics :=
  ⟨s.count, s.startTime, s.endTime, s.values.exact⟩

end Statistics

/-! ### Summaries of points -/

namespace Column

/-- The values of a type among some values. -/
def ofValues (type : DataType) (values : List Value) : Column :=
  match type with
  | .boolean => boolean (values.filterMap fun | .boolean v => some v | _ => none)
  | .int32 => int32 (values.filterMap fun | .int32 v => some v | _ => none)
  | .int64 => int64 (values.filterMap fun | .int64 v => some v | _ => none)
  | .float => float (values.filterMap fun | .float v => some v | _ => none)
  | .double => double (values.filterMap fun | .double v => some v | _ => none)
  | .text => text (values.filterMap fun | .text v => some v | _ => none)

@[simp]
theorem ofValues_values (c : Column) : ofValues c.dataType c.values = c := by
  cases c <;> simp [dataType, ofValues, values, List.filterMap_map]

end Column

namespace ValueSummary

variable {type : DataType} {a b : List Value} {s t : ValueSummary}

/-- The summary of booleans is their ends and the number of those that are true. -/
theorem ofColumn?_boolean_iff {vs : List Bool} : ofColumn? (.boolean vs) = some s ↔
    ∃ first last, vs.head? = some first ∧ vs.getLast? = some last ∧
      s = .boolean first last (UInt64.ofNat (vs.count true)) := by
  simp only [ofColumn?]
  cases vs.head? <;> cases vs.getLast? <;> simp [eq_comm]

/-- The summary of texts is their ends. -/
theorem ofColumn?_text_iff {vs : List String} : ofColumn? (.text vs) = some s ↔
    ∃ first last, vs.head? = some first ∧ vs.getLast? = some last ∧ s = .text first last := by
  simp only [ofColumn?]
  cases vs.head? <;> cases vs.getLast? <;> simp [eq_comm]

/-- The exact part of the summary of a run is merged from those of the parts it is cut into. -/
theorem exact_append (ha : ofColumn? (.ofValues type a) = some s)
    (hb : ofColumn? (.ofValues type b) = some t) :
    ∃ u, ofColumn? (.ofValues type (a ++ b)) = some u ∧ s.exact.merge? t.exact = some u.exact := by
  cases type with
  | boolean =>
    obtain ⟨first, _, hf, -, rfl⟩ := ofColumn?_boolean_iff.1 ha
    obtain ⟨_, last, -, hl, rfl⟩ := ofColumn?_boolean_iff.1 hb
    refine ⟨_, ofColumn?_boolean_iff.2 ⟨first, last, ?_, ?_, rfl⟩, ?_⟩
    · rw [List.filterMap_append, List.head?_append, hf, Option.some_or]
    · rw [List.filterMap_append, List.getLast?_append, hl, Option.some_or]
    · simp [exact, ExactSummary.merge?]
  | int32 =>
    obtain ⟨m, hm, rfl⟩ := Option.map_eq_some_iff.1 ha
    obtain ⟨n, hn, rfl⟩ := Option.map_eq_some_iff.1 hb
    refine ⟨.int32 (m.merge .int32 n), ?_, rfl⟩
    rw [Column.ofValues, List.filterMap_append, ofColumn?,
      NumberSummary.ofList?_append_eq_merge hm hn]
    rfl
  | int64 =>
    obtain ⟨m, hm, rfl⟩ := Option.map_eq_some_iff.1 ha
    obtain ⟨n, hn, rfl⟩ := Option.map_eq_some_iff.1 hb
    -- The sums are rounded, so they are left out, and the summary of the whole is only `u`.
    obtain ⟨u, hu, hfirst, hlast, hmin, hmax, -⟩ := NumberSummary.ofList?_append hm hn
    refine ⟨.int64 u, ?_, ?_⟩
    · rw [Column.ofValues, List.filterMap_append, ofColumn?, hu]
      rfl
    · simp only [exact, ExactSummary.merge?, hfirst, hlast, hmin, hmax]
  | float =>
    obtain ⟨m, hm, rfl⟩ := Option.map_eq_some_iff.1 ha
    obtain ⟨n, hn, rfl⟩ := Option.map_eq_some_iff.1 hb
    obtain ⟨u, hu, hfirst, hlast, -⟩ := NumberSummary.ofList?_append hm hn
    refine ⟨.float u, ?_, ?_⟩
    · rw [Column.ofValues, List.filterMap_append, ofColumn?, hu]
      rfl
    · simp only [exact, ExactSummary.merge?, hfirst, hlast]
  | double =>
    obtain ⟨m, hm, rfl⟩ := Option.map_eq_some_iff.1 ha
    obtain ⟨n, hn, rfl⟩ := Option.map_eq_some_iff.1 hb
    obtain ⟨u, hu, hfirst, hlast, -⟩ := NumberSummary.ofList?_append hm hn
    refine ⟨.double u, ?_, ?_⟩
    · rw [Column.ofValues, List.filterMap_append, ofColumn?, hu]
      rfl
    · simp only [exact, ExactSummary.merge?, hfirst, hlast]
  | text =>
    obtain ⟨first, _, hf, -, rfl⟩ := ofColumn?_text_iff.1 ha
    obtain ⟨_, last, -, hl, rfl⟩ := ofColumn?_text_iff.1 hb
    refine ⟨_, ofColumn?_text_iff.2 ⟨first, last, ?_, ?_, rfl⟩, rfl⟩
    · rw [List.filterMap_append, List.head?_append, hf, Option.some_or]
    · rw [List.filterMap_append, List.getLast?_append, hl, Option.some_or]

end ValueSummary

namespace Statistics

/-- The statistics of points of a type; no points have none. -/
def ofPoints? (type : DataType) (points : List Point) : Option Statistics :=
  ofColumns? (points.map Point.time) (.ofValues type (points.map Point.value))

variable {type : DataType} {a b : List Point} {s s' t t' merged : Statistics}

/-- Points that are taken apart and put together again have the statistics they had. -/
theorem ofPoints?_join {times : List Int64} {column : Column}
    (h : times.length = column.length) :
    ofPoints? column.dataType (Page.join times column) = ofColumns? times column := by
  rw [ofPoints?, Page.times_join h, Page.values_join h, Column.ofValues_values]

/-- Statistics of columns are taken part by part, and there are none of empty ones. -/
theorem ofColumns?_iff {times : List Int64} {column : Column} :
    ofColumns? times column = some s ↔ s.count = UInt64.ofNat times.length ∧
      times.head? = some s.startTime ∧ times.getLast? = some s.endTime ∧
        ValueSummary.ofColumn? column = some s.values := by
  obtain ⟨count, startTime, endTime, values⟩ := s
  rw [ofColumns?]
  cases times.head? <;> cases times.getLast? <;> cases ValueSummary.ofColumn? column <;>
    simp [eq_comm]

/-- What is merged begins as the first, ends as the second, and counts both. -/
theorem merge_eq_ok (h : s.merge t = .ok merged) :
    merged.count = s.count + t.count ∧ merged.startTime = s.startTime ∧
      merged.endTime = t.endTime ∧ s.values.merge? t.values = some merged.values := by
  unfold merge at h
  split at h
  · rename_i values hvalues
    obtain rfl := Except.ok.inj h
    exact ⟨rfl, rfl, rfl, hvalues⟩
  · contradiction

/-- Merged statistics have the exact part of those of the whole, if what was merged had the exact
parts of those of the two runs. -/
theorem exact_merge (ha : ofPoints? type a = some s') (hs : s.exact = s'.exact)
    (hb : ofPoints? type b = some t') (ht : t.exact = t'.exact) (hm : s.merge t = .ok merged) :
    ∃ u, ofPoints? type (a ++ b) = some u ∧ merged.exact = u.exact := by
  obtain ⟨hcount, hstart, -, hvalues⟩ := ofColumns?_iff.1 ha
  obtain ⟨hcount', -, hend', hvalues'⟩ := ofColumns?_iff.1 hb
  obtain ⟨hsumm, hfirst, hlast, hmerged⟩ := merge_eq_ok hm
  obtain ⟨hsame, hsameStart, -, hsameValues⟩ := ExactStatistics.mk.inj hs
  obtain ⟨hsame', -, hsameEnd, hsameValues'⟩ := ExactStatistics.mk.inj ht
  obtain ⟨values, hu, hexact⟩ := ValueSummary.exact_append hvalues hvalues'
  refine ⟨⟨merged.count, merged.startTime, merged.endTime, values⟩, ?_, ?_⟩
  · -- Count, start and end are told by those of the parts, and the values were merged above.
    refine ofColumns?_iff.2 ⟨?_, ?_, ?_, ?_⟩
    · rw [hsumm, hsame, hsame', hcount, hcount', List.map_append, List.length_append,
        UInt64.ofNat_add]
    · rw [List.map_append, List.head?_append, hstart, hfirst, hsameStart, Option.some_or]
    · rw [List.map_append, List.getLast?_append, hend', hlast, hsameEnd, Option.some_or]
    · rw [List.map_append, hu]
  · have hparts := ValueSummary.exact_merge? s.values t.values
    rw [hmerged, hsameValues, hsameValues', hexact] at hparts
    rw [exact, exact, ← Option.some.inj hparts]

end Statistics

/-! ### Entries of a footer -/

section

variable [Compressor]

/-- The statistics in the chunk of a run are those of its points. -/
theorem Run.ofPoints?_points (run : Run) :
    Statistics.ofPoints? run.schema.dataType run.points = some run.statistics := by
  rw [← run.typed, ← run.statistics_eq]
  exact Statistics.ofPoints?_join run.length_column

/-- The exact part of the statistics of an entry is that of all points of its chunks. -/
theorem SeriesEntry.Lists.exact_statistics {key : SeriesKey} {placed : List (Nat × Run)}
    {e : SeriesEntry} (h : e.Lists key (placed.map Run.entry)) {type : DataType}
    (ht : ∀ p ∈ placed, p.2.schema.dataType = type) :
    ∃ s, Statistics.ofPoints? type (placed.flatMap fun p => p.2.points) = some s ∧
      e.statistics.exact = s.exact := by
  generalize hchunks : placed.map Run.entry = chunks at h
  -- By the chunks as they were pushed: the last one is merged into all before it.
  induction h generalizing placed with
  | single c =>
    obtain ⟨p, rfl, rfl⟩ := List.map_eq_singleton_iff.1 hchunks
    refine ⟨p.2.statistics, ?_, rfl⟩
    rw [List.flatMap_singleton, ← ht p (.head _)]
    exact p.2.ofPoints?_points
  | @push chunks e e' c hlists hpush ih =>
    obtain ⟨before, last, rfl, rfl, hlast⟩ := List.map_eq_append_iff.1 hchunks
    obtain ⟨p, rfl, rfl⟩ := List.map_eq_singleton_iff.1 hlast
    obtain ⟨s, hs, hexact⟩ := ih (fun p hp => ht p (List.mem_append_left _ hp)) rfl
    obtain ⟨merged, hm, rfl⟩ := SeriesEntry.push_ok hpush
    have hp := ht p (List.mem_append_right _ (.head _))
    rw [List.flatMap_append, List.flatMap_singleton]
    exact Statistics.exact_merge hs hexact (hp ▸ p.2.ofPoints?_points) rfl hm

/-- The exact part of the statistics of a series is that of its points. -/
theorem Indexed.exact_statistics {registry : Registry} {runs : List Run}
    {index : SeriesTable SeriesEntry} (h : Indexed registry runs index) {e : SeriesEntry}
    (he : e ∈ index.values) :
    ∃ schema s, registry.find? e.key = some schema ∧ e.dataType = schema.dataType ∧
      Statistics.ofPoints? schema.dataType (Run.pointsOf e.key runs) = some s ∧
      e.statistics.exact = s.exact := by
  obtain ⟨schema, hschema⟩ := h.schema_of_mem_values he
  have hlists := h.lists_of_mem_values he
  -- All runs of the series have the type that is registered.
  have htypes (p : Nat × Run)
      (hp : p ∈ (Run.inFile runs).filter fun placed => placed.2.key = e.key) :
      p.2.schema.dataType = schema.dataType := by
    obtain ⟨hp, hkey⟩ := List.mem_filter.1 hp
    have hrun := h.schemas p.2 (Run.mem_of_mem_inFile hp)
    rw [of_decide_eq_true hkey, hschema] at hrun
    rw [Option.some.inj hrun]
  obtain ⟨s, hs, hexact⟩ := SeriesEntry.Lists.exact_statistics hlists htypes
  rw [← Run.pointsOf_eq_flatMap] at hs
  exact ⟨schema, s, hschema, (hlists.dataType_eq fun c hc => h.dataType_entries hschema hc).1, hs,
    hexact⟩

end

end SeriesFile
