import Mathlib.Algebra.Ring.Int.Defs
import SeriesFile.Proofs.Bounds

/-!
# Statistics of a run in pieces

A run of points can be cut into pieces, and the statistics of the pieces merged in any grouping
(`Bracketing`). Whatever is true of the statistics of every piece and is kept by a merge is true of
what comes out (`Bracketing.fold?_induct`). Three things are: the exact part is that of the
statistics of the whole run, the bounds are those of the whole run, and a sum of 32-bit integers is
the true sum, as long as there are not more than 2 ^ 32 of them, so that no addition on the way
leaves 64 bits (`Arithmetic.Totals`). Together these are `Bracketing.statistics_merged`.
-/

namespace SeriesFile

/-! ### Merging in place -/

namespace Statistics

/-- Takes in the statistics of a later run: the values first, then the number of points and the
end. -/
def absorb (later : Statistics) : EStateM Fault Statistics Unit := do
  let s ← get
  match s.values.merge? later.values with
  | some values => set { s with values }
  | none => throw (.typeMismatch s.dataType later.dataType)
  modify fun s => { s with count := s.count + later.count }
  modify fun s => { s with endTime := later.endTime }

/-- Taking in is merging, and if it fails the receiver is as before. -/
theorem absorb_eq (s later : Statistics) :
    absorb later s = match s.merge later with
      | .ok merged => .ok () merged
      | .error fault => .error fault s := by
  have hget : (get : EStateM Fault Statistics Statistics) s = .ok s s := rfl
  unfold merge
  cases h : s.values.merge? later.values with
  | none =>
    simp only [absorb, bind, EStateM.bind, hget, h]
    rfl
  | some values =>
    simp only [absorb, bind, EStateM.bind, hget, h]
    rfl

/-- Statistics of another type are not taken in, and leave everything as it was. -/
theorem absorb_mismatch {s later : Statistics} (h : s.dataType ≠ later.dataType) :
    absorb later s = .error (.typeMismatch s.dataType later.dataType) s := by
  have hnone : s.values.merge? later.values = none := by
    rw [Option.eq_none_iff_forall_ne_some]
    intro values hvalues
    -- Had the values been merged, the types would have been the same.
    have hmerge : s.merge later = .ok ⟨s.count + later.count, s.startTime, later.endTime, values⟩ := by
      rw [merge, hvalues]
    exact h (dataType_of_merge hmerge).1.symm
  rw [absorb_eq, merge, hnone]

/-- What the statistics become once they took in those of a later run. -/
def absorbed? (s later : Statistics) : Option Statistics :=
  match absorb later s with
  | .ok () merged => some merged
  | .error _ _ => none

/-- What is left after taking in is what the merge gives. -/
theorem absorbed?_eq (s later : Statistics) : absorbed? s later = (s.merge later).toOption := by
  rw [absorbed?, absorb_eq]
  cases s.merge later <;> rfl

end Statistics

/-! ### Cutting and merging -/

/-- How a run is put together again: it is one piece of so many points, or it is merged from two
parts, which are put together in their turn. -/
inductive Bracketing where
  | piece (length : Nat)
  | merged (earlier later : Bracketing)

namespace Bracketing

/-- The lengths of the pieces, in their order. -/
def pieces : Bracketing → List Nat
  | piece length => [length]
  | merged earlier later => earlier.pieces ++ later.pieces

/-- What comes out if the pieces of a run are summarised and their summaries merged. -/
def fold? {ρ β : Type} (split : Nat → ρ → ρ × ρ) (summary? : ρ → Option β)
    (merge? : β → β → Option β) : Bracketing → ρ → Option β
  | piece _, run => summary? run
  | merged earlier later, run => do
    let (front, rest) := split earlier.pieces.sum run
    let s ← earlier.fold? split summary? merge? front
    let t ← later.fold? split summary? merge? rest
    merge? s t

/-- What is true of the summary of a piece and is kept by a merge is true of what comes out. -/
theorem fold?_induct {ρ β : Type} {split : Nat → ρ → ρ × ρ} {summary? : ρ → Option β}
    {merge? : β → β → Option β} {P : ρ → β → Prop} (length : ρ → Nat)
    (hsplit : ∀ n run, n ≤ length run →
      length (split n run).1 = n ∧ length (split n run).2 = length run - n)
    (hpiece : ∀ run, 0 < length run → ∃ s, summary? run = some s ∧ P run s)
    (hmerged : ∀ n run s t, n ≤ length run → P (split n run).1 s → P (split n run).2 t →
      ∃ u, merge? s t = some u ∧ P run u)
    (cut : Bracketing) (run : ρ) (hcut : cut.pieces.sum = length run) (hne : 0 ∉ cut.pieces) :
    ∃ s, cut.fold? split summary? merge? run = some s ∧ P run s := by
  induction cut generalizing run with
  | piece n =>
    apply hpiece
    simp only [pieces, List.sum_singleton, List.mem_singleton] at hcut hne
    omega
  | merged earlier later ih ih' =>
    simp only [pieces, List.sum_append, List.mem_append, not_or] at hcut hne
    -- The earlier part has the lengths of its pieces, and the later one the rest.
    obtain ⟨hfront, hrest⟩ := hsplit earlier.pieces.sum run (by omega)
    obtain ⟨s, hs, hPs⟩ := ih (split earlier.pieces.sum run).1 hfront.symm hne.1
    obtain ⟨t, ht, hPt⟩ := ih' (split earlier.pieces.sum run).2 (by omega) hne.2
    obtain ⟨u, hu, hPu⟩ := hmerged earlier.pieces.sum run s t (by omega) hPs hPt
    refine ⟨u, ?_, hPu⟩
    simp only [fold?, hs, ht, Option.bind_eq_bind, Option.bind_some]
    exact hu

end Bracketing

/-- Timestamps and a column that runs along with them. -/
structure Columns where
  times : List Int64
  column : Column
  parallel : times.length = column.length

namespace Columns

def statistics? (run : Columns) : Option Statistics :=
  Statistics.ofColumns? run.times run.column

def take (n : Nat) (run : Columns) : Columns :=
  ⟨run.times.take n, run.column.take n, by simp [run.parallel]⟩

def drop (n : Nat) (run : Columns) : Columns :=
  ⟨run.times.drop n, run.column.drop n, by simp [run.parallel]⟩

def points (run : Columns) : List Point :=
  Page.join run.times run.column

variable (run : Columns) (n : Nat)

/-- The points of a front of the columns are a front of the points. -/
theorem points_take : (run.take n).points = run.points.take n := by
  simp only [points, take, Page.join, Column.values_take, List.take_zipWith]

/-- The points of a rest of the columns are a rest of the points. -/
theorem points_drop : (run.drop n).points = run.points.drop n := by
  simp only [points, drop, Page.join, Column.values_drop, List.drop_zipWith]

/-- The statistics of columns are those of their points. -/
theorem ofPoints?_points : Statistics.ofPoints? run.column.dataType run.points = run.statistics? :=
  Statistics.ofPoints?_join run.parallel

/-- Statistics that describe a run: they have the exact part of its own, and its bounds. -/
structure Describes (run : Columns) (s : Statistics) : Prop where
  exact : ∃ whole, run.statistics? = some whole ∧ s.exact = whole.exact
  bounds : s.values.Bounds run.column

variable {run : Columns} {n : Nat} {s t : Statistics}

/-- The statistics of a run that is not empty describe it. -/
theorem exists_describes (h : 0 < run.times.length) :
    ∃ s, run.statistics? = some s ∧ run.Describes s := by
  have hne : run.times ≠ [] := List.ne_nil_of_length_pos h
  obtain ⟨s, hs⟩ := Option.isSome_iff_exists.1 (Statistics.ofColumns?_isSome hne run.parallel)
  obtain ⟨-, -, -, hvalues⟩ := Statistics.ofColumns?_iff.1 hs
  exact ⟨s, hs, ⟨s, hs, rfl⟩, ValueSummary.bounds_of_ofColumn? hvalues⟩

/-- What describes two parts of a run can be merged, and then describes the run. -/
theorem Describes.merge (hs : (run.take n).Describes s) (ht : (run.drop n).Describes t) :
    ∃ u, s.absorbed? t = some u ∧ run.Describes u := by
  obtain ⟨⟨s', hs', hexact⟩, hbounds⟩ := hs
  obtain ⟨⟨t', ht', hexact'⟩, hbounds'⟩ := ht
  have htype : s.dataType = t.dataType := by
    show s.values.dataType = t.values.dataType
    rw [hbounds.dataType_eq, hbounds'.dataType_eq]
    simp [take, drop]
  obtain ⟨u, hu, -⟩ := Statistics.merge_ok htype
  obtain ⟨-, -, -, hvalues⟩ := Statistics.merge_eq_ok hu
  refine ⟨u, ?_, ?_, hbounds.merge? hbounds' hvalues⟩
  · rw [Statistics.absorbed?_eq, hu]
    rfl
  · rw [← ofPoints?_points, points_take] at hs'
    rw [← ofPoints?_points, points_drop] at ht'
    simp only [take, drop, Column.dataType_take, Column.dataType_drop] at hs' ht'
    -- The exact part is told by the points, and those of the two parts are those of the run.
    have hwhole := Statistics.exact_merge hs' hexact ht' hexact' hu
    rwa [List.take_append_drop, ofPoints?_points] at hwhole

end Columns

/-! ### Sums of 32-bit integers -/

namespace Arithmetic

/-- 32-bit integers, summed up by an addition that fails where 64 bits do not hold the sum. -/
def int32Checked : Arithmetic Int32 (Option Int64) where
  lesser := int32.lesser
  greater := int32.greater
  widen v := some (int32.widen v)
  add a b := do
    let a ← a
    let b ← b
    if (int32.add a b).toInt = a.toInt + b.toInt then some (int32.add a b) else none

/-- The sums of an arithmetic, as `total` reads them, are true sums as long as 64 bits hold them. -/
structure Totals {σ : Type} (ops : Arithmetic Int32 σ) (total : σ → Option Int) : Prop where
  widen (v : Int32) : total (ops.widen v) = some v.toInt
  add {x y : σ} {m n : Int} (hx : total x = some m) (hy : total y = some n)
    (hle : -2 ^ 63 ≤ m + n) (hlt : m + n < 2 ^ 63) : total (ops.add x y) = some (m + n)

/-- Addition in 64 bits is exact where the sum fits. -/
theorem toInt_add {x y : Int64} (hle : -2 ^ 63 ≤ x.toInt + y.toInt)
    (hlt : x.toInt + y.toInt < 2 ^ 63) : (int32.add x y).toInt = x.toInt + y.toInt := by
  show (x + y).toInt = _
  rw [Int64.toInt_add]
  exact Int.bmod_eq_of_le (by omega) (by omega)

/-- The sums of 32-bit integers are true as long as they fit. -/
theorem int32_totals : int32.Totals fun x => some x.toInt where
  widen v := by
    show some v.toInt64.toInt = _
    rw [Int32.toInt_toInt64]
  add hx hy hle hlt := by
    cases hx
    cases hy
    rw [toInt_add hle hlt]

/-- The checked sums are the same, and they exist. -/
theorem int32Checked_totals : int32Checked.Totals (Option.map Int64.toInt) where
  widen v := by
    show some v.toInt64.toInt = _
    rw [Int32.toInt_toInt64]
  add hx hy hle hlt := by
    obtain ⟨x, rfl, rfl⟩ := Option.map_eq_some_iff.1 hx
    obtain ⟨y, rfl, rfl⟩ := Option.map_eq_some_iff.1 hy
    have hsum := toInt_add hle hlt
    simp only [int32Checked, Option.bind_eq_bind, Option.bind_some, hsum, if_true, Option.map_some]

end Arithmetic

/-- So many 32-bit integers have a sum that 64 bits hold. -/
theorem sum_toInt_bounds {vs : List Int32} (h : vs.length ≤ 2 ^ 32) :
    -2 ^ 63 ≤ (vs.map Int32.toInt).sum ∧ (vs.map Int32.toInt).sum < 2 ^ 63 := by
  -- Each number is within 2 ^ 31 of zero. This is shown for runs of any length.
  have hbounds : -(2 ^ 31 * vs.length : Int) ≤ (vs.map Int32.toInt).sum ∧
      (vs.map Int32.toInt).sum ≤ (2 ^ 31 - 1) * vs.length := by
    clear h
    induction vs with
    | nil => simp
    | cons v vs ih =>
      have hlo := v.le_toInt
      have hhi := v.toInt_lt
      rw [List.map_cons, List.sum_cons, List.length_cons]
      push_cast
      omega
  omega

namespace NumberSummary

variable {σ : Type} {ops : Arithmetic Int32 σ} {total : σ → Option Int} {vs ws : List Int32}
  {s t : NumberSummary Int32 σ}

/-- Two true sums are added to a true one. -/
theorem total_add (hops : ops.Totals total) {x y : σ} (h : (vs ++ ws).length ≤ 2 ^ 32)
    (hx : total x = some (vs.map Int32.toInt).sum) (hy : total y = some (ws.map Int32.toInt).sum) :
    total (ops.add x y) = some ((vs ++ ws).map Int32.toInt).sum := by
  obtain ⟨hle, hlt⟩ := sum_toInt_bounds h
  rw [List.map_append, List.sum_append] at hle hlt ⊢
  exact hops.add hx hy hle hlt

/-- To a true sum the numbers of a list are added one by one. -/
theorem total_foldl (hops : ops.Totals total) {x : σ} (h : (vs ++ ws).length ≤ 2 ^ 32)
    (hx : total x = some (vs.map Int32.toInt).sum) :
    total ((ws.map ops.widen).foldl ops.add x) = some ((vs ++ ws).map Int32.toInt).sum := by
  -- By the numbers that are still to be added; `vs` are those in the sum so far.
  induction ws generalizing vs x with
  | nil => simpa using hx
  | cons w ws ih =>
    rw [List.append_cons] at h
    have hw : total (ops.widen w) = some ([w].map Int32.toInt).sum := by
      simp [hops.widen]
    have hnext := total_add hops (by simp only [List.length_append] at h ⊢; omega) hx hw
    simpa using ih h hnext

/-- The sum of a run that is not too long is the true one. -/
theorem total_of_ofList? (hops : ops.Totals total) (h : vs.length ≤ 2 ^ 32)
    (hs : ofList? ops vs = some s) : total s.sum = some (vs.map Int32.toInt).sum := by
  cases vs with
  | nil => contradiction
  | cons v vs =>
    simp only [ofList?, foldl_snoc, single, Option.some.injEq] at hs
    subst hs
    have hv : total (ops.widen v) = some ([v].map Int32.toInt).sum := by
      simp [hops.widen]
    exact total_foldl hops h hv

/-- Of two parts of a run that is not too long, merged, the sum is the true one of the run. -/
theorem total_merge (hops : ops.Totals total) {n : Nat} (h : vs.length ≤ 2 ^ 32)
    (hs : total s.sum = some ((vs.take n).map Int32.toInt).sum)
    (ht : total t.sum = some ((vs.drop n).map Int32.toInt).sum) :
    total (s.merge ops t).sum = some (vs.map Int32.toInt).sum := by
  rw [← List.take_append_drop n vs] at h ⊢
  exact total_add hops h hs ht

end NumberSummary

/-! ### Any cut -/

namespace Bracketing

/-- The statistics of a run, merged from those of its pieces. -/
def statistics? (cut : Bracketing) (run : Columns) : Option Statistics :=
  cut.fold? (fun n run => (run.take n, run.drop n)) Columns.statistics? Statistics.absorbed? run

/-- The summary of numbers, merged from those of the pieces. -/
def numbers? {α σ : Type} (cut : Bracketing) (ops : Arithmetic α σ) (vs : List α) :
    Option (NumberSummary α σ) :=
  cut.fold? List.splitAt (NumberSummary.ofList? ops) (fun s t => some (s.merge ops t)) vs

variable {cut : Bracketing}

/-- However a run is cut into pieces that are not empty, its statistics come out and describe it. -/
theorem exists_statistics? (run : Columns) (hcut : cut.pieces.sum = run.times.length)
    (hne : 0 ∉ cut.pieces) : ∃ s, cut.statistics? run = some s ∧ run.Describes s := by
  apply fold?_induct fun run : Columns => run.times.length
  · intro n run hn
    simp [Columns.take, Columns.drop, hn]
  · intro run hrun
    exact run.exists_describes hrun
  · intro n run s t hn hs ht
    exact hs.merge ht
  · exact hcut
  · exact hne

/-- No addition on the way leaves 64 bits. -/
theorem exists_numbers?_checked {vs : List Int32} (hlen : vs.length ≤ 2 ^ 32)
    (hcut : cut.pieces.sum = vs.length) (hne : 0 ∉ cut.pieces) :
    ∃ u sum, cut.numbers? .int32Checked vs = some u ∧ u.sum = some sum ∧
      sum.toInt = (vs.map Int32.toInt).sum := by
  -- The bound on the length goes into what is shown of every part, since the parts of a run are
  -- shorter.
  have hall : ∃ u, cut.numbers? .int32Checked vs = some u ∧ (vs.length ≤ 2 ^ 32 →
      u.sum.map Int64.toInt = some (vs.map Int32.toInt).sum) := by
    apply fold?_induct List.length
    · intro n vs hn
      simp [hn]
    · intro vs hvs
      cases vs with
      | nil => contradiction
      | cons v vs =>
        refine ⟨_, rfl, fun h => ?_⟩
        exact NumberSummary.total_of_ofList? Arithmetic.int32Checked_totals h rfl
    · intro n vs s t hn hs ht
      refine ⟨_, rfl, fun h => ?_⟩
      rw [List.splitAt_eq] at hs ht
      apply NumberSummary.total_merge Arithmetic.int32Checked_totals h
      · exact hs (by simp; omega)
      · exact ht (by simp; omega)
    · exact hcut
    · exact hne
  obtain ⟨u, hu, hsum⟩ := hall
  obtain ⟨sum, hsome, htotal⟩ := Option.map_eq_some_iff.1 (hsum hlen)
  exact ⟨u, sum, hu, hsome, htotal⟩

/-- Statistics that are merged from those of pieces describe the run as its own do: they agree with
them in all but rounded sums and the choice between numbers that compare equal, and the bounds of
both are numerically the least and the greatest. A sum of 32-bit integers is exact, and no addition
on the way to it overflows. What has another type is refused and changes nothing. -/
theorem statistics_merged (run : Columns) (hcut : cut.pieces.sum = run.times.length)
    (hne : 0 ∉ cut.pieces) :
    (∃ s whole, cut.statistics? run = some s ∧ run.statistics? = some whole ∧
      s.exact = whole.exact ∧ s.values.Bounds run.column ∧ whole.values.Bounds run.column ∧
      ∀ vs, run.column = .int32 vs → vs.length ≤ 2 ^ 32 →
        ∃ m u, s.values = .int32 m ∧ m.sum.toInt = (vs.map Int32.toInt).sum ∧
          cut.numbers? .int32Checked vs = some u ∧ u.sum = some m.sum) ∧
    ∀ s later : Statistics, s.dataType ≠ later.dataType →
      Statistics.absorb later s = .error (.typeMismatch s.dataType later.dataType) s := by
  refine ⟨?_, fun s later h => Statistics.absorb_mismatch h⟩
  obtain ⟨s, hs, ⟨whole, hwhole, hexact⟩, hbounds⟩ := exists_statistics? run hcut hne
  obtain ⟨-, -, -, hvalues⟩ := Statistics.ofColumns?_iff.1 hwhole
  refine ⟨s, whole, hs, hwhole, hexact, hbounds, ValueSummary.bounds_of_ofColumn? hvalues, ?_⟩
  intro vs hcolumn hlen
  rw [hcolumn] at hvalues
  obtain ⟨m, hm, hsummary⟩ := Option.map_eq_some_iff.1 hvalues
  have hsum := NumberSummary.total_of_ofList? Arithmetic.int32_totals hlen hm
  have hlength : cut.pieces.sum = vs.length := by
    rw [hcut, run.parallel, hcolumn]
    rfl
  obtain ⟨u, sum, hu, husum, hchecked⟩ := exists_numbers?_checked hlen hlength hne
  refine ⟨m, u, ?_, Option.some.inj hsum, hu, ?_⟩
  · -- Of 32-bit integers all of the summary is exact.
    apply ValueSummary.eq_int32_of_exact
    rw [(ExactStatistics.mk.inj hexact).2.2.2, ← hsummary]
    rfl
  · rw [husum, ← Int64.toInt_inj.1 (hchecked.trans (Option.some.inj hsum).symm)]

def sampleColumns : Columns :=
  ⟨[-5, 0, 1, 7], .int32 [-2147483648, 3, -2147483648, 2], rfl⟩

def sampleCut : Bracketing :=
  .merged (.piece 1) (.merged (.piece 2) (.piece 1))

/-- Four 32-bit integers in three pieces, with a sum that 32 bits do not hold. -/
theorem statistics_merged_sample :
    sampleCut.pieces.sum = sampleColumns.times.length ∧ 0 ∉ sampleCut.pieces ∧
      (∃ s whole, sampleCut.statistics? sampleColumns = some s ∧
        sampleColumns.statistics? = some whole ∧ s.exact = whole.exact ∧
        s.values.Bounds sampleColumns.column ∧
        ∃ m u, s.values = .int32 m ∧ m.sum.toInt = -4294967291 ∧
          sampleCut.numbers? .int32Checked [-2147483648, 3, -2147483648, 2] = some u ∧
          u.sum = some m.sum) ∧
      ∃ s later : Statistics, s.dataType ≠ later.dataType ∧
        Statistics.absorb later s = .error (.typeMismatch .text .boolean) s := by
  have hcut : sampleCut.pieces.sum = sampleColumns.times.length := by decide
  have hne : 0 ∉ sampleCut.pieces := by decide
  obtain ⟨⟨s, whole, hs, hwhole, hexact, hbounds, -, hsum⟩, hmismatch⟩ :=
    statistics_merged sampleColumns hcut hne
  refine ⟨hcut, hne, ⟨s, whole, hs, hwhole, hexact, hbounds, ?_⟩, ?_⟩
  · exact hsum _ rfl (by decide)
  · exact ⟨⟨1, 0, 0, .text "a" "a"⟩, ⟨1, 1, 1, .boolean true true 1⟩, by decide,
      hmismatch _ _ (by decide)⟩

end Bracketing

end SeriesFile
