/-!
# Names of series

A series is named by its device and its measurement. Series are ordered by device first, then by
measurement; each name is compared by its characters, which is also the order of its UTF-8 bytes.
-/

namespace SeriesFile

/-- The name of a series. -/
structure SeriesKey where
  device : String
  measurement : String
  deriving DecidableEq, Repr

namespace SeriesKey

/-- The order of series: device, then measurement. -/
instance : Ord SeriesKey :=
  ⟨compareLex (compareOn SeriesKey.device) (compareOn SeriesKey.measurement)⟩

instance : Std.TransOrd SeriesKey :=
  inferInstanceAs (Std.TransCmp (compareLex (compareOn SeriesKey.device)
    (compareOn SeriesKey.measurement)))

instance : Std.LawfulEqOrd SeriesKey where
  compare_self := Std.ReflCmp.compare_self
  eq_of_compare {a b} h := by
    obtain ⟨hd, hm⟩ : compare a.device b.device = .eq ∧
        compare a.measurement b.measurement = .eq := by
      simpa [compare, compareLex, compareOn, Ordering.then_eq_eq] using h
    cases a
    cases b
    simp_all [Std.LawfulEqCmp.compare_eq_iff_eq]

/-- Device and measurement joined by a dot. Two different series may share a path. -/
def path (k : SeriesKey) : String :=
  k.device ++ "." ++ k.measurement

end SeriesKey

end SeriesFile
