import SeriesFile.Footer
import SeriesFile.Proofs.Filters

/-!
# Looking up a series

The two steps by which a series is looked up in a footer lose nothing. The filter lets through every
series of the footer (`Footer.mayContain_build`), and the search by halves ends at the entry of the
series if there is one (`Footer.bisect_eq`). So looking up finds the entries
of the series, and no others (`Footer.find?_of_mem`, `Footer.find?_of_not_mem`).
-/

namespace SeriesFile

namespace Footer

/-! ### The filter -/

section

variable [Logarithm] [PathHash] (schemas : Registry) (series : List SeriesEntry) (rateBits : UInt64)

/-- The filter of a footer is made of its series, from the first on. -/
theorem bloom_build : (build schemas series rateBits).bloom =
    (series.map SeriesEntry.key).foldl Bloom.insert (Bloom.new series.length rateBits) :=
  List.foldl_map.symm

/-- The filter of a footer has words, also without series. -/
theorem words_build_ne_nil : (build schemas series rateBits).bloom.words ≠ [] := by
  intro h
  have hpos := Bloom.size_new_pos series.length rateBits
  rw [← Bloom.size_foldl_insert (series.map SeriesEntry.key), ← bloom_build schemas, Bloom.size,
    h] at hpos
  exact Nat.lt_irrefl 0 hpos

/-- The filter of a footer denies none of its series. -/
theorem mayContain_build {e : SeriesEntry} (h : e ∈ series) :
    (build schemas series rateBits).bloom.mayContain e.key := by
  rw [bloom_build]
  exact Bloom.mayContain_foldl_insert (Bloom.size_new_pos _ _) (.inr (List.mem_map_of_mem h))

end

/-! ### The search by halves -/

/-- The entries of a footer are in the order of the series, each series once. -/
def Ascends (entries : List SeriesEntry) : Prop :=
  entries.Pairwise fun a b => compare a.key b.key = .lt

/-- Whatever half is left out, the entry of the series is in the other one. -/
theorem bisect_eq {entries : List SeriesEntry} {key : SeriesKey} {i : Nat} {e : SeriesEntry}
    (ha : Ascends entries) (he : entries[i]? = some e) (hk : e.key = key) {turns base size : Nat}
    (hturns : size ≤ turns + 1) (hbase : base ≤ i) (hi : i < base + size)
    (hsize : base + size ≤ entries.length) : bisect entries key turns base size = i := by
  have hself : compare key key = .eq := Std.ReflCmp.compare_self
  -- Places and series are in the same order.
  have order {j k : Nat} {a b : SeriesEntry} (hjk : j < k) (hj : entries[j]? = some a)
      (hk : entries[k]? = some b) : compare a.key b.key = .lt := by
    obtain ⟨hj', rfl⟩ := List.getElem?_eq_some_iff.1 hj
    obtain ⟨hk', rfl⟩ := List.getElem?_eq_some_iff.1 hk
    exact List.pairwise_iff_getElem.1 ha j k hj' hk' hjk
  induction turns generalizing base size with
  | zero =>
    show base = i
    omega
  | succ turns ih =>
    rw [bisect]
    by_cases hone : size ≤ 1
    · rw [if_pos hone]
      omega
    · rw [if_neg hone]
      obtain ⟨m, hm⟩ : ∃ m, entries[base + size / 2]? = some m :=
        ⟨_, List.getElem?_eq_getElem (by omega)⟩
      dsimp only
      rw [hm, Option.any_some]
      split
      · rename_i habove
        have habove : compare m.key key = .gt := of_decide_eq_true habove
        -- The middle comes after the series, and so is not its entry nor before it.
        have hlow : i < base + size / 2 := by
          rcases Nat.lt_trichotomy i (base + size / 2) with h | h | h
          · exact h
          · rw [← h, he] at hm
            rw [← Option.some.inj hm, hk, hself] at habove
            contradiction
          · rw [← hk, order h hm he] at habove
            contradiction
        exact ih (by omega) hbase (by omega) (by omega)
      · rename_i habove
        -- The middle does not come after the series, so the entry is there or behind.
        have hhigh : base + size / 2 ≤ i := by
          rcases Nat.lt_or_ge i (base + size / 2) with h | h
          · have hlt := order h he hm
            rw [hk] at hlt
            exact (habove (decide_eq_true (Std.OrientedCmp.gt_iff_lt.2 hlt))).elim
          · exact h
        exact ih (by omega) hhigh (by omega) (by omega)

/-- A series that the filter lets through is found at its entry. -/
theorem find?_of_mem [PathHash] {f : Footer} {e : SeriesEntry} (ha : Ascends f.series)
    (he : e ∈ f.series) (hb : f.bloom.mayContain e.key) : f.find? e.key = some e := by
  obtain ⟨i, hi⟩ := List.mem_iff_getElem?.1 he
  obtain ⟨hlt, -⟩ := List.getElem?_eq_some_iff.1 hi
  have hplace : bisect f.series e.key f.series.length 0 f.series.length = i :=
    bisect_eq ha hi rfl (Nat.le_succ _) (Nat.zero_le i) (by omega) (by omega)
  rw [find?, if_pos hb, hplace, hi]
  simp

/-- A series without an entry is not found, whatever the filter says. -/
theorem find?_of_not_mem [PathHash] {f : Footer} {key : SeriesKey}
    (h : ∀ e ∈ f.series, e.key ≠ key) : f.find? key = none := by
  rw [find?]
  split
  · -- What the search ends at is compared with the series once more.
    rw [Option.filter_eq_none_iff]
    intro e he
    simpa using h e (List.mem_of_getElem? he)
  · rfl

end Footer

end SeriesFile
