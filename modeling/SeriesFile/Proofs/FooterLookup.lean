import SeriesFile.Proofs.FooterRoundTrip
import SeriesFile.Proofs.Refusals

/-!
# Looking up is exact

A footer gives the entry of a series if it has one, and no other: after it was built, and again
after it was written and read back (`Footer.find?_exact`). Neither the rate nor the logarithm nor
the hash of the filter matters, nor do series whose paths are the same. So the footer of an open
writer answers as its index does (`Writer.Reachable.find?_footer`).
-/

namespace SeriesFile

namespace Footer

variable [Logarithm] [PathHash] (schemas : Registry) {series : List SeriesEntry}
  (rateBits : UInt64)

/-- A footer that was built from ascending entries gives exactly these. -/
theorem find?_build_iff (ha : Ascends series) {key : SeriesKey} {e : SeriesEntry} :
    (build schemas series rateBits).find? key = some e ↔ e ∈ series ∧ e.key = key := by
  -- The filter lets every entry through, and the search finds it.
  have found {e : SeriesEntry} (he : e ∈ series) :
      (build schemas series rateBits).find? e.key = some e :=
    find?_of_mem ha he (mayContain_build schemas series rateBits he)
  constructor
  · intro h
    by_cases hmem : ∃ e' ∈ series, e'.key = key
    · obtain ⟨e', he', rfl⟩ := hmem
      rw [found he'] at h
      cases h
      exact ⟨he', rfl⟩
    · rw [find?_of_not_mem fun e' he' hkey => hmem ⟨e', he', hkey⟩] at h
      contradiction
  · rintro ⟨he, rfl⟩
    exact found he

/-- In ascending entries a series is found at its entry, and a series without an entry is not found;
the same holds of the footer that is read from the bytes of this one, if these fit the tail. -/
theorem find?_exact (ha : Ascends series) :
    (∀ key e, (build schemas series rateBits).find? key = some e ↔ e ∈ series ∧ e.key = key) ∧
    (∀ key, (∀ e ∈ series, e.key ≠ key) → (build schemas series rateBits).find? key = none) ∧
    ((∀ e ∈ series, ∃ key chunks, SeriesEntry.Lists key chunks e) →
      (build schemas series rateBits).write.length < 2 ^ 32 →
      ∀ rest, ∃ again, read ((build schemas series rateBits).write ++ rest) = .ok (again, rest) ∧
        (∀ key e, again.find? key = some e ↔ e ∈ series ∧ e.key = key) ∧
        ∀ key, (∀ e ∈ series, e.key ≠ key) → again.find? key = none) := by
  have hsome (key : SeriesKey) (e : SeriesEntry) :
      (build schemas series rateBits).find? key = some e ↔ e ∈ series ∧ e.key = key :=
    find?_build_iff schemas rateBits ha
  have hnone (key : SeriesKey) (h : ∀ e ∈ series, e.key ≠ key) :
      (build schemas series rateBits).find? key = none := find?_of_not_mem h
  refine ⟨hsome, hnone, fun hlists hlength rest => ?_⟩
  -- What is read is the same footer, so the answers are the same.
  obtain ⟨hread, -, -⟩ := read_write hlists (words_build_ne_nil schemas series rateBits) hlength
  exact ⟨_, hread rest, hsome, hnone⟩

end Footer

/-- The footer of an index answers as the index does. -/
theorem Indexed.find?_footer [Compressor] [Logarithm] [PathHash] {registry : Registry}
    {runs : List Run} {index : SeriesTable SeriesEntry} (h : Indexed registry runs index)
    (schemas : Registry) (rateBits : UInt64) (key : SeriesKey) :
    (Footer.build schemas index.values rateBits).find? key = index.find? key := by
  cases hfind : index.find? key with
  | some e =>
    have hentry := SeriesTable.find?_eq_some_iff.1 hfind
    rw [Footer.find?_build_iff schemas rateBits h.ascends_values]
    exact ⟨List.mem_map_of_mem hentry, (h.lists_of_mem hentry).key_eq⟩
  | none =>
    apply Footer.find?_of_not_mem
    -- An entry under this key would be in the index.
    rintro e he rfl
    obtain ⟨⟨key, e⟩, hentry, rfl⟩ := List.mem_map.1 he
    rw [(h.lists_of_mem hentry).key_eq, SeriesTable.find?_eq_some_iff.2 hentry] at hfind
    contradiction

/-- The footer that an open writer would write answers as its index does. -/
theorem Writer.Reachable.find?_footer {σ : Type} [Sink σ] [Compressor] [Logarithm] {w : Writer σ}
    (h : w.Reachable) (hs : w.state = .active) (key : SeriesKey) :
    w.footer.find? key = w.index.find? key := by
  obtain ⟨o, ledger, runs, hholds⟩ := h.keeps hs
  exact hholds.indexed.find?_footer w.registry w.options.bloomRateBits key

/-! ### A sample -/

section

attribute [local instance] sampleLogarithm

/-- Two series of one path, and one with an empty name. -/
def sampleEntries : List SeriesEntry := [
  .single ⟨"a", "b.c"⟩ ⟨5, ⟨1, 3, 3, .text "x" "x"⟩⟩,
  .single ⟨"a.b", "c"⟩ ⟨40, ⟨2, 3, 4, .text "y" "z"⟩⟩,
  .single ⟨"日", ""⟩ ⟨70, ⟨1, 9, 9, .boolean true true 1⟩⟩]

/-- The sample is in the order of devices and names. -/
theorem ascends_sampleEntries : Footer.Ascends sampleEntries := by
  unfold Footer.Ascends
  decide

/-- Each entry of the sample is made of its one chunk. -/
theorem lists_sampleEntries :
    ∀ e ∈ sampleEntries, ∃ key chunks, SeriesEntry.Lists key chunks e := by
  simp only [sampleEntries, List.forall_mem_cons, List.not_mem_nil, false_implies, implies_true,
    and_true]
  exact ⟨⟨_, _, .single _⟩, ⟨_, _, .single _⟩, ⟨_, _, .single _⟩⟩

/-- With a rate that is not a number: the two are told apart, a third series of their path is not
found, and what was read back answers the same. -/
theorem find?_exact_sample :
    let footer := Footer.build SeriesTable.empty sampleEntries 0x7FF8000000000001
    footer.find? ⟨"a", "b.c"⟩ = some (.single ⟨"a", "b.c"⟩ ⟨5, ⟨1, 3, 3, .text "x" "x"⟩⟩) ∧
      footer.find? ⟨"a.b", "c"⟩ = some (.single ⟨"a.b", "c"⟩ ⟨40, ⟨2, 3, 4, .text "y" "z"⟩⟩) ∧
      footer.find? ⟨"", "a.b.c"⟩ = none ∧
      ∃ again, Footer.read (footer.write ++ [7]) = .ok (again, [7]) ∧
        again.find? ⟨"日", ""⟩ = some (.single ⟨"日", ""⟩ ⟨70, ⟨1, 9, 9, .boolean true true 1⟩⟩) ∧
        again.find? ⟨"日", "t"⟩ = none := by
  intro footer
  obtain ⟨hsome, hnone, hread⟩ := Footer.find?_exact SeriesTable.empty 0x7FF8000000000001
    ascends_sampleEntries
  have hlength : footer.write.length < 2 ^ 32 := by decide +kernel
  obtain ⟨again, hagain, hsome', hnone'⟩ := hread lists_sampleEntries hlength [7]
  exact ⟨(hsome _ _).2 ⟨by simp [sampleEntries], rfl⟩, (hsome _ _).2 ⟨by simp [sampleEntries], rfl⟩,
    hnone _ (by decide), again, hagain, (hsome' _ _).2 ⟨by simp [sampleEntries], rfl⟩,
    hnone' _ (by decide)⟩

end

end SeriesFile
