import SeriesFile.Proofs.Index

/-!
# Every footer is read back

A footer that fits the tail is read back from its own bytes, whatever stands behind them, and not
from less (`Footer.read_write`). Two things are not said of such a footer and yet hold.

Numbers of series, chunks and words are written in 32 bits each, and nothing looks whether they fit.
They do, because everything that is counted takes up at least a byte of the footer, whose length was
looked at (`Footer.CountsFit`). And what stands in an entry is read by the type that the entry
states, while it is written by its own. Both are the same, because an entry is made of its first
chunk and takes others only by merging (`SeriesEntry.Lists.typed`).
-/

namespace SeriesFile

open Reader (Reads)

namespace Footer

/-- Every number of things in a footer is recorded as it is. -/
structure CountsFit (f : Footer) : Prop where
  schemas : (UInt32.ofNat f.schemas.size).toNat = f.schemas.size
  series : (UInt32.ofNat f.series.length).toNat = f.series.length
  chunks : ∀ e ∈ f.series, (UInt32.ofNat e.chunks.length).toNat = e.chunks.length
  words : (UInt32.ofNat f.bloom.words.length).toNat = f.bloom.words.length

/-- What is counted takes up bytes of the footer, so the numbers fit if the length does. -/
theorem countsFit_of_length {f : Footer} (h : f.write.length < 2 ^ 32) : f.CountsFit := by
  obtain ⟨hschemas, hseries, hentries, hbloom⟩ := length_parts_lt h
  constructor
  case schemas => exact UInt32.toNat_ofNat_of_lt' (Registry.size_lt_of_length hschemas)
  case series => exact UInt32.toNat_ofNat_of_lt' hseries
  case words => exact UInt32.toNat_ofNat_of_lt' (Bloom.length_words_lt hbloom)
  case chunks =>
    intro e he
    have hchunks := e.mul_length_chunks_le
    have hlength := hentries e he
    apply UInt32.toNat_ofNat_of_lt'
    show e.chunks.length < 2 ^ 32
    omega

/-- Entries that were made chunk by chunk, and a filter with words, are all that a footer needs. -/
theorem sound_of_lists {f : Footer}
    (hseries : ∀ e ∈ f.series, ∃ key chunks, SeriesEntry.Lists key chunks e)
    (hbloom : f.bloom.words ≠ []) : f.Sound := by
  refine ⟨fun e he => ?_, hbloom⟩
  obtain ⟨key, chunks, hlists⟩ := hseries e he
  exact hlists.typed

/-- A footer with entries that were made chunk by chunk is read back if its length fits the tail:
from its bytes and any others behind them, which are left, but not from a part of its bytes. All
that it counts is recorded as it is. -/
theorem read_write {f : Footer}
    (hseries : ∀ e ∈ f.series, ∃ key chunks, SeriesEntry.Lists key chunks e)
    (hbloom : f.bloom.words ≠ []) (h : f.write.length < 2 ^ 32) :
    (∀ rest, read (f.write ++ rest) = .ok (f, rest)) ∧
      (∀ front, front <+: f.write → front ≠ f.write → ∃ fault, read front = .error fault) ∧
      f.CountsFit := by
  have hreads : Reads read f.write f := reads h (sound_of_lists hseries hbloom)
  refine ⟨hreads, ?_, countsFit_of_length h⟩
  intro front hfront hne
  exact hreads.error_of_front local_read hfront hne

end Footer

/-- Two texts that were merged, a NaN with a payload, and a series without chunks. -/
def sampleFooter : Footer where
  schemas := ((SeriesTable.empty.insert ⟨"d", "n"⟩ ⟨.text, .plain, .gzip⟩).insert ⟨"d", "v"⟩
    ⟨.double, .gorilla, .snappy⟩).insert ⟨"e", ""⟩ ⟨.boolean, .plain, .uncompressed⟩
  series := [
    { key := ⟨"d", "n"⟩
      dataType := .text
      statistics := ⟨3, -4, 9, .text "a" ""⟩
      chunks := [⟨5, ⟨2, -4, 8, .text "a" "日"⟩⟩, ⟨60, ⟨1, 9, 9, .text "" ""⟩⟩] },
    .single ⟨"d", "v"⟩ ⟨90, ⟨1, 0, 0, .double ⟨0x7FF8000000000001, 0x7FF8000000000001,
      0x7FF8000000000001, 0x7FF8000000000001, 0x7FF8000000000001⟩⟩⟩]
  bloom := ⟨[5], 3⟩

/-- The entries of the sample are made of their chunks: the first of two texts that were merged. -/
theorem lists_sampleFooter :
    ∀ e ∈ sampleFooter.series, ∃ key chunks, SeriesEntry.Lists key chunks e := by
  intro e he
  rcases List.mem_cons.1 he with rfl | he
  · exact ⟨⟨"d", "n"⟩, _, .push (.single ⟨5, ⟨2, -4, 8, .text "a" "日"⟩⟩)
      (c := ⟨60, ⟨1, 9, 9, .text "" ""⟩⟩) rfl⟩
  · rw [List.mem_singleton.1 he]
    exact ⟨_, _, .single _⟩

/-- The sample is read back from its bytes with two more behind them, and not from its first
hundred. -/
theorem read_write_sample :
    sampleFooter.write.length < 2 ^ 32 ∧
      Footer.read (sampleFooter.write ++ [7, 0]) = .ok (sampleFooter, [7, 0]) ∧
      ∃ fault, Footer.read (sampleFooter.write.take 100) = .error fault := by
  have hlength : sampleFooter.write.length < 2 ^ 32 := by decide +kernel
  have hbloom : sampleFooter.bloom.words ≠ [] := by decide
  obtain ⟨hwhole, hfront, -⟩ := Footer.read_write lists_sampleFooter hbloom hlength
  exact ⟨hlength, hwhole [7, 0], hfront _ (List.take_prefix _ _) (by decide +kernel)⟩

end SeriesFile
