import SeriesFile.Codec.Gzip
import SeriesFile.Codec.Lz4
import SeriesFile.Codec.Snappy
import SeriesFile.Codec.Zstd

/-!
# Compression of pages

A page is stored in one of five forms. Restoring understands all of a form, whoever wrote it; what
is restored must have the number of bytes that was recorded for it.

How a form is written is left to a `Compressor`, of which no more is asked than that what it makes
can be restored. `compress` keeps a page as it is inside the chosen form (`restore?_compress`), and
is the compressor that is used unless another one is given.
-/

namespace SeriesFile

namespace Compression

/-- A page in the chosen form. -/
def compress (form : Compression) (page : Bytes) : Bytes :=
  match form with
  | uncompressed => page
  | snappy => Codec.Snappy.compress page
  | gzip => Codec.Gzip.compress page
  | lz4 => Codec.Lz4.compress page
  | zstd => Codec.Zstd.compress page

/-- The page that data of the chosen form holds. -/
def restore? (form : Compression) (data : Bytes) : Option Bytes :=
  match form with
  | uncompressed => some data
  | snappy => Codec.Snappy.decompress data
  | gzip => Codec.Gzip.decompress data
  | lz4 => Codec.Lz4.decompress data
  | zstd => Codec.Zstd.decompress data

/-- The page of `length` bytes that data of the chosen form holds. -/
def decompress (form : Compression) (length : Nat) (data : Bytes) : Except Fault Bytes :=
  match form.restore? data with
  | none => .error (.compressionFailure (.malformed form))
  | some page =>
    if page.length = length then .ok page
    else .error (.compressionFailure (.wrongLength form page.length length))

/-- Two of the forms record the length of the page in 32 bits. -/
theorem restore?_compress (form : Compression) {page : Bytes} (h : page.length < 2 ^ 32) :
    form.restore? (form.compress page) = some page := by
  cases form with
  | uncompressed => rfl
  | snappy => exact Codec.Snappy.decompress_compress h
  | gzip => exact Codec.Gzip.decompress_compress
  | lz4 => exact Codec.Lz4.decompress_compress h
  | zstd => exact Codec.Zstd.decompress_compress page

end Compression

/-- Brings pages into the chosen form. -/
class Compressor where
  /-- A page in the chosen form, or why it cannot be brought into it. -/
  compress : Compression → Bytes → Except CodecCause Bytes
  /-- The page can be restored, if its length fits the field that records it. -/
  restore?_of_compress : ∀ {form : Compression} {page data : Bytes},
    compress form page = .ok data → page.length < 2 ^ 32 → form.restore? data = some page

instance : Compressor where
  compress form page := .ok (form.compress page)
  restore?_of_compress {form page data} h fits := by
    rw [← Except.ok.inj h]
    exact form.restore?_compress fits

namespace Compression

variable [Compressor]

/-- The payload that a page is stored as. A page that is stored as it is needs no compressor. -/
def pack (form : Compression) (page : Bytes) : Except Fault Bytes :=
  if form = uncompressed then .ok page
  else (Compressor.compress form page).mapError .compressionFailure

/-- What was packed is the page that the recorded length asks for. -/
theorem decompress_of_pack {form : Compression} {page data : Bytes} (h : form.pack page = .ok data)
    (fits : page.length < 2 ^ 32) : form.decompress page.length data = .ok page := by
  have restored : form.restore? data = some page := by
    unfold pack at h
    split at h
    · rename_i hform
      rw [hform, ← Except.ok.inj h]
      rfl
    · rcases hc : Compressor.compress form page with cause | packed
      · rw [hc] at h
        contradiction
      · rw [hc] at h
        rw [← Except.ok.inj h]
        exact Compressor.restore?_of_compress hc fits
  simp [decompress, restored]

end Compression

end SeriesFile
