/-!
# Earlier editions

The format had other editions before it settled, each with a first number of its own.
-/

namespace SeriesFile.Codec.Zstd.Older

/-- An edition of the format. -/
inductive Edition where
  | fourth
  | fifth
  | sixth
  | seventh
  deriving DecidableEq, Repr

/-- The edition of the frames that start with a number. -/
def Edition.ofStart? (start : Nat) : Option Edition :=
  if start = 0xFD2FB524 then some .fourth
  else if start = 0xFD2FB525 then some .fifth
  else if start = 0xFD2FB526 then some .sixth
  else if start = 0xFD2FB527 then some .seventh
  else none

end SeriesFile.Codec.Zstd.Older
