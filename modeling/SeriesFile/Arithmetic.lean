/-!
# Ordering and adding numbers

What a summary of numbers needs: the lesser and the greater of two, and a sum that is wider than
the numbers. `Arithmetic` collects these for the four numeric types.

Floating-point numbers are given by their bits and compared by them: the magnitude is the bits
without the sign, and the sign turns it around. The two zeros compare equal. A NaN is passed over
for any number.
-/

namespace SeriesFile

namespace Binary32

/-- Whether bits are a NaN: a full exponent with anything after it. -/
def isNaN (bits : UInt32) : Bool :=
  0x7F800000 < bits &&& 0x7FFFFFFF

/-- A number in the order of the values that bits stand for. -/
def rank (bits : UInt32) : Int :=
  if bits &&& 0x80000000 = 0 then bits.toNat else -((bits &&& 0x7FFFFFFF).toNat : Int)

def widen (bits : UInt32) : UInt64 :=
  (Float32.ofBits bits).toFloat.toBits

end Binary32

namespace Binary64

/-- Whether bits are a NaN: a full exponent with anything after it. -/
def isNaN (bits : UInt64) : Bool :=
  0x7FF0000000000000 < bits &&& 0x7FFFFFFFFFFFFFFF

/-- A number in the order of the values that bits stand for. -/
def rank (bits : UInt64) : Int :=
  if bits &&& 0x8000000000000000 = 0 then bits.toNat
  else -((bits &&& 0x7FFFFFFFFFFFFFFF).toNat : Int)

/-- The bits of a sum, rounded to the nearest number. -/
def add (a b : UInt64) : UInt64 :=
  (Float.ofBits a + Float.ofBits b).toBits

/-- The bits of the number nearest to an integer. -/
def ofInt64 (n : Int64) : UInt64 :=
  n.toFloat.toBits

end Binary64

/-- How values of type `α` are compared, and summed up as values of type `σ`. -/
structure Arithmetic (α σ : Type) where
  lesser : α → α → α
  greater : α → α → α
  widen : α → σ
  add : σ → σ → σ

namespace Arithmetic

/-- The lesser by rank; what is not a number is passed over. -/
def lesserBy {α : Type} (isNaN : α → Bool) (rank : α → Int) (a b : α) : α :=
  if isNaN a then b else if isNaN b then a else if rank b < rank a then b else a

/-- The greater by rank; what is not a number is passed over. -/
def greaterBy {α : Type} (isNaN : α → Bool) (rank : α → Int) (a b : α) : α :=
  if isNaN a then b else if isNaN b then a else if rank a < rank b then b else a

def int32 : Arithmetic Int32 Int64 where
  lesser a b := if b < a then b else a
  greater a b := if a < b then b else a
  widen := Int32.toInt64
  add := (· + ·)

/-- 64-bit integers, summed up as doubles. -/
def int64 : Arithmetic Int64 UInt64 where
  lesser a b := if b < a then b else a
  greater a b := if a < b then b else a
  widen := Binary64.ofInt64
  add := Binary64.add

def float : Arithmetic UInt32 UInt64 where
  lesser := lesserBy Binary32.isNaN Binary32.rank
  greater := greaterBy Binary32.isNaN Binary32.rank
  widen := Binary32.widen
  add := Binary64.add

def double : Arithmetic UInt64 UInt64 where
  lesser := lesserBy Binary64.isNaN Binary64.rank
  greater := greaterBy Binary64.isNaN Binary64.rank
  widen := id
  add := Binary64.add

end Arithmetic

end SeriesFile
