import SeriesFile.Bytes.Varint

/-!
# Pages of differences

The first value is written as it is, every later one as its difference from the value before, a
signed varint. Differences of 64-bit numbers wrap around, so any two neighbours can be told apart
by one. Differences of 32-bit numbers are exact, and one that leads out of the 32-bit range is
refused when read.
-/

namespace SeriesFile.Page.Difference

/-- The differences of 64-bit numbers that follow `previous`. -/
def differences64 (previous : Int64) : List Int64 → Bytes
  | [] => []
  | v :: vs => Varint.encodeSigned (v - previous) ++ differences64 v vs

/-- 64-bit numbers: the first, then differences. -/
def encode64 : List Int64 → Bytes
  | [] => []
  | v :: vs => Bytes.i64 v ++ differences64 v vs

/-- The next `count` 64-bit numbers after `previous`. -/
def following64 (previous : Int64) : (count : Nat) → Reader (List Int64)
  | 0 => pure []
  | count + 1 => do
    let difference ← Reader.signedVarint
    let v := previous + difference
    let vs ← following64 v count
    return v :: vs

def decode64 : (count : Nat) → Reader (List Int64)
  | 0 => pure []
  | count + 1 => do
    Reader.require .firstValue 8
    let v ← Reader.i64
    let vs ← following64 v count
    return v :: vs

/-- The differences of 32-bit numbers that follow `previous`. -/
def differences32 (previous : Int32) : List Int32 → Bytes
  | [] => []
  | v :: vs => Varint.encodeSigned (v.toInt64 - previous.toInt64) ++ differences32 v vs

/-- 32-bit numbers: the first, then differences. -/
def encode32 : List Int32 → Bytes
  | [] => []
  | v :: vs => Bytes.i32 v ++ differences32 v vs

/-- The 32-bit number that a difference leads to, if there is one. -/
def step32 (previous : Int32) (difference : Int64) : Option Int32 :=
  let next := previous.toInt + difference.toInt
  if -2 ^ 31 ≤ next ∧ next < 2 ^ 31 then some (Int32.ofInt next) else none

/-- The next `count` 32-bit numbers after `previous`. -/
def following32 (previous : Int32) : (count : Nat) → Reader (List Int32)
  | 0 => pure []
  | count + 1 => do
    let difference ← Reader.signedVarint
    match step32 previous difference with
    | none => Reader.fail (.corrupted (.int32DeltaOutOfRange difference))
    | some v =>
      let vs ← following32 v count
      return v :: vs

def decode32 : (count : Nat) → Reader (List Int32)
  | 0 => pure []
  | count + 1 => do
    Reader.require .firstValue 4
    let v ← Reader.i32
    let vs ← following32 v count
    return v :: vs

end SeriesFile.Page.Difference
