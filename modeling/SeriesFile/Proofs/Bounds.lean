import SeriesFile.Proofs.Merging
import Mathlib.Order.Monotone.Basic

/-!
# Bounds of numbers

Bits of a floating-point number are compared by their rank. What the bits stand for is
`binaryValue`, and the order of ranks is the order of these values (`binaryValue_lt_iff`). So the
bounds in a summary are numerically the least and the greatest of all values that are numbers, and a
NaN only if there is no number at all (`NumberSummary.Bounds`). A summary of a run has such bounds,
and summaries of two runs that are merged have those of both runs together.
-/

namespace SeriesFile

/-! ### What bits stand for -/

/-- The magnitude that an exponent and a fraction of `w` bits stand for, both of them in one number,
as a multiple of the least positive magnitude. -/
def binaryUnits (w n : Nat) : Nat :=
  if n / 2 ^ w = 0 then n % 2 ^ w else (2 ^ w + n % 2 ^ w) * 2 ^ (n / 2 ^ w - 1)

/-- The number that bits stand for, as a multiple of the least positive number: below a sign there
are `e` bits of exponent and `w` of fraction. Infinity counts as the number that would come after
the greatest one. -/
def binaryValue (e w bits : Nat) : Int :=
  if bits / 2 ^ (w + e) % 2 = 0 then binaryUnits w (bits % 2 ^ (w + e))
  else -binaryUnits w (bits % 2 ^ (w + e))

/-- The sign of bits and what stands below it, as one number. -/
def binaryRank (e w bits : Nat) : Int :=
  if bits / 2 ^ (w + e) % 2 = 0 then (bits % 2 ^ (w + e) : Nat) else -(bits % 2 ^ (w + e) : Nat)

/-- The magnitude by its two parts. With the exponent zero the fraction stands alone; with any other
a leading bit stands in front of it. -/
theorem binaryUnits_eq {w f : Nat} (q : Nat) (hf : f < 2 ^ w) :
    binaryUnits w (2 ^ w * q + f) = if q = 0 then f else (2 ^ w + f) * 2 ^ (q - 1) := by
  have hq : (2 ^ w * q + f) / 2 ^ w = q := by
    rw [Nat.mul_add_div (Nat.two_pow_pos w), Nat.div_eq_of_lt hf, Nat.add_zero]
  rw [binaryUnits, hq, Nat.mul_add_mod, Nat.mod_eq_of_lt hf]

/-- The next pattern of bits stands for a greater magnitude, also where the fraction runs over into
the exponent: this is why bits can be compared as numbers. -/
theorem binaryUnits_lt_succ (w n : Nat) : binaryUnits w n < binaryUnits w (n + 1) := by
  have hw : 0 < 2 ^ w := Nat.two_pow_pos w
  have hf : n % 2 ^ w < 2 ^ w := Nat.mod_lt n hw
  rw [← Nat.div_add_mod n (2 ^ w)]
  generalize n / 2 ^ w = q, n % 2 ^ w = f at hf ⊢
  rw [binaryUnits_eq q hf]
  by_cases hwrap : f + 1 < 2 ^ w
  · rw [Nat.add_assoc, binaryUnits_eq q hwrap]
    split
    · -- Below the first exponent the fraction itself is the magnitude.
      exact Nat.lt_succ_self f
    · exact Nat.mul_lt_mul_of_pos_right (by omega) (Nat.two_pow_pos _)
  · -- The fraction is full: it starts again, with the next exponent.
    have hnext : 2 ^ w * q + f + 1 = 2 ^ w * (q + 1) + 0 := by
      rw [Nat.mul_add]
      omega
    rw [hnext, binaryUnits_eq (q + 1) hw, if_neg (Nat.succ_ne_zero q), Nat.add_sub_cancel]
    cases q with
    | zero => simpa using hf
    | succ q =>
      rw [if_neg (Nat.succ_ne_zero q), Nat.add_sub_cancel, Nat.add_zero, Nat.pow_succ' (m := 2),
        ← Nat.mul_assoc]
      exact Nat.mul_lt_mul_of_pos_right (by omega) (Nat.two_pow_pos q)

/-- So the magnitudes are ordered as the bits below the sign are. -/
theorem binaryUnits_strictMono (w : Nat) : StrictMono (binaryUnits w) :=
  strictMono_nat_of_lt_succ (binaryUnits_lt_succ w)

@[simp]
theorem binaryUnits_zero (w : Nat) : binaryUnits w 0 = 0 := by
  simp [binaryUnits]

/-- Ranks are ordered as the values are. -/
theorem binaryValue_lt_iff (e w a b : Nat) :
    binaryValue e w a < binaryValue e w b ↔ binaryRank e w a < binaryRank e w b := by
  unfold binaryValue binaryRank
  generalize a % 2 ^ (w + e) = m, b % 2 ^ (w + e) = n
  have hmn : binaryUnits w m < binaryUnits w n ↔ m < n := (binaryUnits_strictMono w).lt_iff_lt
  have hnm : binaryUnits w n < binaryUnits w m ↔ n < m := (binaryUnits_strictMono w).lt_iff_lt
  have hm : 0 < binaryUnits w m ↔ 0 < m := by
    simpa using (binaryUnits_strictMono w).lt_iff_lt (a := 0) (b := m)
  have hn : 0 < binaryUnits w n ↔ 0 < n := by
    simpa using (binaryUnits_strictMono w).lt_iff_lt (a := 0) (b := n)
  -- By the two signs. Of both zeros the magnitude is zero, so the sign makes no difference there.
  split <;> split <;> omega

/-- The rank as it is read off bits by masks. -/
theorem binaryRank_eq {e w bits : Nat} (h : bits < 2 ^ (w + e + 1)) :
    binaryRank e w bits = if bits &&& 2 ^ (w + e) = 0 then (bits : Int)
      else -(bits &&& (2 ^ (w + e) - 1) : Nat) := by
  have hsign : bits &&& 2 ^ (w + e) = 0 ↔ bits / 2 ^ (w + e) % 2 = 0 := by
    rw [Nat.and_two_pow, Nat.testBit_eq_decide_div_mod_eq]
    by_cases hbit : bits / 2 ^ (w + e) % 2 = 1
    · simp [hbit]
    · simp [Nat.mod_two_ne_one.1 hbit]
  rw [binaryRank, Nat.and_two_pow_sub_one_eq_mod]
  simp only [hsign]
  split
  · rename_i hzero
    -- The sign is the highest bit, so nothing but the magnitude is left.
    have hle : bits / 2 ^ (w + e) < 2 := by
      rw [Nat.div_lt_iff_lt_mul (Nat.two_pow_pos _), ← Nat.pow_succ']
      exact h
    have hlt : bits < 2 ^ (w + e) := by
      apply Nat.lt_of_div_eq_zero (Nat.two_pow_pos _)
      rwa [Nat.mod_eq_of_lt hle] at hzero
    rw [Nat.mod_eq_of_lt hlt]
  · rfl

namespace Binary32

/-- The number that bits stand for, as a multiple of the least positive one. -/
def value (bits : UInt32) : Int :=
  binaryValue 8 23 bits.toNat

/-- The rank of 32 bits is that of a format of 8 bits of exponent and 23 of fraction. -/
theorem rank_eq (bits : UInt32) : rank bits = binaryRank 8 23 bits.toNat := by
  rw [binaryRank_eq bits.toNat_lt, rank, UInt32.toNat_and]
  simp only [← UInt32.toNat_inj, UInt32.toNat_and]
  rfl

/-- Comparing ranks is comparing the numbers that the bits stand for. -/
theorem rank_lt_iff (a b : UInt32) : rank a < rank b ↔ value a < value b := by
  rw [rank_eq, rank_eq, value, value, binaryValue_lt_iff]

end Binary32

namespace Binary64

/-- The number that bits stand for, as a multiple of the least positive one. -/
def value (bits : UInt64) : Int :=
  binaryValue 11 52 bits.toNat

/-- The rank of 64 bits is that of a format of 11 bits of exponent and 52 of fraction. -/
theorem rank_eq (bits : UInt64) : rank bits = binaryRank 11 52 bits.toNat := by
  rw [binaryRank_eq bits.toNat_lt, rank, UInt64.toNat_and]
  simp only [← UInt64.toNat_inj, UInt64.toNat_and]
  rfl

/-- Comparing ranks is comparing the numbers that the bits stand for. -/
theorem rank_lt_iff (a b : UInt64) : rank a < rank b ↔ value a < value b := by
  rw [rank_eq, rank_eq, value, value, binaryValue_lt_iff]

end Binary64

/-! ### The least and the greatest -/

section

variable {α σ : Type} {isNaN : α → Bool} {value : α → Int} {vs ws : List α} {m n : α}

/-- One of some values that is numerically the least of those that are numbers. It is itself a
number, unless none of them is. -/
structure Least (isNaN : α → Bool) (value : α → Int) (vs : List α) (m : α) : Prop where
  mem : m ∈ vs
  isNaN_iff : isNaN m = true ↔ ∀ v ∈ vs, isNaN v = true
  le : ∀ v ∈ vs, isNaN v = false → value m ≤ value v

/-- One of some values that is numerically the greatest of those that are numbers. -/
def Greatest (isNaN : α → Bool) (value : α → Int) (vs : List α) (m : α) : Prop :=
  Least isNaN (fun v => -value v) vs m

/-- One value is the least of itself, whether it is a number or not. -/
theorem Least.singleton (v : α) : Least isNaN value [v] v :=
  ⟨.head _, by simp, by simp⟩

/-- The lesser of the least of two runs is the least of both. -/
theorem Least.append (hm : Least isNaN value vs m) (hn : Least isNaN value ws n) :
    Least isNaN value (vs ++ ws) (Arithmetic.lesserBy isNaN value m n) := by
  obtain ⟨hmem, hnan, hle⟩ := hm
  obtain ⟨hmem', hnan', hle'⟩ := hn
  unfold Arithmetic.lesserBy
  -- What remains is a case distinction on which of both is a number and which is less.
  constructor <;> simp only [List.mem_append] <;> grind

/-- From the least of some values the fold goes on to the least of more: by induction on those, each
of which is a run of its own. -/
theorem Least.foldl (hm : Least isNaN value vs m) (ws : List α) :
    Least isNaN value (vs ++ ws) (ws.foldl (Arithmetic.lesserBy isNaN value) m) := by
  induction ws generalizing vs m with
  | nil => simpa using hm
  | cons w ws ih => simpa using ih (hm.append (.singleton w))

/-- The greater is the lesser of what is turned around. -/
theorem Arithmetic.greaterBy_eq (isNaN : α → Bool) (value : α → Int) :
    greaterBy isNaN value = lesserBy isNaN fun v => -value v := by
  funext a b
  simp only [greaterBy, lesserBy, Int.neg_lt_neg_iff]

/-- Numbers are compared by their values, and what is not a number is passed over. -/
structure Arithmetic.Compares (ops : Arithmetic α σ) (isNaN : α → Bool) (value : α → Int) :
    Prop where
  lesser : ops.lesser = lesserBy isNaN value
  greater : ops.greater = greaterBy isNaN value

namespace NumberSummary

variable {ops : Arithmetic α σ} {s t : NumberSummary α σ}

/-- The bounds of a summary are the least and the greatest of some values. -/
structure Bounds (isNaN : α → Bool) (value : α → Int) (vs : List α) (s : NumberSummary α σ) :
    Prop where
  least : Least isNaN value vs s.min
  greatest : Greatest isNaN value vs s.max

/-- A summary of values, made one after another, has their bounds. -/
theorem bounds_of_ofList? (hops : ops.Compares isNaN value) (hs : ofList? ops vs = some s) :
    s.Bounds isNaN value vs := by
  -- Of no values there is no summary. Otherwise the fold starts with the first.
  cases vs with
  | nil => contradiction
  | cons v vs =>
    simp only [ofList?, foldl_snoc, single, Option.some.injEq] at hs
    subst hs
    constructor
    · rw [hops.lesser]
      exact (Least.singleton v).foldl vs
    · rw [hops.greater, Arithmetic.greaterBy_eq]
      exact (Least.singleton v).foldl vs

/-- Summaries of two parts of a run, merged, have the bounds of the run. -/
theorem Bounds.merge (hops : ops.Compares isNaN value) {n : Nat}
    (hs : s.Bounds isNaN value (vs.take n)) (ht : t.Bounds isNaN value (vs.drop n)) :
    (s.merge ops t).Bounds isNaN value vs := by
  rw [← List.take_append_drop n vs]
  -- Both parts together are the run, so the lesser of the two least is the least of it.
  constructor
  · rw [NumberSummary.merge, hops.lesser]
    exact hs.least.append ht.least
  · rw [NumberSummary.merge, hops.greater, Arithmetic.greaterBy_eq]
    exact hs.greatest.append ht.greatest

end NumberSummary

end

/-! ### The four numeric types -/

namespace Arithmetic

variable {α : Type} {isNaN : α → Bool} {rank value : α → Int}

/-- Only the order of ranks counts. -/
theorem lesserBy_congr (h : ∀ a b, rank a < rank b ↔ value a < value b) :
    lesserBy isNaN rank = lesserBy isNaN value := by
  funext a b
  simp only [lesserBy, h]

/-- The same for the greater of two. -/
theorem greaterBy_congr (h : ∀ a b, rank a < rank b ↔ value a < value b) :
    greaterBy isNaN rank = greaterBy isNaN value := by
  funext a b
  simp only [greaterBy, h]

/-- Whole numbers are compared by themselves, and each of them is a number. -/
theorem int32_compares : int32.Compares (fun _ => false) Int32.toInt := by
  constructor <;> funext a b <;> simp [int32, lesserBy, greaterBy, Int32.lt_iff_toInt_lt]

/-- The same for 64 bits. -/
theorem int64_compares : int64.Compares (fun _ => false) Int64.toInt := by
  constructor <;> funext a b <;> simp [int64, lesserBy, greaterBy, Int64.lt_iff_toInt_lt]

/-- Single precision is compared by ranks, which stands for comparing values. -/
theorem float_compares : float.Compares Binary32.isNaN Binary32.value :=
  ⟨lesserBy_congr Binary32.rank_lt_iff, greaterBy_congr Binary32.rank_lt_iff⟩

/-- Double precision likewise. -/
theorem double_compares : double.Compares Binary64.isNaN Binary64.value :=
  ⟨lesserBy_congr Binary64.rank_lt_iff, greaterBy_congr Binary64.rank_lt_iff⟩

end Arithmetic

namespace Column

/-- The first values of a column. -/
def take (n : Nat) : Column → Column
  | boolean vs => boolean (vs.take n)
  | int32 vs => int32 (vs.take n)
  | int64 vs => int64 (vs.take n)
  | float vs => float (vs.take n)
  | double vs => double (vs.take n)
  | text vs => text (vs.take n)

/-- A column without its first values. -/
def drop (n : Nat) : Column → Column
  | boolean vs => boolean (vs.drop n)
  | int32 vs => int32 (vs.drop n)
  | int64 vs => int64 (vs.drop n)
  | float vs => float (vs.drop n)
  | double vs => double (vs.drop n)
  | text vs => text (vs.drop n)

variable (n : Nat) (c : Column)

@[simp]
theorem dataType_take : (c.take n).dataType = c.dataType := by
  cases c <;> rfl

@[simp]
theorem dataType_drop : (c.drop n).dataType = c.dataType := by
  cases c <;> rfl

/-- The first values, whatever type they have. -/
@[simp]
theorem values_take : (c.take n).values = c.values.take n := by
  cases c <;> simp [take, values, List.map_take]

@[simp]
theorem values_drop : (c.drop n).values = c.values.drop n := by
  cases c <;> simp [drop, values, List.map_drop]

@[simp]
theorem length_take : (c.take n).length = min n c.length := by
  cases c <;> exact List.length_take

@[simp]
theorem length_drop : (c.drop n).length = c.length - n := by
  cases c <;> exact List.length_drop

end Column

namespace ValueSummary

/-- The bounds in a summary are those of a column: the least and the greatest of its numbers, if
there are any. -/
inductive Bounds : ValueSummary → Column → Prop
  | boolean (first last : Bool) (trueCount : UInt64) (vs : List Bool) :
      Bounds (boolean first last trueCount) (.boolean vs)
  | int32 {s vs} (h : s.Bounds (fun _ => false) Int32.toInt vs) : Bounds (int32 s) (.int32 vs)
  | int64 {s vs} (h : s.Bounds (fun _ => false) Int64.toInt vs) : Bounds (int64 s) (.int64 vs)
  | float {s vs} (h : s.Bounds Binary32.isNaN Binary32.value vs) : Bounds (float s) (.float vs)
  | double {s vs} (h : s.Bounds Binary64.isNaN Binary64.value vs) : Bounds (double s) (.double vs)
  | text (first last : String) (vs : List String) : Bounds (text first last) (.text vs)

variable {column : Column} {s t u : ValueSummary} {n : Nat}

/-- Bounds are told of a column of the summary's own type. -/
theorem Bounds.dataType_eq (h : s.Bounds column) : s.dataType = column.dataType := by
  cases h <;> rfl

/-- The summary of a column has its bounds: for truth values and texts there is nothing to show, as
no order is kept of them. -/
theorem bounds_of_ofColumn? (hs : ofColumn? column = some s) : s.Bounds column := by
  cases column with
  | boolean vs =>
    obtain ⟨first, last, -, -, rfl⟩ := ofColumn?_boolean_iff.1 hs
    exact .boolean first last _ vs
  | int32 vs =>
    obtain ⟨m, hm, rfl⟩ := Option.map_eq_some_iff.1 hs
    exact .int32 (NumberSummary.bounds_of_ofList? Arithmetic.int32_compares hm)
  | int64 vs =>
    obtain ⟨m, hm, rfl⟩ := Option.map_eq_some_iff.1 hs
    exact .int64 (NumberSummary.bounds_of_ofList? Arithmetic.int64_compares hm)
  | float vs =>
    obtain ⟨m, hm, rfl⟩ := Option.map_eq_some_iff.1 hs
    exact .float (NumberSummary.bounds_of_ofList? Arithmetic.float_compares hm)
  | double vs =>
    obtain ⟨m, hm, rfl⟩ := Option.map_eq_some_iff.1 hs
    exact .double (NumberSummary.bounds_of_ofList? Arithmetic.double_compares hm)
  | text vs =>
    obtain ⟨first, last, -, -, rfl⟩ := ofColumn?_text_iff.1 hs
    exact .text first last vs

/-- Summaries of two parts of a column, merged, have the bounds of the column. -/
theorem Bounds.merge? (hs : s.Bounds (column.take n)) (ht : t.Bounds (column.drop n))
    (hu : s.merge? t = some u) : u.Bounds column := by
  -- The column says of which type its two parts are, so both summaries are of that type and
  -- `merge?` has one branch left. Only numbers have bounds to take the smaller and the larger of.
  cases column with
  | boolean vs =>
    cases hs
    cases ht
    cases hu
    apply Bounds.boolean
  | int32 vs =>
    cases hs with
    | int32 hs =>
    cases ht with
    | int32 ht =>
    cases hu
    exact .int32 (hs.merge Arithmetic.int32_compares ht)
  | int64 vs =>
    cases hs with
    | int64 hs =>
    cases ht with
    | int64 ht =>
    cases hu
    exact .int64 (hs.merge Arithmetic.int64_compares ht)
  | float vs =>
    cases hs with
    | float hs =>
    cases ht with
    | float ht =>
    cases hu
    exact .float (hs.merge Arithmetic.float_compares ht)
  | double vs =>
    cases hs with
    | double hs =>
    cases ht with
    | double ht =>
    cases hu
    exact .double (hs.merge Arithmetic.double_compares ht)
  | text vs =>
    cases hs
    cases ht
    cases hu
    apply Bounds.text

end ValueSummary

end SeriesFile
