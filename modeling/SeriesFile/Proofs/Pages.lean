import SeriesFile.Page
import SeriesFile.Proofs.Reading

/-!
# Pages are read back

Every encoding gives back the points it was given (`Page.decode_encode`): timestamps and values, in
order, floating-point values bit by bit. The sections are read back whatever follows them, the page
as a whole exactly.

For changed bits the invariant of the recursion is what both sides carry along: of timestamps the
one before and its distance, of numbers the one before and the window in force. A window can only
lose bits of a difference if the difference has bits outside of it, which the choice of the window
rules out (`Window.Holds`).
-/

namespace SeriesFile.Page

open Reader (Reads)

/-- A part that is long enough passes the check of its length. -/
theorem reads_required {α : Type} {read : Reader α} {bytes : Bytes} {a : α} (part : PagePart)
    {need : Nat} (h : need ≤ bytes.length) (hr : Reads read bytes a) :
    Reads (do Reader.require part need; read) bytes a := by
  intro rest
  have enough : ¬(bytes ++ rest).length < need := by
    rw [List.length_append]
    omega
  refine Eq.trans ?_ (hr rest)
  show (Reader.require part need (bytes ++ rest) >>= fun taken => read taken.2) = _
  rw [Reader.require, if_neg enough]
  rfl

/-- The length of each text of a column can be written in front of it. -/
def TextsFit (column : Column) : Prop :=
  ∀ s, Value.text s ∈ column.values → s.utf8ByteSize < 2 ^ 64

/-! ### Plain values -/

namespace Plain

/-- Timestamps of eight bytes each pass the check that is made for all of them at once. -/
theorem reads_times (times : List Int64) :
    Reads (decodeTimes times.length) (encodeTimes times) times := by
  refine reads_required _ (Nat.le_of_eq ?_) (.replicate fun t _ => .i64 t)
  rw [encodeTimes, Bytes.length_flatMap_of_width Bytes.length_i64]

/-- A truth value is written as the byte that stands for it. -/
theorem reads_boolean (b : Bool) : Reads readBoolean (Bytes.bool b) b := by
  intro rest
  cases b <;> rfl

/-- A text stands behind its length in bytes, and its bytes spell it again. -/
theorem reads_text {s : String} (h : s.utf8ByteSize < 2 ^ 64) :
    Reads readText (Bytes.text s) s := by
  have hlength : (UInt64.ofNat s.utf8ByteSize).toNat = (Utf8.encode s).length := by
    rw [UInt64.toNat_ofNat_of_lt' h, Utf8.length_encode]
  apply (Reads.varint _).bind
  rw [hlength]
  apply reads_required _ (Nat.le_refl _)
  intro rest
  show (Reader.take (Utf8.encode s).length (Utf8.encode s ++ rest) >>= _) = _
  rw [Reads.take, ok_bind]
  dsimp only
  -- What was encoded decodes, so the second check passes too.
  rw [Utf8.decode_encode]
  rfl

/-- Values that are all written with the same number of bytes. -/
theorem reads_fixed {α : Type} {read : Reader α} {write : α → Bytes} {width : Nat}
    (hr : ∀ a, Reads read (write a) a) (hw : ∀ a, (write a).length = width) (f : List α → Column)
    (as : List α) :
    Reads (do
      Reader.require .plainValues (as.length * width)
      return f (← Reader.replicate as.length read)) (as.flatMap write) (f as) :=
  reads_required _ (Nat.le_of_eq (Bytes.length_flatMap_of_width hw as).symm)
    ((Reads.replicate fun a _ => hr a).map f)

/-- Values of every type are read back; only texts carry a condition, on their lengths. -/
theorem reads_values {column : Column} (h : TextsFit column) :
    Reads (decodeValues column.dataType column.length) (encodeValues column) column := by
  cases column with
  | boolean vs => exact reads_fixed reads_boolean (fun _ => rfl) .boolean vs
  | int32 vs => exact reads_fixed .i32 Bytes.length_i32 .int32 vs
  | int64 vs => exact reads_fixed .i64 Bytes.length_i64 .int64 vs
  | float vs => exact reads_fixed .u32 Bytes.length_u32 .float vs
  | double vs => exact reads_fixed .u64 Bytes.length_u64 .double vs
  | text vs =>
    have fits (s : String) (hs : s ∈ vs) : s.utf8ByteSize < 2 ^ 64 :=
      h s (List.mem_map_of_mem hs)
    have h := (Reads.replicate fun s hs => reads_text (fits s hs)).map Column.text
    exact fun rest => h rest

end Plain

/-! ### Differences -/

namespace Difference

/-- Differences wrap around as sums do, so adding one leads back: by induction on the values. -/
theorem reads_following64 (previous : Int64) (vs : List Int64) :
    Reads (following64 previous vs.length) (differences64 previous vs) vs := by
  induction vs generalizing previous with
  | nil => exact .pure []
  | cons v vs ih =>
    have back : previous + (v - previous) = v := by
      rw [Int64.add_comm, Int64.sub_add_cancel]
    apply (Reads.signedVarint _).bind
    show Reads (do
      let vs ← following64 (previous + (v - previous)) vs.length
      return (previous + (v - previous)) :: vs) _ _
    rw [back]
    exact (ih v).map (v :: ·)

/-- The first value is written whole, so its eight bytes are there to be checked. -/
theorem reads64 (vs : List Int64) : Reads (decode64 vs.length) (encode64 vs) vs := by
  cases vs with
  | nil => exact .pure []
  | cons v vs =>
    refine reads_required _ ?_ ((Reads.i64 v).bind ((reads_following64 v vs).map (v :: ·)))
    rw [encode64, List.length_append, Bytes.length_i64]
    exact Nat.le_add_right 8 _

/-- The difference of two 32-bit numbers is exact. -/
theorem toInt_difference32 (previous v : Int32) :
    (v.toInt64 - previous.toInt64).toInt = v.toInt - previous.toInt := by
  have hp := previous.toInt_lt
  have hp' := previous.le_toInt
  have hv := v.toInt_lt
  have hv' := v.le_toInt
  rw [Int64.toInt_sub, Int32.toInt_toInt64, Int32.toInt_toInt64]
  -- Both numbers are far below 64 bits, so nothing wraps around.
  exact Int.bmod_eq_of_le (by omega) (by omega)

/-- The difference of two 32-bit numbers leads from the one to the other. -/
theorem step32_sub (previous v : Int32) :
    step32 previous (v.toInt64 - previous.toInt64) = some v := by
  have next : previous.toInt + (v.toInt - previous.toInt) = v.toInt := by omega
  rw [step32, toInt_difference32, next, if_pos ⟨v.le_toInt, v.toInt_lt⟩, Int32.ofInt_toInt]

/-- By induction on the values, each a step from the one before it. -/
theorem reads_following32 (previous : Int32) (vs : List Int32) :
    Reads (following32 previous vs.length) (differences32 previous vs) vs := by
  induction vs generalizing previous with
  | nil => exact .pure []
  | cons v vs ih =>
    apply (Reads.signedVarint _).bind
    rw [step32_sub]
    exact (ih v).map (v :: ·)

/-- The first value is written whole, with four bytes. -/
theorem reads32 (vs : List Int32) : Reads (decode32 vs.length) (encode32 vs) vs := by
  cases vs with
  | nil => exact .pure []
  | cons v vs =>
    refine reads_required _ ?_ ((Reads.i32 v).bind ((reads_following32 v vs).map (v :: ·)))
    rw [encode32, List.length_append, Bytes.length_i32]
    exact Nat.le_add_right 4 _

end Difference

/-! ### Timestamps as changed bits -/

namespace TimeBits

open Bits.Reader (Reads)

/-- A change is stored as its distance from the least one of its form, which has no sign. -/
theorem reads_offset {width : Nat} {least c : Int} (h : least ≤ c) (h' : c < least + 2 ^ width) :
    Reads (readOffset width least) (Bits.ofNat width (c - least).toNat) (Int64.ofInt c) := by
  have fits : (c - least).toNat < 2 ^ width := by
    have : (2 : Int) ^ width = ((2 ^ width : Nat) : Int) := by simp
    omega
  have back : Int.ofNat (c - least).toNat + least = c := by
    show ((c - least).toNat : Int) + least = c
    omega
  have hread := (Reads.fitting fits).map fun n => Int64.ofInt (Int.ofNat n + least)
  rwa [back] at hread

/-- Each of the five forms is told by its first bits, and holds the changes it is chosen for. -/
theorem reads_change (change : Int64) : Reads readChange (encodeChange change) change := by
  have offset (width : Nat) (least : Int) (h : least ≤ change.toInt)
      (h' : change.toInt < least + 2 ^ width) :
      Reads (readOffset width least) (Bits.ofNat width (change.toInt - least).toNat) change := by
    have hread := reads_offset h h'
    rwa [Int64.ofInt_toInt] at hread
  unfold encodeChange
  dsimp only
  split
  · rename_i h
    rw [show change = 0 from Int64.toInt_inj.1 h]
    exact fun rest => rfl
  split
  · rename_i h
    exact (Reads.bit true).bind ((Reads.bit false).bind (offset 7 (-63) h.1 (by omega)))
  split
  · rename_i h
    exact (Reads.bit true).bind ((Reads.bit true).bind
      ((Reads.bit false).bind (offset 9 (-255) h.1 (by omega))))
  split
  · rename_i h
    exact (Reads.bit true).bind ((Reads.bit true).bind
      ((Reads.bit true).bind ((Reads.bit false).bind (offset 12 (-2047) h.1 (by omega)))))
  · -- The longest form has room for every change, as its bits.
    have hread := (Reads.fitting change.toUInt64.toNat_lt).map fun n =>
      (UInt64.ofNat n).toInt64
    rw [UInt64.ofNat_toNat, Int64.toInt64_toUInt64] at hread
    exact (Reads.bit true).bind ((Reads.bit true).bind
      ((Reads.bit true).bind ((Reads.bit true).bind hread)))

/-- The change is that of the distance, so the distance is led back to first and the timestamp from
it. -/
theorem reads_following (previous distance : Int64) (times : List Int64) :
    Reads (readFollowing previous distance times.length) (encodeFollowing previous distance times)
      times := by
  induction times generalizing previous distance with
  | nil => exact .pure []
  | cons t times ih =>
    have hdistance : distance + (t - previous - distance) = t - previous := by
      rw [Int64.add_comm, Int64.sub_add_cancel]
    have htime : previous + (t - previous) = t := by
      rw [Int64.add_comm, Int64.sub_add_cancel]
    apply (reads_change _).bind
    dsimp only
    rw [hdistance, htime]
    exact (ih t (t - previous)).map (t :: ·)

/-- The first timestamp is written with all of its bits. -/
theorem reads_bits (times : List Int64) : Reads (readBits times.length) (encodeBits times) times := by
  cases times with
  | nil => exact .pure []
  | cons t times =>
    have hread := Reads.fitting t.toUInt64.toNat_lt
    apply hread.bind
    rw [UInt64.ofNat_toNat, Int64.toInt64_toUInt64]
    exact (reads_following t 0 times).map (t :: ·)

/-- In whole bytes, of which the last may be filled up. -/
theorem reads_times (times : List Int64) :
    Reader.Reads (decode times.length) (encode times) times :=
  (reads_bits times).onBytes

end TimeBits

/-! ### Numbers as changed bits -/

namespace ValueBits

open Bits.Reader (Reads)

/-- Below its leading zeros a number has no bits. -/
theorem lt_leadingZeros {n : Nat} (h : n < 2 ^ 64) : n < 2 ^ (64 - leadingZeros n) := by
  by_cases hn : n = 0
  · rw [hn]
    exact Nat.two_pow_pos _
  · have hlog : n.log2 < 64 := (Nat.log2_lt hn).2 h
    rw [leadingZeros, if_neg hn, show 64 - (63 - n.log2) = n.log2 + 1 by omega]
    exact Nat.lt_log2_self

/-- Zeros at the end are factors of two: by induction on how many are looked for. -/
theorem trailingZeros_dvd (limit n : Nat) : 2 ^ trailingZeros limit n ∣ n := by
  induction limit generalizing n with
  | zero => exact Nat.one_dvd n
  | succ limit ih =>
    rw [trailingZeros]
    split
    · exact Nat.one_dvd n
    · obtain ⟨k, hk⟩ := ih (n / 2)
      exact ⟨k, by rw [Nat.pow_succ, Nat.mul_right_comm, ← hk]; omega⟩

/-- A window in which a difference can be written without loss. -/
structure Window.Holds (w : Window) (difference : Nat) : Prop where
  width_pos : w.leading + w.trailing < 64
  leading : difference < 2 ^ (64 - w.leading)
  trailing : 2 ^ w.trailing ∣ difference

/-- A window that can be written down. -/
def Window.Writable (w : Window) : Prop :=
  w.leading < 2 ^ 5 ∧ w.leading + w.trailing < 64

/-- The window around a difference holds it. Its leading bits are cut off at 31, which only makes
the window larger. -/
theorem Window.holds_around {difference : Nat} (h : difference < 2 ^ 64) (h₀ : difference ≠ 0) :
    (Window.around difference).Holds difference := by
  have hlead : leadingZeros difference = 63 - difference.log2 := if_neg h₀
  have htrail : 2 ^ trailingZeros 64 difference ≤ difference :=
    Nat.le_of_dvd (Nat.pos_of_ne_zero h₀) (trailingZeros_dvd 64 difference)
  have hlog : trailingZeros 64 difference ≤ difference.log2 := (Nat.le_log2 h₀).2 htrail
  have hlog' : difference.log2 < 64 := (Nat.log2_lt h₀).2 h
  -- The trailing zeros end at the latest with the highest bit of the difference.
  refine ⟨?_, ?_, trailingZeros_dvd 64 difference⟩
  · show min (leadingZeros difference) 31 + trailingZeros 64 difference < 64
    omega
  · refine Nat.lt_of_lt_of_le (lt_leadingZeros h) (Nat.pow_le_pow_right (by decide) ?_)
    exact Nat.sub_le_sub_left (Nat.min_le_left _ 31) 64

/-- Five bits are enough for its leading zeros, since these were cut off. -/
theorem Window.writable_around {difference : Nat} (h : difference < 2 ^ 64)
    (h₀ : difference ≠ 0) : (Window.around difference).Writable :=
  ⟨Nat.lt_succ_of_le (Nat.min_le_right _ 31), (holds_around h h₀).width_pos⟩

/-- A window holds what a window inside of it holds. -/
theorem Window.Holds.of_covers {outer inner : Window} {difference : Nat}
    (h : inner.Holds difference) (hw : outer.Writable) (hc : outer.covers inner) :
    outer.Holds difference := by
  obtain ⟨hlead, htrail⟩ : outer.leading ≤ inner.leading ∧ outer.trailing ≤ inner.trailing := by
    simpa [covers] using hc
  refine ⟨hw.2, Nat.lt_of_lt_of_le h.leading ?_, Nat.dvd_trans ?_ h.trailing⟩
  · exact Nat.pow_le_pow_right (by decide) (Nat.sub_le_sub_left hlead 64)
  · exact Nat.pow_dvd_pow 2 htrail

/-- The bits inside a window that holds a difference are all of its bits. -/
theorem reads_inside {w : Window} {difference : Nat} (h : w.Holds difference) :
    Reads (readInside w) (w.bits difference) (UInt64.ofNat difference) := by
  have hwidth : 64 - w.leading = w.trailing + w.width := by
    have := h.width_pos
    rw [Window.width]
    omega
  have fits : difference >>> w.trailing < 2 ^ w.width := by
    rw [Nat.shiftRight_eq_div_pow, Nat.div_lt_iff_lt_mul (Nat.two_pow_pos _), Nat.mul_comm,
      ← Nat.pow_add, ← hwidth]
    exact h.leading
  -- Shifting back loses nothing, for what was shifted out was zero.
  have back : difference >>> w.trailing <<< w.trailing = difference := by
    rw [Nat.shiftRight_eq_div_pow, Nat.shiftLeft_eq, Nat.div_mul_cancel h.trailing]
  have hread := (Reads.fitting fits).map fun n => UInt64.ofNat (n <<< w.trailing)
  rwa [back] at hread

/-- A window is written as its leading zeros and its width, less one so that the width of a whole
word fits six bits. -/
theorem reads_window {w : Window} (h : w.Writable) : Reads readWindow w.header w := by
  obtain ⟨hlead, hsum⟩ := h
  have hwidth : w.width - 1 < 2 ^ 6 := by
    rw [Window.width]
    omega
  have hback : w.width - 1 + 1 = w.width := by
    rw [Window.width]
    omega
  have hle : w.leading + w.width ≤ 64 := by
    rw [Window.width]
    omega
  have htrail : 64 - (w.leading + w.width) = w.trailing := by
    rw [Window.width]
    omega
  apply (Reads.fitting hlead).bind
  apply (Reads.fitting hwidth).bind_nil
  dsimp only
  rw [hback, if_pos hle, htrail]
  exact .pure w

/-- The difference leads from one pattern to the next. -/
theorem xor_back (previous p : UInt64) : previous ^^^ (p ^^^ previous) = p := by
  rw [UInt64.xor_comm p, ← UInt64.xor_assoc, UInt64.xor_self, UInt64.zero_xor]

/-- The decoder's window may be any before one was written; after that both sides have the same. -/
theorem reads_following (window : Option Window) (inForce : Window) (previous : UInt64)
    (ps : List UInt64) (h : ∀ w ∈ window, w = inForce ∧ w.Writable) :
    Reads (readFollowing inForce previous ps.length) (encodeFollowing window previous ps) ps := by
  -- By induction on the patterns. The encoder's window, if there is one, is the decoder's.
  induction ps generalizing window inForce previous with
  | nil => exact .pure []
  | cons p ps ih =>
    have hbound : (p ^^^ previous).toNat < 2 ^ 64 := (p ^^^ previous).toNat_lt
    -- What is left to read once the difference and the window after it are known.
    have rest (after : Option Window) (inForce : Window)
        (h : ∀ w ∈ after, w = inForce ∧ w.Writable) :
        Reads (do
          let ps ← readFollowing inForce (previous ^^^ (p ^^^ previous)) ps.length
          return (previous ^^^ (p ^^^ previous)) :: ps)
          (encodeFollowing after p ps) (p :: ps) := by
      rw [xor_back]
      exact (ih after inForce p h).map (p :: ·)
    have inside {w : Window} (hw : w.Holds (p ^^^ previous).toNat) :
        Reads (readInside w) (w.bits (p ^^^ previous).toNat) (p ^^^ previous) := by
      have hread := reads_inside hw
      rwa [UInt64.ofNat_toNat] at hread
    -- A difference in a window of its own.
    have own (hne : (p ^^^ previous).toNat ≠ 0) :
        let w := Window.around (p ^^^ previous).toNat
        Reads (readFollowing inForce previous (ps.length + 1))
          ([true, true] ++ w.header ++ w.bits (p ^^^ previous).toNat ++
            encodeFollowing (some w) p ps) (p :: ps) := by
      intro w
      have hw : w.Writable := Window.writable_around hbound hne
      have hread : Reads (readDifference inForce)
          ([true, true] ++ w.header ++ w.bits (p ^^^ previous).toNat) (p ^^^ previous, w) := by
        rw [List.append_assoc]
        exact (Reads.bit true).bind (.bind (.bit true) (.bind (reads_window hw)
          ((inside (Window.holds_around hbound hne)).map fun d => (d, w))))
      refine hread.bind (rest (some w) w fun w' hw' => ?_)
      rw [← Option.some.inj hw']
      exact ⟨rfl, hw⟩
    simp only [encodeFollowing]
    split
    · rename_i hzero
      have hsame : p ^^^ previous = 0 := UInt64.toNat_inj.1 hzero
      have hread : Reads (readDifference inForce) [false] (p ^^^ previous, inForce) := by
        rw [hsame]
        exact fun rest => rfl
      exact hread.bind (rest window inForce h)
    · rename_i hne
      cases window with
      | none => exact own hne
      | some w =>
        obtain ⟨rfl, hw⟩ := h w rfl
        dsimp only
        split
        · -- The window in force covers the difference, which loses nothing in it.
          rename_i hc
          have hholds := (Window.holds_around hbound hne).of_covers hw hc
          have hread : Reads (readDifference w)
              ([true, false] ++ w.bits (p ^^^ previous).toNat) (p ^^^ previous, w) :=
            (Reads.bit true).bind ((Reads.bit false).bind ((inside hholds).map fun d => (d, w)))
          exact hread.bind (rest (some w) w h)
        · exact own hne

/-- The first pattern is written whole; before it no window has been written, and the decoder starts
with any. -/
theorem reads_patterns (ps : List UInt64) : Reads (readBits ps.length) (encodeBits ps) ps := by
  cases ps with
  | nil => exact .pure []
  | cons p ps =>
    apply (Reads.fitting p.toNat_lt).bind
    rw [UInt64.ofNat_toNat]
    exact (reads_following none ⟨0, 0⟩ p ps nofun).map (p :: ·)

/-- Every value has one pattern, if its type has patterns at all. -/
theorem length_patterns {column : Column} (h : Encoding.gorilla.supports column.dataType) :
    (patterns column).length = column.length := by
  cases column <;> first | contradiction | simp [patterns, Column.length]

/-- Patterns are made back into the values they are of. -/
theorem ofPatterns_patterns {column : Column} (h : Encoding.gorilla.supports column.dataType) :
    ofPatterns column.dataType (patterns column) = .ok column := by
  cases column <;> first
    | contradiction
    | simp [ofPatterns, patterns, Column.dataType, Function.comp_def]

/-- Values go through their patterns and back. -/
theorem reads_values {column : Column} (h : Encoding.gorilla.supports column.dataType) :
    Reader.Reads (decode column.dataType column.length) (encode column) column := by
  intro rest
  have hread := (reads_patterns (patterns column)).onBytes rest
  rw [length_patterns h] at hread
  refine Reader.bind_ok.2 ⟨patterns column, rest, hread, ?_⟩
  rw [ofPatterns_patterns h]
  rfl

end ValueBits

/-! ### Whole pages -/

/-- What there is to know of a page that could be made. -/
theorem encode_ok {encoding : Encoding} {times : List Int64} {column : Column} {page : Bytes}
    (h : encode encoding times column = .ok page) :
    encoding.supports column.dataType ∧ times.length = column.length ∧
      page = Varint.encode (UInt64.ofNat (encodeTimes encoding times).length) ++
        encodeTimes encoding times ++ encodeValues encoding column := by
  unfold encode at h
  split at h
  · contradiction
  · rename_i hsupports
    split at h
    · contradiction
    · rename_i hlength
      exact ⟨by simpa using hsupports, Decidable.not_not.1 hlength, (Except.ok.inj h).symm⟩

/-- Timestamps in the manner of any encoding. -/
theorem reads_times (encoding : Encoding) (times : List Int64) :
    Reads (decodeTimes encoding times.length) (encodeTimes encoding times) times := by
  cases encoding with
  | plain => exact Plain.reads_times times
  | ts2diff => exact Difference.reads64 times
  | gorilla => exact TimeBits.reads_times times

/-- A text is no longer than the values it is written with. -/
theorem textsFit_of_length {encoding : Encoding} {column : Column}
    (h : encoding.supports column.dataType)
    (fits : (encodeValues encoding column).length < 2 ^ 64) : TextsFit column := by
  intro s hs
  cases column with
  | boolean _ | int32 _ | int64 _ | float _ | double _ => simp [Column.values] at hs
  | text vs =>
    have hmem : s ∈ vs := by simpa [Column.values] using hs
    cases encoding with
    | ts2diff | gorilla => contradiction
    | plain =>
      exact Nat.lt_of_le_of_lt
        (Nat.le_trans (Bytes.length_text s) (Bytes.length_le_flatMap hmem)) fits

/-- Values in the manner of every encoding that supports their type. -/
theorem reads_values {encoding : Encoding} {column : Column}
    (h : encoding.supports column.dataType) (fits : TextsFit column) :
    Reads (decodeValues encoding column.dataType column.length) (encodeValues encoding column)
      column := by
  cases encoding with
  | plain => exact Plain.reads_values fits
  | ts2diff =>
    cases column with
    | int32 vs => exact (Difference.reads32 vs).map Column.int32
    | int64 vs => exact (Difference.reads64 vs).map Column.int64
    | boolean _ | float _ | double _ | text _ => contradiction
  | gorilla => exact ValueBits.reads_values h

/-- A page gives back the timestamps and values that it was made of, if the lengths it states are
64-bit numbers. -/
theorem decode_of_fits {encoding : Encoding} {times : List Int64} {column : Column} {page : Bytes}
    (h : encode encoding times column = .ok page)
    (htimes : (encodeTimes encoding times).length < 2 ^ 64) (htexts : TextsFit column) :
    decode column.dataType encoding times.length page = .ok (times, column) := by
  obtain ⟨hsupports, hlength, rfl⟩ := encode_ok h
  have hsize : (UInt64.ofNat (encodeTimes encoding times).length).toNat =
      (encodeTimes encoding times).length := UInt64.toNat_ofNat_of_lt' htimes
  -- The length in front of the time section is its own.
  have hrequire (rest : Bytes) : Reader.require .timeSection (encodeTimes encoding times).length
      (encodeTimes encoding times ++ rest) = .ok ((), encodeTimes encoding times ++ rest) := by
    rw [Reader.require, if_neg]
    rw [List.length_append]
    omega
  have htimes := reads_times encoding times []
  have hcolumn := reads_values hsupports htexts []
  rw [List.append_nil] at htimes hcolumn
  rw [← hlength] at hcolumn
  rw [decode, List.append_assoc, hsupports]
  simp only [Bool.not_true, Bool.false_eq_true, if_false, Reads.varint _ _, ok_bind, hsize,
    hrequire, Reads.take _ _, htimes, hcolumn]
  rfl

/-- A page that is not too long gives back what it was made of. -/
theorem decode_encode {encoding : Encoding} {times : List Int64} {column : Column} {page : Bytes}
    (h : encode encoding times column = .ok page) (fits : page.length < 2 ^ 64) :
    decode column.dataType encoding times.length page = .ok (times, column) := by
  obtain ⟨hsupports, -, hpage⟩ := encode_ok h
  rw [hpage, List.length_append, List.length_append] at fits
  exact decode_of_fits h (by omega) (textsFit_of_length hsupports (by omega))

end SeriesFile.Page
