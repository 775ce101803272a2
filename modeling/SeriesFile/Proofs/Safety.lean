import SeriesFile.Proofs.Following

/-!
# Pages are read without missteps

Whatever bytes a page has, and however many points it is said to have, reading it asks the machine
for nothing that it is not made for (`Page.decode_guarded`): it ends as the plain reading of the
page does, with points or with a fault. And if it ends with points, there are as many of them as
were asked for, none of them without its value.

What keeps a window of changed bits from missteps is that at least one bit is inside of it
(`ValueBits.Open`): the whole word is such a window, which is in force at the start, and so is every
window that a page can name.
-/

namespace SeriesFile.Guarded

/-! ### Bits -/

/-- The bits that are left to be read. -/
def Cursor.bits (c : Cursor) : List Bool :=
  (Bits.unpack c.data).drop c.position

/-- A place among the bits of these bytes, or at their end, that can be numbered. -/
structure Cursor.On (data : Bytes) (c : Cursor) : Prop where
  data_eq : c.data = data
  position_le : c.position ≤ 8 * data.length
  numbered : 8 * data.length < 2 ^ 61

/-- A bit of bytes is one of the byte that it is in. -/
theorem getElem?_unpack (data : Bytes) (i : Nat) :
    (Bits.unpack data)[i]? = data[i / 8]?.map fun b => b.toNat.testBit (7 - i % 8) := by
  -- Of a number of any width, counted from the highest bit; for a byte the width is eight.
  have ofNat (width n i : Nat) (h : i < width) :
      (Bits.ofNat width n)[i]? = some (n.testBit (width - 1 - i)) := by
    induction width generalizing i with
    | zero => contradiction
    | succ width ih =>
      cases i with
      | zero => rfl
      | succ i =>
        rw [Bits.ofNat, List.getElem?_cons_succ, ih i (Nat.lt_of_succ_lt_succ h)]
        congr 2
        omega
  induction data generalizing i with
  | nil => simp
  | cons b data ih =>
    rw [Bits.unpack_cons]
    by_cases hi : i < 8
    · rw [List.getElem?_append_left (by rwa [Bits.length_ofNat]), ofNat 8 _ i hi,
        Nat.div_eq_of_lt hi, Nat.mod_eq_of_lt hi]
      rfl
    · -- Eight bits further on, the next byte is looked at.
      obtain ⟨i, rfl⟩ := Nat.exists_eq_add_of_le' (Nat.le_of_not_lt hi)
      rw [List.getElem?_append_right (by rw [Bits.length_ofNat]; omega), Bits.length_ofNat,
        Nat.add_sub_cancel, ih, Nat.add_div_right i (by decide), Nat.add_mod_right,
        List.getElem?_cons_succ]

variable {α β : Type}

/-- A guarded reader of bits with results that fit those of a plain one. -/
abbrev FollowsBits (data : Bytes) (guarded : BitReader α) (plain : Bits.Reader β)
    (fits : α → β → Prop) : Prop :=
  Follows Cursor.bits (Cursor.On data) guarded plain fits (Cursor.On data)

namespace FollowsBits

variable {data : Bytes}

/-- A bit is looked for in the byte it is in, and the place behind it can be numbered since all bits
can. -/
theorem bit : FollowsBits data BitReader.bit Bits.Reader.bit Eq := by
  rintro ⟨bytes, position⟩ ⟨rfl, hle, hnumbered⟩
  dsimp only at hle hnumbered
  have hbit := getElem?_unpack bytes position
  cases hbyte : bytes[position / 8]? with
  | none =>
    -- There is no such byte exactly where no bits are left.
    rw [hbyte, Option.map_none, List.getElem?_eq_none_iff] at hbit
    refine .inr ⟨.corrupted .bitsExhausted, ?_, ?_⟩
    · simp only [BitReader.bit, hbyte]
    · rw [Cursor.bits, List.drop_eq_nil_of_le hbit]
      rfl
  | some b =>
    rw [hbyte, Option.map_some, List.getElem?_eq_some_iff] at hbit
    obtain ⟨hlt, hbit⟩ := hbit
    have hnext : position + 1 ≤ 8 * bytes.length := by
      rwa [Bits.length_unpack] at hlt
    refine .inl ⟨b.toNat.testBit (7 - position % 8), _, ⟨bytes, position + 1⟩, ?_, ?_, rfl, rfl,
      hnext, hnumbered⟩
    · simp only [BitReader.bit, hbyte, add_of_lt (show position + 1 < 2 ^ 64 by omega)]
      rfl
    · rw [Cursor.bits, List.drop_eq_getElem_cons hlt, hbit]
      rfl

/-- Bits are shifted into a word from the right. After `read` of them it is a number of so many
bits, which is the invariant; with `width` more it still fits. -/
theorem wordFrom {word : UInt64} {n read width : Nat} (hword : word.toNat = n)
    (hn : n < 2 ^ read) (h : read + width ≤ 64) :
    FollowsBits data (BitReader.wordFrom word width) (Bits.Reader.natFrom n width)
      fun word n => word.toNat = n ∧ n < 2 ^ (read + width) := by
  induction width generalizing word n read with
  | zero => exact .pure ⟨hword, hn⟩
  | succ width ih =>
    apply Follows.step (shiftLeft_of_lt (by decide))
    apply bit.bind
    rintro b _ rfl
    -- There are fewer than 64 bits in the word, so the first of them stays in it.
    have hroom : 2 ^ read ≤ 2 ^ 63 := Nat.pow_le_pow_right (by decide) (by omega)
    have hb : b.toUInt64.toNat = b.toNat := by cases b <;> rfl
    have hor := toNat_or_shiftLeft b.toUInt64 word (show 1 < 64 by decide)
      (by cases b <;> decide)
    have hlt := b.toNat_lt
    have hword' : (word <<< UInt64.ofNat 1 ||| b.toUInt64).toNat = 2 * n + b.toNat := by
      rw [UInt64.or_comm, hor, hb]
      omega
    have hn' : 2 * n + b.toNat < 2 ^ (read + 1) := by
      rw [Nat.pow_succ]
      omega
    have hnext := ih hword' hn' (by omega)
    rwa [Nat.add_right_comm] at hnext

/-- So a word of up to 64 bits is the number that they are. -/
theorem word {width : Nat} (h : width ≤ 64) :
    FollowsBits data (BitReader.word width) (Bits.Reader.nat width)
      fun word n => word.toNat = n ∧ n < 2 ^ width := by
  have hread : FollowsBits data (BitReader.wordFrom 0 width) (Bits.Reader.natFrom 0 width)
      fun word n => word.toNat = n ∧ n < 2 ^ (0 + width) :=
    wordFrom rfl (by decide) (by omega)
  rwa [Nat.zero_add] at hread

/-- A fault of the page is one for both. -/
theorem fail (fault : Fault) (fits : α → β → Prop) :
    FollowsBits data (BitReader.fail fault) (Bits.Reader.fail fault) fits :=
  fun _ _ => .inr ⟨fault, rfl, rfl⟩

/-- Of the last byte that was begun, the other bits are skipped. -/
theorem onBytes {guarded : BitReader α} {plain : Bits.Reader β} {fits : α → β → Prop}
    (h : ∀ data, FollowsBits data guarded plain fits) {most : Nat} (hmost : 8 * most < 2 ^ 61) :
    FollowsBytes most 0 guarded.onBytes plain.onBytes fits 0 := by
  rintro bytes ⟨-, hle⟩
  have hnumbered : 8 * bytes.length < 2 ^ 61 := Nat.lt_of_le_of_lt (Nat.mul_le_mul_left 8 hle) hmost
  simp only [BitReader.onBytes, if_pos hnumbered, Bits.Reader.onBytes, id]
  rcases h bytes (s := ⟨bytes, 0⟩) ⟨rfl, Nat.zero_le _, hnumbered⟩ with
    ⟨a, b, ⟨bytes', position⟩, hg, hp, hfits, hdata, hposition, -⟩ |
    ⟨fault, hg, hp⟩
  · obtain rfl : bytes' = bytes := hdata
    replace hposition : position ≤ 8 * bytes'.length := hposition
    replace hp : plain (Bits.unpack bytes') = .ok (b, (Bits.unpack bytes').drop position) := hp
    -- The slice that is skipped ends with the byte in which the last bit was read.
    have hslice : Reader.splitAt ((position + 7) / 8) bytes' =
        .ok (bytes'.take ((position + 7) / 8), bytes'.drop ((position + 7) / 8)) :=
      if_pos (by omega)
    -- Plain reading skips as much, counted from what is left.
    have hleft : bytes'.length - ((Bits.unpack bytes').drop position).length / 8 =
        (position + 7) / 8 := by
      rw [List.length_drop, Bits.length_unpack]
      omega
    refine .inl ⟨a, b, bytes'.drop ((position + 7) / 8), ?_, ?_, hfits, Nat.zero_le _, ?_⟩
    · rw [hg, ok_bind, hslice]
      rfl
    · rw [hp]
      dsimp only
      rw [hleft]
    · rw [List.length_drop]
      exact Nat.le_trans (Nat.sub_le _ _) hle
  · replace hp : plain (Bits.unpack bytes) = .error fault := hp
    rw [hg, hp]
    exact .inr ⟨fault, rfl, rfl⟩

end FollowsBits

/-! ### Timestamps as changed bits -/

namespace TimeBits

open FollowsBits

variable {data : Bytes}

/-- A number below the sign bit is not negative. -/
theorem toInt64_of_lt {n : UInt64} (h : n.toNat < 2 ^ 63) : n.toInt64.toInt = n.toNat :=
  BitVec.toInt_eq_toNat_of_lt (show 2 * n.toNat < 2 ^ 64 by omega)

/-- A number of so few bits is no less than zero, so that a little can be taken away from it. -/
theorem follows_offset {width : Nat} (hwidth : width ≤ 62) {below : Int64} {least : Int}
    (hbelow : least = -below.toInt) (h : 0 ≤ below.toInt) :
    FollowsBits data (readOffset width below) (Page.TimeBits.readOffset width least) Eq := by
  apply (word (show width ≤ 64 by omega)).bind
  rintro n _ ⟨rfl, hlt⟩
  have hroom : 2 ^ width ≤ 2 ^ 62 := Nat.pow_le_pow_right (by decide) hwidth
  have hlt' := below.toInt_lt
  have hn := toInt64_of_lt (n := n) (by omega)
  -- The difference lies between the two numbers, neither of which is negative.
  have hsub : subSigned n.toInt64 below = .ok (Int64.ofInt (n.toNat - below.toInt)) := by
    rw [subSigned, hn]
    exact if_pos (by omega)
  refine Follows.last hsub ?_
  rw [hbelow]
  rfl

/-- The form of a change is told by up to four bits, and the change itself by as many more as the
form says. -/
theorem follows_change : FollowsBits data readChange Page.TimeBits.readChange Eq := by
  apply bit.bind
  rintro more _ rfl
  refine .ite (fun _ => .pure rfl) fun _ => ?_
  apply bit.bind
  rintro more _ rfl
  refine .ite (fun _ => follows_offset (by decide) rfl (by decide)) fun _ => ?_
  apply bit.bind
  rintro more _ rfl
  refine .ite (fun _ => follows_offset (by decide) rfl (by decide)) fun _ => ?_
  apply bit.bind
  rintro more _ rfl
  refine .ite (fun _ => follows_offset (by decide) rfl (by decide)) fun _ => ?_
  apply (word (by decide)).map
  rintro n _ ⟨rfl, -⟩
  rw [UInt64.ofNat_toNat]

/-- Distances and timestamps wrap around, so by induction only the bits count. -/
theorem follows_following (previous distance : Int64) (count : Nat) :
    FollowsBits data (readFollowing previous distance count)
      (Page.TimeBits.readFollowing previous distance count) (Counted count) := by
  induction count generalizing previous distance with
  | zero => exact .pure .nil
  | succ count ih =>
    apply follows_change.bind
    rintro change _ rfl
    exact (ih _ _).map fun _ _ h => h.cons _

/-- The first timestamp is read whole, with a distance of zero before the second. -/
theorem follows_bits (count : Nat) :
    FollowsBits data (readBits count) (Page.TimeBits.readBits count) (Counted count) := by
  cases count with
  | zero => exact .pure .nil
  | succ count =>
    apply (word (by decide)).bind
    rintro n _ ⟨rfl, -⟩
    rw [UInt64.ofNat_toNat]
    exact (follows_following n.toInt64 0 count).map fun _ _ h => h.cons n.toInt64

/-- The room for the timestamps is asked for before any bit is read, so its bound comes from the
count alone. -/
theorem follows_times {count most : Nat} (hcount : count * 8 < 2 ^ 63) (hmost : 8 * most < 2 ^ 61) :
    FollowsBytes most 0 (decode count) (Page.TimeBits.decode count) (Counted count) 0 :=
  .step (reserve_of_lt (by omega)) (onBytes (fun _ => follows_bits count) hmost)

end TimeBits

/-! ### Numbers as changed bits -/

namespace ValueBits

open FollowsBits
open Page.ValueBits (Window)

variable {data : Bytes}

/-- At least one bit is inside. -/
def Open (w : Window) : Prop :=
  w.leading + w.trailing < 64

/-- The bits inside an open window are at most 64, and they are shifted by less than a word. -/
theorem follows_inside {w : Window} (h : Open w) :
    FollowsBits data (readInside w.width w.trailing) (Page.ValueBits.readInside w) Eq := by
  have hwidth : w.width ≤ 64 := by
    rw [Page.ValueBits.Window.width]
    omega
  apply (word hwidth).bind
  rintro bits _ ⟨rfl, -⟩
  have htrailing : w.trailing < 64 := by
    rw [Open] at h
    omega
  refine Follows.last (shiftLeft_of_lt htrailing) ?_
  rw [← UInt64.toNat_inj, UInt64.toNat_shiftLeft, UInt64.toNat_ofNat', UInt64.toNat_ofNat',
    Nat.mod_eq_of_lt (Nat.lt_trans htrailing (by decide)), Nat.mod_eq_of_lt htrailing]

/-- From a window with nothing inside, the difference would be shifted out of its word. -/
example : readInside 0 64 ⟨[], 0⟩ = .error (.misstep .shiftedOut) := by
  rfl

/-- A window that a page names is open, since the page names one bit less than there is inside. -/
theorem follows_window :
    FollowsBits data readWindow Page.ValueBits.readWindow
      fun found w => found = (w, w.width) ∧ Open w := by
  apply (word (by decide)).bind
  rintro leading _ ⟨rfl, hleading⟩
  apply (word (by decide)).bind
  rintro width _ ⟨rfl, hwidth⟩
  -- Numbers of five and of six bits are far from leaving 32 when they are added.
  apply Follows.step (add_of_lt (by omega))
  apply Follows.step (add_of_lt (by omega))
  refine .ite (fun hle => .pure ⟨?_, ?_⟩) fun _ => fail _ _
  · rw [Page.ValueBits.Window.width]
    congr 1
    dsimp only
    omega
  · show leading.toNat + (64 - (leading.toNat + (width.toNat + 1))) < 64
    omega

/-- The window in force is open before a value is read, and after it whichever window is in force
then: this is the invariant that carries the run. -/
theorem follows_difference {w : Window} (h : Open w) :
    FollowsBits data (readDifference w) (Page.ValueBits.readDifference w)
      fun found found' => found = found' ∧ Open found.2 := by
  apply bit.bind
  rintro differs _ rfl
  refine .ite (fun _ => .pure ⟨rfl, h⟩) fun _ => ?_
  apply bit.bind
  rintro own _ rfl
  refine .ite (fun _ => ?_) fun _ => ?_
  · -- Neither subtraction goes below zero, because the window in force is open.
    rw [Open] at h
    apply Follows.step (sub_of_le (by omega))
    apply Follows.step (sub_of_le (by omega))
    exact (follows_inside h).map fun d d' hd => ⟨by rw [hd], h⟩
  · apply follows_window.bind
    rintro _ w ⟨rfl, hw⟩
    exact (follows_inside hw).map fun d d' hd => ⟨by rw [hd], hw⟩

/-- By induction on the number of values, with the window and the value before as they come. -/
theorem follows_following {w : Window} (h : Open w) (previous : UInt64) (count : Nat) :
    FollowsBits data (readFollowing w previous count)
      (Page.ValueBits.readFollowing w previous count) (Counted count) := by
  induction count generalizing w previous with
  | zero => exact .pure .nil
  | succ count ih =>
    apply (follows_difference h).bind
    rintro ⟨difference, w⟩ _ ⟨rfl, hw⟩
    exact (ih hw _).map fun _ _ h => h.cons _

/-- At the start the whole word is in force, and it is open. -/
theorem follows_bits (count : Nat) :
    FollowsBits data (readBits count) (Page.ValueBits.readBits count) (Counted count) := by
  cases count with
  | zero => exact .pure .nil
  | succ count =>
    apply (word (by decide)).bind
    rintro p _ ⟨rfl, -⟩
    rw [UInt64.ofNat_toNat]
    have whole : Open ⟨0, 0⟩ := show 0 + 0 < 64 by decide
    exact (follows_following whole p count).map fun _ _ h => h.cons p

/-- The values are converted only after all patterns have been read, and every type that may stand
here is one that they make. -/
theorem follows_values {type : DataType} (h : Encoding.gorilla.supports type) {count most : Nat}
    (hcount : count * 8 < 2 ^ 63) (hmost : 8 * most < 2 ^ 61) :
    FollowsBytes most 0 (decode type count) (Page.ValueBits.decode type count)
      (Filled type count) 0 := by
  apply Follows.step (reserve_of_lt (by omega))
  apply (onBytes (fun _ => follows_bits count) hmost).bind
  rintro ps _ ⟨rfl, rfl⟩
  cases type with
  | boolean | text => contradiction
  | int32 | int64 | float | double => exact .pure ⟨rfl, by simp [Column.length], rfl⟩

end ValueBits

/-! ### Whole pages -/

/-- The length that bytes of a page can have in memory. No slice of bytes takes more than half of
the addresses, and no slice of bits is as long as 2 ^ 61. -/
structure Fits (encoding : Encoding) (length : Nat) : Prop where
  bytes : length < 2 ^ 63
  bits : encoding = .gorilla → 8 * length < 2 ^ 61

variable {encoding : Encoding} {type : DataType} {count most : Nat} {page : Bytes}

/-- A part of a slice is a slice. -/
theorem Fits.mono {length part : Nat} (h : Fits encoding length) (hle : part ≤ length) :
    Fits encoding part where
  bytes := Nat.lt_of_le_of_lt hle h.bytes
  bits hgorilla := Nat.lt_of_le_of_lt (Nat.mul_le_mul_left 8 hle) (h.bits hgorilla)

/-- Timestamps in the manner of any encoding. -/
theorem follows_times (hcount : count * 8 < 2 ^ 63) (h : Fits encoding most) :
    FollowsBytes most 0 (decodeTimes encoding count) (Page.decodeTimes encoding count)
      (Counted count) 0 := by
  cases encoding with
  | plain => exact Plain.follows_times hcount
  | ts2diff => exact Difference.follows64 hcount
  | gorilla => exact TimeBits.follows_times hcount (h.bits rfl)

/-- Values of every type that the encoding supports; the bound on texts is for those alone. -/
theorem follows_values (hsupports : encoding.supports type) (hcount : count * 8 < 2 ^ 63)
    (htexts : type = .text → count * 24 < 2 ^ 63) (h : Fits encoding most) :
    FollowsBytes most 0 (decodeValues encoding type count) (Page.decodeValues encoding type count)
      (Filled type count) 0 := by
  cases encoding with
  | plain => exact Plain.follows_values hcount type htexts
  | ts2diff =>
    cases type with
    | boolean | float | double | text => contradiction
    | int32 => exact (Difference.follows32 hcount).map fun as bs h => ⟨congrArg _ h.1, h.2, rfl⟩
    | int64 => exact (Difference.follows64 hcount).map fun as bs h => ⟨congrArg _ h.1, h.2, rfl⟩
  | gorilla => exact ValueBits.follows_values hsupports hcount (h.bits rfl)

/-- The timestamps and values of two sections. -/
def decodeSections (type : DataType) (encoding : Encoding) (count : Nat)
    (timeSection valueSection : Bytes) : Except Halt (List Int64 × Column) := do
  let (times, timesLeft) ← decodeTimes encoding count timeSection
  let (column, valuesLeft) ← decodeValues encoding type count valueSection
  if timesLeft.isEmpty && valuesLeft.isEmpty then return (times, column)
  else
    let left ← add 64 timesLeft.length valuesLeft.length
    .error (.fault (.corrupted (.trailingBytes left count)))

/-- How reading ends: with so many timestamps and values of their type, or with a fault. -/
inductive Ends (type : DataType) (count : Nat) :
    Except Halt (List Int64 × Column) → Except Fault (List Int64 × Column) → Prop
  | points {times : List Int64} {column : Column} (length_times : times.length = count)
      (length_column : column.length = count) (dataType : column.dataType = type) :
      Ends type count (.ok (times, column)) (.ok (times, column))
  | fault (fault : Fault) : Ends type count (.error (.fault fault)) (.error fault)

/-- In either case guarded and plain reading end alike. -/
theorem Ends.guarded_eq {guarded : Except Halt (List Int64 × Column)}
    {plain : Except Fault (List Int64 × Column)} (h : Ends type count guarded plain) :
    guarded = plain.mapError Halt.fault := by
  cases h with
  | points => rfl
  | fault => rfl

/-- Both sections are slices of the page. That something may be left of each is why their lengths
are added up, and that sum is the only one here that could leave its width. -/
theorem decodeSections_ends (hsupports : encoding.supports type) (hcount : count * 8 < 2 ^ 63)
    (htexts : type = .text → count * 24 < 2 ^ 63) {timeSection valueSection : Bytes}
    (htimes : Fits encoding timeSection.length) (hvalues : Fits encoding valueSection.length) :
    Ends type count (decodeSections type encoding count timeSection valueSection)
      (Page.decodeSections type encoding count timeSection valueSection) := by
  rw [decodeSections, Page.decodeSections]
  rcases follows_times hcount htimes (s := timeSection) ⟨Nat.zero_le _, Nat.le_refl _⟩ with
    ⟨times, _, timesLeft, hg, hp, ⟨rfl, hlength⟩, -, hle⟩ | ⟨fault, hg, hp⟩
  · rw [id, id] at hp
    rw [hg, hp, ok_bind, SeriesFile.ok_bind]
    rcases follows_values hsupports hcount htexts hvalues (s := valueSection)
        ⟨Nat.zero_le _, Nat.le_refl _⟩ with
      ⟨column, _, valuesLeft, hg', hp', ⟨rfl, hlength', htype⟩, -, hle'⟩ | ⟨fault, hg', hp'⟩
    · rw [id, id] at hp'
      simp only [hg', hp', ok_bind, SeriesFile.ok_bind]
      split
      · exact .points hlength hlength' htype
      · -- Two slices of bytes together are shorter than all addresses.
        have hbytes := htimes.bytes
        have hbytes' := hvalues.bytes
        rw [add_of_lt (by omega)]
        exact .fault _
    · rw [id] at hp'
      simp only [hg', hp']
      exact .fault fault
  · rw [id] at hp
    rw [hg, hp]
    exact .fault fault

/-- A page is taken apart by the length in front of it. -/
theorem decode_eq (h : encoding.supports type) (page : Bytes) :
    decode type encoding count page =
      match Reader.varint page with
      | .error halt => .error halt
      | .ok (length, rest) =>
        if rest.length < length.toNat then
          .error (.fault (.corrupted (.tooShort .timeSection length.toNat rest.length)))
        else
          decodeSections type encoding count (rest.take length.toNat) (rest.drop length.toNat) := by
  rw [decode, h]
  rcases Reader.varint page with halt | ⟨length, rest⟩
  · rfl
  · rw [ok_bind]
    by_cases hshort : rest.length < length.toNat
    · simp only [Reader.require, hshort, if_true]
      rfl
    · have hslice : Reader.splitAt length.toNat rest =
          .ok (rest.take length.toNat, rest.drop length.toNat) := if_pos (Nat.le_of_not_lt hshort)
      simp only [Reader.require, hshort, if_false, ok_bind, hslice]
      rfl

/-- Reading a page with every step guarded ends as reading it plainly does. -/
theorem decode_ends (hcount : count * 8 < 2 ^ 63)
    (htexts : type = .text → count * 24 < 2 ^ 63) (h : Fits encoding page.length) :
    Ends type count (decode type encoding count page) (Page.decode type encoding count page) := by
  cases hsupports : encoding.supports type with
  | false =>
    have hg : decode type encoding count page =
        .error (.fault (.encodingMismatch type encoding)) := by
      rw [decode, hsupports]
      rfl
    have hp : Page.decode type encoding count page = .error (.encodingMismatch type encoding) := by
      rw [Page.decode, hsupports]
      rfl
    rw [hg, hp]
    exact .fault _
  | true =>
    rw [decode_eq hsupports, Page.decode_eq hsupports]
    rcases FollowsBytes.varint (s := page) ⟨Nat.zero_le _, Nat.le_refl _⟩ with
      ⟨length, _, rest, hg, hp, rfl, -, hrest⟩ | ⟨fault, hg, hp⟩
    · rw [id, id] at hp
      rw [hg, hp]
      dsimp only
      split
      · exact .fault _
      -- Both sections are parts of the page, so what bounds its length bounds theirs.
      · refine decodeSections_ends hsupports hcount htexts (h.mono ?_) (h.mono ?_)
        · rw [List.length_take]
          omega
        · rw [List.length_drop]
          omega
    · rw [id] at hp
      rw [hg, hp]
      exact .fault fault

/-- Looking up the value at the place of every timestamp goes through both alongside. -/
theorem join_eq (times : List Int64) (column : Column) :
    join times column = Page.join times column := by
  suffices h : ∀ k, (times.zipIdx k).filterMap (fun timed =>
      (column.get? timed.2).map (Point.mk timed.1)) =
        List.zipWith Point.mk times (column.values.drop k) from
    h 0
  induction times with
  | nil => exact fun k => rfl
  | cons time times ih =>
    intro k
    have hnext := ih (k + 1)
    rw [List.zipIdx_cons, List.filterMap_cons, hnext, Column.get?_eq_values_getElem?]
    cases hvalue : column.values[k]? with
    | none =>
      have hend := List.getElem?_eq_none_iff.1 hvalue
      rw [List.drop_eq_nil_of_le hend, List.drop_eq_nil_of_le (Nat.le_succ_of_le hend)]
      simp
    | some value =>
      obtain ⟨hlt, rfl⟩ := List.getElem?_eq_some_iff.1 hvalue
      rw [List.drop_eq_getElem_cons hlt]
      rfl

end SeriesFile.Guarded

namespace SeriesFile.Page

open Guarded (Halt)

/-- Reading a page of any bytes for any number of points makes no misstep: it ends as plain reading
does, and all that it can stop with are faults. What is read are so many timestamps and values of
the type asked for, and so many points, each of the timestamps with the value at its place. -/
theorem decode_guarded (type : DataType) (encoding : Encoding) (count : Nat) (page : Bytes)
    (hcount : count < 2 ^ 32) (hpage : Guarded.Fits encoding page.length) :
    (∀ misstep, Guarded.decode type encoding count page ≠ .error (.misstep misstep) ∧
      Guarded.decodePoints type encoding count page ≠ .error (.misstep misstep)) ∧
    Guarded.decode type encoding count page =
      (decode type encoding count page).mapError Halt.fault ∧
    Guarded.decodePoints type encoding count page =
      (decodePoints type encoding count page).mapError Halt.fault ∧
    ∀ times column, Guarded.decode type encoding count page = .ok (times, column) →
      times.length = count ∧ column.length = count ∧ column.dataType = type ∧
      ∃ points, Guarded.decodePoints type encoding count page = .ok points ∧
        points.length = count ∧ points.map Point.time = times ∧
        points.map Point.value = column.values := by
  have hends : Guarded.Ends type count _ _ := Guarded.decode_ends (by omega) (by omega) hpage
  -- From here on only how the two readings end matters, and they end alike.
  rw [Guarded.decodePoints, decodePoints]
  generalize Guarded.decode type encoding count page = guarded,
    decode type encoding count page = plain at hends ⊢
  cases hends with
  | fault fault =>
    refine ⟨fun misstep => ?_, rfl, rfl, fun times column h => ?_⟩
    · constructor <;> intro h <;> cases h
    · cases h
  | @points times column hlength hlength' htype =>
    have hjoin := Guarded.join_eq times column
    have hparallel : times.length = column.length := hlength.trans hlength'.symm
    refine ⟨fun misstep => ?_, rfl, congrArg Except.ok hjoin, ?_⟩
    · constructor <;> intro h <;> cases h
    intro _ _ h
    cases h
    exact ⟨hlength, hlength', htype, _, rfl, by rw [hjoin, length_join hparallel, hlength],
      by rw [hjoin, times_join hparallel], by rw [hjoin, values_join hparallel]⟩

/-- Two points, the second of which is written in the window in force before there is one: the whole
word. -/
def unopenedWindow : Bytes :=
  [9, 0, 0, 0, 0, 0, 0, 0, 0, 0] ++
    [0, 0, 0, 0, 0, 0, 0, 0, 0xBF, 0xFF, 0xFF, 0xFF, 0xFF, 0xFF, 0xFF, 0xFF, 0xC0]

/-- Two points, the second of which is said to have 64 bits behind 31 that are left out. -/
def wideWindow : Bytes :=
  [9, 0, 0, 0, 0, 0, 0, 0, 0, 0] ++ [0, 0, 0, 0, 0, 0, 0, 0, 0xFF, 0xF8]

theorem decode_guarded_sample :
    Guarded.decodePoints .double .gorilla 2 unopenedWindow =
        .ok [⟨0, .double 0⟩, ⟨0, .double 0xFFFFFFFFFFFFFFFF⟩] ∧
      Guarded.decode .double .gorilla 2 wideWindow =
        .error (.fault (.corrupted .windowTooWide)) := by
  have hpoints : decodePoints .double .gorilla 2 unopenedWindow =
      .ok [⟨0, .double 0⟩, ⟨0, .double 0xFFFFFFFFFFFFFFFF⟩] := by rfl
  have hfault : decode .double .gorilla 2 wideWindow = .error (.corrupted .windowTooWide) := by rfl
  obtain ⟨-, -, heq, -⟩ := decode_guarded .double .gorilla 2 unopenedWindow (by decide)
    ⟨by decide, fun _ => by decide⟩
  obtain ⟨-, heq', -⟩ := decode_guarded .double .gorilla 2 wideWindow (by decide)
    ⟨by decide, fun _ => by decide⟩
  rw [heq, heq', hpoints, hfault]
  exact ⟨rfl, rfl⟩

end SeriesFile.Page
