import SeriesFile.Proofs.PageRoundTrip

/-!
# Pages end where their points end

A page that has lost bytes at its end, or that has gained some there, is not read as points: it is
called corrupt (`Page.decode_damaged`).

Every reader of a part of a page is careful (`Reader.Careful`): it looks no further than it reads,
and whatever goes wrong is a corruption, for where a number of fixed width is read its bytes were
counted before. So a damaged page is called corrupt unless it is read. What is read of a page is
told by its two sections alone (`Page.decode_eq_ok`): if the page is cut short, then no section of
the stated length is left, or bytes of the values are missing; and what was added to a page is left
behind the values.
-/

namespace SeriesFile

variable {α β : Type}

/-! ### Careful readers -/

namespace Reader

section

-- What is read in sequence: bytes, or bits.
variable {ι : Type}

variable {read : StateT (List ι) (Except Fault) α} {next : α → StateT (List ι) (Except Fault) β}

/-- Of two readers the first fails, or it is read and the second fails on what it left. -/
theorem bind_error {items : List ι} {fault : Fault} :
    (read >>= next) items = .error fault ↔ read items = .error fault ∨
      ∃ a left, read items = .ok (a, left) ∧ next a left = .error fault := by
  show (read items >>= fun taken => next taken.1 taken.2) = _ ↔ _
  simp only [bind_eq_error, Prod.exists]

/-- A reader that looks no further than it reads and that, with `need` items or more in front of it,
calls corrupt what it cannot read. -/
structure Careful (need : Nat) (read : StateT (List ι) (Except Fault) α) : Prop where
  isLocal : Local read
  detects : ∀ ⦃items : List ι⦄ ⦃fault : Fault⦄, need ≤ items.length → read items = .error fault →
    ∃ cause, fault = .corrupted cause

/-- Every success takes `width` items. -/
def Takes (width : Nat) (read : StateT (List ι) (Except Fault) α) : Prop :=
  ∀ ⦃items rest : List ι⦄ ⦃a : α⦄, read items = .ok (a, rest) →
    items.length = width + rest.length

/-- What is made of what was read takes the same items. -/
theorem Takes.map {width : Nat} (h : Takes width read) (f : α → β) :
    Takes width (do return f (← read)) := by
  intro items rest b hb
  obtain ⟨a, left, hr, hn⟩ := bind_ok.1 hb
  cases hn
  exact h hr

namespace Careful

/-- A reader that needs fewer items is content with more. -/
theorem mono {m n : Nat} (h : Careful m read) (hle : m ≤ n) : Careful n read where
  isLocal := h.isLocal
  detects _ _ hn := h.detects (Nat.le_trans hle hn)

/-- What reads nothing cannot fail. -/
theorem pure (a : α) : Careful 0 (Pure.pure a : StateT (List ι) (Except Fault) α) where
  isLocal := .pure a
  detects _ _ _ := nofun

/-- What follows a reader of fixed width has as many items less in front of it. -/
theorem bind_taking {m n : Nat} (h : Careful m read) (ht : Takes m read)
    (h' : ∀ a, Careful n (next a)) : Careful (m + n) (read >>= next) where
  isLocal := h.isLocal.bind fun a => (h' a).isLocal
  detects := by
    intro items fault hn hb
    rcases bind_error.1 hb with hr | ⟨a, left, hr, hb⟩
    · exact h.detects (Nat.le_of_add_right_le hn) hr
    · have hlength := ht hr
      exact (h' a).detects (by omega) hb

/-- After a reader that may take anything nothing can be promised to the next one, so that one has
to need nothing. -/
theorem bind {n : Nat} (h : Careful n read) (h' : ∀ a, Careful 0 (next a)) :
    Careful n (read >>= next) where
  isLocal := h.isLocal.bind fun a => (h' a).isLocal
  detects := by
    intro items fault hn hb
    rcases bind_error.1 hb with hr | ⟨a, left, -, hb⟩
    · exact h.detects hn hr
    · exact (h' a).detects (Nat.zero_le _) hb

/-- A function of what was read cannot fail. -/
theorem map {n : Nat} (h : Careful n read) (f : α → β) : Careful n (do return f (← read)) :=
  h.bind fun a => .pure (f a)

/-- Whichever branch is taken is careful. -/
theorem ite {p : Prop} [Decidable p] {n : Nat} {read' : StateT (List ι) (Except Fault) α}
    (h : Careful n read) (h' : Careful n read') : Careful n (if p then read else read') := by
  split
  · exact h
  · exact h'

end Careful

end

/-! ### Bytes -/

/-- A signed varint is an unsigned one, unfolded. -/
theorem signedVarint_eq :
    Reader.signedVarint = (do return Varint.unzigzag (← Reader.varint)) := by
  funext bytes
  simp only [Reader.signedVarint, Reader.varint, ofResult, Varint.decodeSigned, bind, StateT.bind]
  rcases Varint.decode bytes with ⟨fault | n, rest⟩ <;> rfl

namespace Takes

/-- A piece of so many bytes takes these and nothing else. -/
theorem take (n : Nat) : Takes n (Reader.take n) := by
  intro bytes rest front h
  simp only [Reader.take, Bytes.split?_eq] at h
  split at h
  · rename_i hn
    split at hn
    · rename_i hle
      cases hn
      cases h
      rw [List.length_drop]
      omega
    · contradiction
  · contradiction

theorem byte : Takes 1 Reader.byte := by
  intro bytes rest b h
  cases bytes with
  | nil => contradiction
  | cons b' bytes =>
    cases h
    exact Nat.add_comm _ 1

theorem u32 : Takes 4 Reader.u32 :=
  ((take 4).map Bytes.ofLittleEndian).map UInt32.ofNat

theorem u64 : Takes 8 Reader.u64 :=
  ((take 8).map Bytes.ofLittleEndian).map UInt64.ofNat

end Takes

namespace Careful

variable {read : Reader α} {n width : Nat}

/-- A reader that gives up by calling the page corrupt is careful. -/
theorem fail (cause : Corruption) : Careful 0 (Reader.fail (.corrupted cause) : Reader α) where
  isLocal := .fail _
  detects := by
    intro bytes fault _ h
    cases h
    exact ⟨cause, rfl⟩

/-- A piece of so many bytes is missing only if there are fewer. -/
theorem take (n : Nat) : Careful n (Reader.take n) where
  isLocal := .take n
  detects := by
    intro bytes fault hn h
    simp [Reader.take, Bytes.split?_eq, hn] at h

/-- One byte is missing only at the end. -/
theorem byte : Careful 1 Reader.byte where
  isLocal := .byte
  detects := by
    intro bytes fault hn h
    cases bytes <;> contradiction

theorem u32 : Careful 4 Reader.u32 :=
  ((take 4).map Bytes.ofLittleEndian).map UInt32.ofNat

theorem u64 : Careful 8 Reader.u64 :=
  ((take 8).map Bytes.ofLittleEndian).map UInt64.ofNat

/-- Behind a check of the length nothing is needed any more. -/
theorem require (part : PagePart) (h : Careful n read) :
    Careful 0 (do Reader.require part n; read) where
  isLocal := by
    -- More bytes behind do not make the check fail.
    apply Local.bind ?_ fun _ => h.isLocal
    intro bytes rest a more hr
    simp only [Reader.require] at hr ⊢
    split at hr
    · contradiction
    · cases hr
      rw [if_neg (by rw [List.length_append]; omega)]
  detects := by
    intro bytes fault _ hb
    -- Either the check fails, which is a corruption, or it leaves the bytes that the reader needs.
    rcases bind_error.1 hb with hr | ⟨_, left, hr, hb⟩
    all_goals
      simp only [Reader.require] at hr
      split at hr
    · cases hr
      exact ⟨_, rfl⟩
    · contradiction
    · contradiction
    · rename_i hn
      cases hr
      exact h.detects (Nat.le_of_not_lt hn) hb

/-- Things of a fixed width need as many bytes as all of them have: by induction, a width for
each. -/
theorem replicate (h : Careful width read) (ht : Takes width read) (count : Nat) :
    Careful (count * width) (Reader.replicate count read) := by
  induction count with
  | zero => exact (pure []).mono (Nat.zero_le _)
  | succ count ih =>
    rw [Nat.succ_mul, Nat.add_comm]
    exact h.bind_taking ht fun a => ih.map (a :: ·)

/-- Things that look for their bytes themselves need none in advance. -/
theorem replicate_zero (h : Careful 0 read) (count : Nat) :
    Careful 0 (Reader.replicate count read) := by
  induction count with
  | zero => exact pure []
  | succ count ih => exact h.bind fun a => ih.map (a :: ·)

/-- A varint that cannot be read is corrupt, whether it breaks off or is too long. -/
theorem varint : Careful 0 Reader.varint where
  isLocal := .varint
  detects := by
    intro bytes fault _ h
    obtain ⟨left, h⟩ := ofResult_eq_error_iff.1 h
    exact Varint.decode_error h

theorem signedVarint : Careful 0 Reader.signedVarint := by
  rw [signedVarint_eq]
  exact varint.map Varint.unzigzag

end Careful

end Reader

/-! ### Bits -/

namespace Bits.Reader

open SeriesFile.Reader (Careful)

/-- A bit is missing only at the end of the bits, and that is a corruption. -/
theorem careful_bit : Careful 0 bit where
  isLocal := by
    intro bits rest b more h
    cases bits with
    | nil => contradiction
    | cons b' bits =>
      cases h
      rfl
  detects := by
    intro bits fault _ h
    cases bits with
    | nil =>
      cases h
      exact ⟨_, rfl⟩
    | cons b bits => contradiction

/-- A number is read bit by bit, so wherever the bits end it is found out. -/
theorem careful_natFrom (n width : Nat) : Careful 0 (natFrom n width) := by
  induction width generalizing n with
  | zero => exact .pure n
  | succ width ih => exact careful_bit.bind fun b => ih (2 * n + b.toNat)

theorem careful_nat (width : Nat) : Careful 0 (nat width) :=
  careful_natFrom 0 width

/-- A reader of bits that calls the page corrupt is careful. -/
theorem careful_fail (cause : Corruption) :
    Careful 0 (fail (.corrupted cause) : Bits.Reader α) where
  isLocal := by
    intro bits rest a more h
    contradiction
  detects := by
    intro bits fault _ h
    cases h
    exact ⟨cause, rfl⟩

/-- Further bytes are further bits, and what is left of a byte that was begun is skipped. -/
theorem careful_onBytes {read : Bits.Reader α} (h : Careful 0 read) : Careful 0 read.onBytes where
  isLocal := by
    intro bytes rest a more hb
    simp only [onBytes] at hb ⊢
    split at hb
    · rename_i a' left hr
      -- As many whole bytes are skipped with more of them behind as without.
      have hskip : (bytes ++ more).length - (left ++ unpack more).length / 8 =
          bytes.length - left.length / 8 := by
        rw [List.length_append, List.length_append, length_unpack,
          Nat.add_mul_div_left _ _ (by decide), Nat.add_sub_add_right]
      cases hb
      rw [unpack_append, h.isLocal (unpack more) hr]
      dsimp only
      rw [hskip, List.drop_append_of_le_length (Nat.sub_le _ _)]
    · contradiction
  detects := by
    intro bytes fault _ hb
    simp only [onBytes] at hb
    split at hb
    · contradiction
    · rename_i hr
      cases hb
      exact h.detects (Nat.zero_le _) hr

end Bits.Reader

namespace Page

open Reader (Reads Takes Careful)

/-! ### Plain values -/

namespace Plain

/-- The length is checked before the first timestamp, so all of them are there or none is read. -/
theorem careful_times (count : Nat) : Careful 0 (decodeTimes count) :=
  .require _ ((Careful.u64.map UInt64.toInt64).replicate (Takes.u64.map UInt64.toInt64) count)

/-- A byte that stands for no truth value is corrupt. -/
theorem careful_boolean : Careful 1 readBoolean := by
  apply Careful.byte.bind
  intro b
  split
  · exact .pure _
  · exact .pure _
  · exact .fail _

/-- A truth value is one byte. -/
theorem takes_boolean : Takes 1 readBoolean := by
  intro bytes rest b h
  obtain ⟨first, left, hr, h⟩ := Reader.bind_ok.1 h
  rw [Takes.byte hr]
  split at h
  · cases h
    rfl
  · cases h
    rfl
  · contradiction

/-- The length of a text is read from the page itself, and is checked before its bytes are taken. -/
theorem careful_text : Careful 0 readText := by
  apply Careful.varint.bind
  intro length
  apply Careful.require
  apply (Careful.take _).bind
  intro bytes
  split
  · exact .pure _
  · exact .fail _

/-- Values of fixed width are checked together, texts one by one. -/
theorem careful_values (type : DataType) (count : Nat) : Careful 0 (decodeValues type count) := by
  have fixed {γ : Type} {width : Nat} {read : Reader γ} (h : Careful width read)
      (ht : Takes width read) (f : List γ → Column) :
      Careful 0 (do
        Reader.require .plainValues (count * width)
        return f (← Reader.replicate count read)) :=
    .require _ ((h.replicate ht count).map f)
  cases type with
  | boolean => exact fixed careful_boolean takes_boolean .boolean
  | int32 => exact fixed (Careful.u32.map UInt32.toInt32) (Takes.u32.map UInt32.toInt32) .int32
  | int64 => exact fixed (Careful.u64.map UInt64.toInt64) (Takes.u64.map UInt64.toInt64) .int64
  | float => exact fixed .u32 .u32 .float
  | double => exact fixed .u64 .u64 .double
  | text => exact (Careful.pure ()).bind fun _ => (careful_text.replicate_zero count).map Column.text

end Plain

/-! ### Differences -/

namespace Difference

/-- Differences look for their own bytes. -/
theorem careful_following64 (previous : Int64) (count : Nat) :
    Careful 0 (following64 previous count) := by
  induction count generalizing previous with
  | zero => exact .pure []
  | succ count ih =>
    apply Careful.signedVarint.bind
    intro difference
    exact (ih (previous + difference)).map ((previous + difference) :: ·)

/-- A first number behind its check, then differences. -/
theorem careful64 (count : Nat) : Careful 0 (decode64 count) := by
  cases count with
  | zero => exact .pure []
  | succ count =>
    apply Careful.require
    apply (Careful.u64.map UInt64.toInt64).bind
    intro v
    exact (careful_following64 v count).map (v :: ·)

/-- A sum that leaves 32 bits is corrupt, like a varint that breaks off. -/
theorem careful_following32 (previous : Int32) (count : Nat) :
    Careful 0 (following32 previous count) := by
  induction count generalizing previous with
  | zero => exact .pure []
  | succ count ih =>
    apply Careful.signedVarint.bind
    intro difference
    split
    · exact .fail _
    · rename_i v _
      exact (ih v).map (v :: ·)

/-- A first number behind its check, then differences. -/
theorem careful32 (count : Nat) : Careful 0 (decode32 count) := by
  cases count with
  | zero => exact .pure []
  | succ count =>
    apply Careful.require
    apply (Careful.u32.map UInt32.toInt32).bind
    intro v
    exact (careful_following32 v count).map (v :: ·)

end Difference

/-! ### Changed bits -/

namespace TimeBits

open Bits.Reader (careful_bit careful_nat)

/-- A change in one of the short forms is so many bits. -/
theorem careful_offset (width : Nat) (least : Int) : Careful 0 (readOffset width least) :=
  (careful_nat width).map fun n => Int64.ofInt (Int.ofNat n + least)

/-- Up to four bits tell the form of a change, each of them looked for. -/
theorem careful_change : Careful 0 readChange := by
  refine careful_bit.bind fun more => .ite (.pure 0) ?_
  refine careful_bit.bind fun more => .ite (careful_offset 7 (-63)) ?_
  refine careful_bit.bind fun more => .ite (careful_offset 9 (-255)) ?_
  refine careful_bit.bind fun more => .ite (careful_offset 12 (-2047)) ?_
  exact (careful_nat 64).map fun n => (UInt64.ofNat n).toInt64

/-- By induction on the number of timestamps, each of which is a change of the distance before. -/
theorem careful_following (previous distance : Int64) (count : Nat) :
    Careful 0 (readFollowing previous distance count) := by
  induction count generalizing previous distance with
  | zero => exact .pure []
  | succ count ih =>
    apply careful_change.bind
    intro change
    exact (ih _ _).map ((previous + (distance + change)) :: ·)

/-- The first timestamp stands for itself, with 64 bits. -/
theorem careful_bits (count : Nat) : Careful 0 (readBits count) := by
  cases count with
  | zero => exact .pure []
  | succ count =>
    apply (careful_nat 64).bind
    intro n
    exact (careful_following _ 0 count).map ((UInt64.ofNat n).toInt64 :: ·)

theorem careful_times (count : Nat) : Careful 0 (decode count) :=
  Bits.Reader.careful_onBytes (careful_bits count)

end TimeBits

namespace ValueBits

open Bits.Reader (careful_bit careful_nat)

/-- A window that leaves the word is corrupt. -/
theorem careful_window : Careful 0 readWindow :=
  (careful_nat 5).bind fun _ => (careful_nat 6).bind fun _ =>
    .ite (.pure _) (Bits.Reader.careful_fail _)

/-- A window has a width of its own, and its bits are looked for one by one. -/
theorem careful_inside (w : Window) : Careful 0 (readInside w) :=
  (careful_nat w.width).map fun n => UInt64.ofNat (n <<< w.trailing)

/-- One or two bits tell whether a value differs, and whether in the window of the one before it. -/
theorem careful_difference (w : Window) : Careful 0 (readDifference w) := by
  refine careful_bit.bind fun differs => .ite (.pure (0, w)) ?_
  refine careful_bit.bind fun own => .ite ((careful_inside w).map fun d => (d, w)) ?_
  exact careful_window.bind fun w => (careful_inside w).map fun d => (d, w)

/-- By induction on the number of values, each with the window that the one before it left. -/
theorem careful_following (w : Window) (previous : UInt64) (count : Nat) :
    Careful 0 (readFollowing w previous count) := by
  induction count generalizing w previous with
  | zero => exact .pure []
  | succ count ih =>
    apply (careful_difference w).bind
    intro ⟨difference, w⟩
    exact (ih w _).map ((previous ^^^ difference) :: ·)

/-- The first pattern stands for itself, with 64 bits. -/
theorem careful_patterns (count : Nat) : Careful 0 (readBits count) := by
  cases count with
  | zero => exact .pure []
  | succ count =>
    apply (careful_nat 64).bind
    intro n
    exact (careful_following ⟨0, 0⟩ _ count).map (UInt64.ofNat n :: ·)

/-- Patterns make a column of every type that they are read for. -/
theorem careful_values {type : DataType} (h : Encoding.gorilla.supports type) (count : Nat) :
    Careful 0 (decode type count) := by
  apply (Bits.Reader.careful_onBytes (careful_patterns count)).bind
  intro ps
  cases type <;> first | contradiction | exact .pure _

end ValueBits

/-! ### Whole pages -/

/-- Timestamps in the manner of any encoding. -/
theorem careful_times (encoding : Encoding) (count : Nat) :
    Careful 0 (decodeTimes encoding count) := by
  cases encoding with
  | plain => exact Plain.careful_times count
  | ts2diff => exact Difference.careful64 count
  | gorilla => exact TimeBits.careful_times count

variable {encoding : Encoding} {type : DataType} {count : Nat}

/-- Values of any type that the encoding supports. -/
theorem careful_values (h : encoding.supports type) (count : Nat) :
    Careful 0 (decodeValues encoding type count) := by
  cases encoding with
  | plain => exact Plain.careful_values type count
  | ts2diff =>
    cases type with
    | int32 => exact (Difference.careful32 count).map Column.int32
    | int64 => exact (Difference.careful64 count).map Column.int64
    | boolean | float | double | text => contradiction
  | gorilla => exact ValueBits.careful_values h count

/-- The timestamps and values of two sections. -/
def decodeSections (type : DataType) (encoding : Encoding) (count : Nat)
    (timeSection valueSection : Bytes) : Except Fault (List Int64 × Column) := do
  let (times, timesLeft) ← decodeTimes encoding count timeSection
  let (column, valuesLeft) ← decodeValues encoding type count valueSection
  if timesLeft.isEmpty && valuesLeft.isEmpty then return (times, column)
  else .error (.corrupted (.trailingBytes (timesLeft.length + valuesLeft.length) count))

/-- A page is taken apart by the length in front of it. -/
theorem decode_eq (h : encoding.supports type) (page : Bytes) :
    decode type encoding count page =
      match Reader.varint page with
      | .error fault => .error fault
      | .ok (length, rest) =>
        if rest.length < length.toNat then
          .error (.corrupted (.tooShort .timeSection length.toNat rest.length))
        else
          decodeSections type encoding count (rest.take length.toNat) (rest.drop length.toNat) := by
  rw [decode, h]
  rcases Reader.varint page with fault | ⟨length, rest⟩
  · rfl
  · rw [ok_bind]
    -- The length of the time section decides between a fault and two sections.
    by_cases hshort : rest.length < length.toNat
    · simp only [Reader.require, hshort, if_true]
      rfl
    · have htake : Reader.take length.toNat rest =
          .ok (rest.take length.toNat, rest.drop length.toNat) := by
        simp only [Reader.take, Bytes.split?_eq, if_pos (Nat.le_of_not_lt hshort)]
      simp only [Reader.require, hshort, if_false, ok_bind, htake]
      rfl

variable {times : List Int64} {column : Column} {timeSection valueSection page : Bytes}

/-- Both sections are read to their ends. -/
theorem decodeSections_eq_ok :
    decodeSections type encoding count timeSection valueSection = .ok (times, column) ↔
      decodeTimes encoding count timeSection = .ok (times, []) ∧
        decodeValues encoding type count valueSection = .ok (column, []) := by
  rw [decodeSections]
  rcases decodeTimes encoding count timeSection with fault | ⟨times', timesLeft⟩
  · show Except.error fault = _ ↔ _
    simp
  rcases decodeValues encoding type count valueSection with fault | ⟨column', valuesLeft⟩
  · show Except.error fault = _ ↔ _
    simp
  -- Both were read; it remains to compare what is left of each with nothing.
  show (if timesLeft.isEmpty && valuesLeft.isEmpty then Except.ok (times', column')
    else .error _) = _ ↔ _
  cases timesLeft <;> cases valuesLeft <;> simp

/-- What goes wrong in the sections is a corruption: in the times, in the values, or because
something is left of one of them. -/
theorem decodeSections_error (h : encoding.supports type) {fault : Fault}
    (hd : decodeSections type encoding count timeSection valueSection = .error fault) :
    ∃ cause, fault = .corrupted cause := by
  rcases bind_eq_error.1 hd with ht | ⟨⟨times, timesLeft⟩, -, hd⟩
  · exact (careful_times encoding count).detects (Nat.zero_le _) ht
  rcases bind_eq_error.1 hd with hv | ⟨⟨column, valuesLeft⟩, -, hd⟩
  · exact (careful_values h count).detects (Nat.zero_le _) hv
  dsimp only at hd
  split at hd
  · contradiction
  · cases hd
    exact ⟨_, rfl⟩

/-- Of a type that the encoding supports, a page is read or corrupt. -/
theorem decode_error (h : encoding.supports type) {fault : Fault}
    (hd : decode type encoding count page = .error fault) : ∃ cause, fault = .corrupted cause := by
  rw [decode_eq h] at hd
  split at hd
  · rename_i hv
    cases hd
    exact Careful.varint.detects (Nat.zero_le _) hv
  split at hd
  · cases hd
    exact ⟨_, rfl⟩
  · exact decodeSections_error h hd

/-- What is read of a page is read of its two sections, each to its end. -/
theorem decode_eq_ok (h : encoding.supports type) :
    decode type encoding count page = .ok (times, column) ↔
      ∃ length rest, Reader.varint page = .ok (length, rest) ∧ length.toNat ≤ rest.length ∧
        decodeTimes encoding count (rest.take length.toNat) = .ok (times, []) ∧
        decodeValues encoding type count (rest.drop length.toNat) = .ok (column, []) := by
  rw [decode_eq h]
  constructor
  · intro hd
    split at hd
    · contradiction
    · rename_i length rest hv
      split at hd
      · contradiction
      · rename_i hle
        exact ⟨length, rest, hv, Nat.le_of_not_lt hle, decodeSections_eq_ok.1 hd⟩
  · rintro ⟨length, rest, hv, hle, hsections⟩
    rw [hv]
    dsimp only
    rw [if_neg (Nat.not_lt.2 hle)]
    exact decodeSections_eq_ok.2 hsections

/-! ### Damaged pages -/

section

variable (h : encode encoding times column = .ok page) (fits : Addressable (join times column))
include h fits

/-- What follows a page is left when its points have been read. -/
theorem decode_append (more : Bytes) (hmore : more ≠ []) :
    decode column.dataType encoding times.length (page ++ more) =
      .error (.corrupted (.trailingBytes more.length times.length)) := by
  obtain ⟨hsupports, hlength, rfl⟩ := encode_ok h
  have htimes := fits.length_encodeTimes_lt hlength encoding
  have hreadTimes := reads_times encoding times []
  have hreadValues := reads_values hsupports (fits.textsFit hlength) more
  rw [List.append_nil] at hreadTimes
  rw [← hlength] at hreadValues
  -- The length still separates the two sections, and the further bytes go to the second.
  rw [decode_eq hsupports, List.append_assoc, List.append_assoc, Reads.varint]
  dsimp only
  rw [UInt64.toNat_ofNat_of_lt' htimes, if_neg (by rw [List.length_append]; omega),
    List.take_left, List.drop_left, decodeSections, hreadTimes, ok_bind]
  dsimp only
  rw [hreadValues, ok_bind]
  simp [hmore]

/-- A page that is cut short is not read. -/
theorem decode_front {front : Bytes} (hf : front <+: page) (hne : front ≠ page) :
    ∃ cause, decode column.dataType encoding times.length front = .error (.corrupted cause) := by
  obtain ⟨hsupports, hlength, rfl⟩ := encode_ok h
  rcases hd : decode column.dataType encoding times.length front with fault | ⟨times', column'⟩
  · obtain ⟨cause, rfl⟩ := decode_error hsupports hd
    exact ⟨cause, rfl⟩
  · -- The length was read, so the front goes on with it, and only the sections can be cut.
    obtain ⟨length, rest, hvarint, hle, -, hvalues⟩ := (decode_eq_ok hsupports).1 hd
    rw [List.append_assoc] at hf hne
    obtain ⟨rfl, rfl⟩ := (Reads.varint _).eq_append Careful.varint.isLocal hf hvarint
    rw [UInt64.toNat_ofNat_of_lt' (fits.length_encodeTimes_lt hlength encoding)] at hle hvalues
    have hrest : rest <+: encodeTimes encoding times ++ encodeValues encoding column :=
      (List.prefix_append_right_inj _).1 hf
    obtain ⟨values, rfl⟩ : encodeTimes encoding times <+: rest :=
      List.prefix_of_prefix_length_le (List.prefix_append _ _) hrest hle
    rw [List.drop_left] at hvalues
    obtain ⟨fault, hfault⟩ := (reads_values hsupports (fits.textsFit hlength)).error_of_front
      (careful_values hsupports column.length).isLocal
      ((List.prefix_append_right_inj _).1 hrest) fun heq => hne (by rw [heq])
    rw [← hlength, hvalues] at hfault
    contradiction

end

/-- Whatever is written in an encoding that supports its type makes a page of which no proper front
is read, and nothing that goes on behind it: all of these are corrupt. -/
theorem decode_damaged (h : encoding.supports type) (times : List Int64) (column : Column)
    (htype : column.dataType = type) (hlength : times.length = column.length) :
    ∃ page, encode encoding times column = .ok page ∧
      (Addressable (join times column) →
        (∀ front, front <+: page → front ≠ page →
          ∃ cause, decode type encoding times.length front = .error (.corrupted cause)) ∧
        ∀ more, more ≠ [] → decode type encoding times.length (page ++ more) =
          .error (.corrupted (.trailingBytes more.length times.length))) := by
  subst htype
  obtain ⟨page, hpage⟩ := encode_supported h hlength
  exact ⟨page, hpage, fun fits =>
    ⟨fun front hf hne => decode_front hpage fits hf hne, decode_append hpage fits⟩⟩

/-- Two timestamps with two numbers make 25 bytes: every cut through the length, the time section
and the values is found out, and so is a zero behind the last bits. -/
theorem decode_damaged_sample :
    ∃ page, encode .gorilla [5, 7] (.int32 [1, -1]) = .ok page ∧ page.length = 25 ∧
      (∀ n < 25, ∃ cause,
        decode .int32 .gorilla 2 (page.take n) = .error (.corrupted cause)) ∧
      decode .int32 .gorilla 2 (page ++ [0]) = .error (.corrupted (.trailingBytes 1 2)) := by
  have hsupports : Encoding.gorilla.supports .int32 := rfl
  obtain ⟨page, hpage, hdamaged⟩ :=
    decode_damaged hsupports [5, 7] (.int32 [1, -1]) rfl rfl
  have hlength : page.length = 25 := by
    cases hpage
    rfl
  obtain ⟨hfront, happend⟩ := hdamaged ⟨by decide, by simp [join, Column.values]⟩
  refine ⟨page, hpage, hlength, fun n hn => hfront _ (List.take_prefix n page) ?_,
    happend [0] (by simp)⟩
  intro heq
  have hcut := congrArg List.length heq
  rw [List.length_take] at hcut
  omega

end Page

end SeriesFile
