import SeriesFile.Bytes.Varint

/-!
# Taking varints from bytes

Bytes begin in one of three ways (`Varint.Begins`): with a varint of at most ten bytes, with ten
bytes none of which ends one, or they are over before a varint has ended. What the two readers do is
one equation for each of them. So the readers agree (`Varint.readers_agree`): they take the same
numbers from the same bytes and refuse the same long ones, and bytes that are over are refused by
each in its own words.
-/

namespace SeriesFile

namespace Varint

/-! ### How bytes begin -/

/-- None of the bytes lacks the high bit. -/
def Unended (bytes : Bytes) : Prop :=
  ∀ b ∈ bytes, ¬b < 128

instance (bytes : Bytes) : Decidable (Unended bytes) :=
  List.decidableBAll (fun b => ¬b < 128) bytes

theorem unended_nil : Unended [] :=
  fun _ hb => nomatch hb

theorem unended_cons {b : UInt8} {bytes : Bytes} :
    Unended (b :: bytes) ↔ ¬b < 128 ∧ Unended bytes :=
  List.forall_mem_cons

/-- How bytes begin, where a varint may take `limit` of them. -/
inductive Begins (limit : Nat) : Bytes → Prop where
  | ended (taken rest : Bytes) :
    Ended taken → taken.length ≤ limit → Begins limit (taken ++ rest)
  | overlong (taken rest : Bytes) :
    Unended taken → taken.length = limit → Begins limit (taken ++ rest)
  | cut (bytes : Bytes) : Unended bytes → bytes.length < limit → Begins limit bytes

/-- Bytes begin in one of the three ways: by induction on the limit, a byte at a time. -/
theorem begins (limit : Nat) (bytes : Bytes) : Begins limit bytes := by
  induction limit generalizing bytes with
  | zero => exact .overlong [] bytes unended_nil rfl
  | succ limit ih =>
    cases bytes with
    | nil => exact .cut [] unended_nil (Nat.succ_pos limit)
    | cons b bytes =>
      by_cases hb : b < 128
      · exact .ended [b] bytes (.last hb) (Nat.succ_le_succ (Nat.zero_le limit))
      · -- The byte has the high bit, so how the others begin decides, with one byte less allowed.
        cases ih bytes with
        | ended taken rest h hlength =>
          exact .ended (b :: taken) rest (.further hb h) (Nat.succ_le_succ hlength)
        | overlong taken rest h hlength =>
          exact .overlong (b :: taken) rest (unended_cons.2 ⟨hb, h⟩) (congrArg Nat.succ hlength)
        | cut bytes h hlength =>
          exact .cut (b :: bytes) (unended_cons.2 ⟨hb, h⟩) (Nat.succ_lt_succ hlength)

/-- One byte ends if it lacks the high bit. -/
theorem ended_singleton {b : UInt8} : Ended [b] ↔ b < 128 := by
  constructor
  · intro h
    cases h with
    | last hb => exact hb
    | further _ ended => cases ended
  · exact .last

/-- In front of other bytes only one with the high bit leaves the end to them. -/
theorem ended_cons {b : UInt8} {bytes : Bytes} (hbytes : bytes ≠ []) :
    Ended (b :: bytes) ↔ ¬b < 128 ∧ Ended bytes := by
  constructor
  · intro h
    cases h with
    | last => contradiction
    | further hb ended => exact ⟨hb, ended⟩
  · rintro ⟨hb, ended⟩
    exact .further hb ended

instance decidableEnded : (bytes : Bytes) → Decidable (Ended bytes)
  | [] => .isFalse nofun
  | [_] => decidable_of_iff _ ended_singleton.symm
  | _ :: c :: bytes =>
    have := decidableEnded (c :: bytes)
    decidable_of_iff _ (ended_cons (List.cons_ne_nil c bytes)).symm

/-- Of bytes that end, those before the last do not. -/
theorem Ended.unended_front {front back : Bytes} (h : Ended (front ++ back)) (hback : back ≠ []) :
    Unended front := by
  induction front with
  | nil => exact unended_nil
  | cons b front ih =>
    obtain ⟨hb, ended⟩ := (ended_cons (List.append_ne_nil_of_right_ne_nil front hback)).1 h
    exact unended_cons.2 ⟨hb, ih ended⟩

/-- The last of bytes that end is the one without the high bit. -/
theorem Ended.last_lt {front : Bytes} {b : UInt8} (h : Ended (front ++ [b])) : b < 128 := by
  induction front with
  | nil => exact ended_singleton.1 h
  | cons c front ih =>
    obtain ⟨-, ended⟩ :=
      (ended_cons (List.append_ne_nil_of_right_ne_nil front (List.cons_ne_nil b []))).1 h
    exact ih ended

/-- Something has to be there to end. -/
theorem Ended.ne_nil {taken : Bytes} (h : Ended taken) : taken ≠ [] := by
  cases h <;> exact List.cons_ne_nil _ _

/-! ### What the readers do -/

/-- Groups that do not end within the limit are too many, and what follows them is left. -/
theorem sumGroups_of_unended {taken : Bytes} (h : Unended taken) {more : Nat}
    (hlength : taken.length = more + 1) (rest : Bytes) :
    sumGroups more (taken ++ rest) = (.error .oversizedVarint, rest) := by
  induction more generalizing taken with
  | zero =>
    obtain ⟨b, rfl⟩ := List.length_eq_one_iff.1 hlength
    have hb : ¬b < 128 := h b (.head _)
    simp [sumGroups, hb]
  | succ more ih =>
    cases taken with
    | nil => contradiction
    | cons b taken =>
      obtain ⟨hb, h⟩ := unended_cons.1 h
      simp only [List.cons_append, sumGroups, hb, if_false, ih h (Nat.succ.inj hlength)]

/-- Groups that do not end before the bytes do break off. -/
theorem sumGroups_of_cut {bytes : Bytes} (h : Unended bytes) {more : Nat}
    (hlength : bytes.length ≤ more) : sumGroups more bytes = (.error .truncatedVarint, []) := by
  induction bytes generalizing more with
  | nil => cases more <;> rfl
  | cons b bytes ih =>
    obtain ⟨hb, h⟩ := unended_cons.1 h
    cases more with
    | zero => contradiction
    | succ more =>
      simp only [sumGroups, hb, if_false, ih h (Nat.le_of_succ_le_succ hlength)]

/-- From a source the bytes are collected first, up to the limit, without a look at whether they
end. -/
theorem collect_of_unended {taken : Bytes} (h : Unended taken) (rest : Bytes) :
    collect taken.length (taken ++ rest) = (.ok taken, rest) := by
  induction taken with
  | nil => rfl
  | cons b taken ih =>
    obtain ⟨hb, h⟩ := unended_cons.1 h
    simp only [List.cons_append, List.length_cons, collect, hb, if_false, ih h]

/-- A source that is exhausted fails of itself, and there is no number to be read. -/
theorem collect_of_cut {bytes : Bytes} (h : Unended bytes) {limit : Nat}
    (hlength : bytes.length < limit) :
    collect limit bytes = (.error (.writeFailure .inputExhausted), []) := by
  induction bytes generalizing limit with
  | nil =>
    cases limit with
    | zero => contradiction
    | succ limit => rfl
  | cons b bytes ih =>
    obtain ⟨hb, h⟩ := unended_cons.1 h
    cases limit with
    | zero => contradiction
    | succ limit => simp only [collect, hb, if_false, ih h (Nat.lt_of_succ_lt_succ hlength)]

section

variable {taken bytes : Bytes}

/-- Ten bytes with the high bit are refused in memory, at the tenth. -/
theorem decode_of_unended (h : Unended taken) (hlength : taken.length = maxLength)
    (rest : Bytes) :
    decode (taken ++ rest) = (.error (.corrupted .oversizedVarint), rest) := by
  have hsum : sumGroups (maxLength - 1) (taken ++ rest) = (.error .oversizedVarint, rest) :=
    sumGroups_of_unended h hlength rest
  simp only [decode, hsum]

/-- Bytes in memory that are over too early are truncated. -/
theorem decode_of_cut (h : Unended bytes) (hlength : bytes.length < maxLength) :
    decode bytes = (.error (.corrupted .truncatedVarint), []) := by
  have hsum : sumGroups (maxLength - 1) bytes = (.error .truncatedVarint, []) :=
    sumGroups_of_cut h (Nat.le_of_lt_succ hlength)
  simp only [decode, hsum]

/-- From a source the ten bytes are collected and then refused as in memory. -/
theorem read_of_unended (h : Unended taken) (hlength : taken.length = maxLength)
    (rest : Bytes) : read (taken ++ rest) = (.error (.corrupted .oversizedVarint), rest) := by
  have hcollect : collect maxLength (taken ++ rest) = (.ok taken, rest) :=
    hlength ▸ collect_of_unended h rest
  -- They are all that is decoded, so nothing is left behind them there.
  have hdecode := decode_of_unended h hlength []
  rw [List.append_nil] at hdecode
  simp only [read, hcollect, hdecode]

/-- From a source it is the source that fails. -/
theorem read_of_cut (h : Unended bytes) (hlength : bytes.length < maxLength) :
    read bytes = (.error (.writeFailure .inputExhausted), []) := by
  simp only [read, collect_of_cut h hlength]

/-- Bytes of which no ten and no end make a varint are refused at the tenth. -/
theorem refused_of_long (h : Ended taken) (hlength : maxLength < taken.length) (rest : Bytes) :
    decode (taken ++ rest) =
        (.error (.corrupted .oversizedVarint), taken.drop maxLength ++ rest) ∧
      read (taken ++ rest) =
        (.error (.corrupted .oversizedVarint), taken.drop maxLength ++ rest) := by
  have hback : taken.drop maxLength ≠ [] := by
    rw [ne_eq, List.drop_eq_nil_iff]
    exact Nat.not_le_of_lt hlength
  rw [← List.take_append_drop maxLength taken] at h
  -- The end comes later, so the first ten bytes all have the high bit.
  have hfront : Unended (taken.take maxLength) := h.unended_front hback
  have hten : (taken.take maxLength).length = maxLength :=
    List.length_take_of_le (Nat.le_of_lt hlength)
  have hbytes : taken ++ rest =
      taken.take maxLength ++ (taken.drop maxLength ++ rest) := by
    rw [← List.append_assoc, List.take_append_drop]
  rw [hbytes]
  exact ⟨decode_of_unended hfront hten _, read_of_unended hfront hten _⟩

end

/-! ### The readers agree -/

section

variable {bytes rest : Bytes} {v : UInt64}

/-- In memory a varint is read exactly where bytes begin with one of at most ten, and it is their
value. -/
theorem decode_eq_ok_iff : decode bytes = (.ok v, rest) ↔
    ∃ taken, bytes = taken ++ rest ∧ Ended taken ∧ taken.length ≤ maxLength ∧
      v = UInt64.ofNat (value taken) := by
  constructor
  · intro hv
    -- Of the three ways to begin only one gives a number.
    cases begins maxLength bytes with
    | ended taken left h hlength =>
      rw [decode_of_ended h hlength] at hv
      cases hv
      exact ⟨taken, rfl, h, hlength, rfl⟩
    | overlong taken left h hlength =>
      rw [decode_of_unended h hlength] at hv
      cases hv
    | cut bytes h hlength =>
      rw [decode_of_cut h hlength] at hv
      cases hv
  · rintro ⟨taken, rfl, h, hlength, rfl⟩
    exact decode_of_ended h hlength rest

/-- Whatever bytes cannot be read in memory are corrupt, for no source is involved. -/
theorem decode_error {fault : Fault} (h : decode bytes = (.error fault, rest)) :
    ∃ cause, fault = .corrupted cause := by
  cases begins maxLength bytes with
  | ended taken left hended hlength =>
    rw [decode_of_ended hended hlength] at h
    cases h
  | overlong taken left hunended hlength =>
    rw [decode_of_unended hunended hlength] at h
    cases h
    exact ⟨_, rfl⟩
  | cut bytes hunended hlength =>
    rw [decode_of_cut hunended hlength] at h
    cases h
    exact ⟨_, rfl⟩

/-- From a source the same numbers are read, with the same bytes behind them. -/
theorem read_eq_ok_iff : read bytes = (.ok v, rest) ↔ decode bytes = (.ok v, rest) := by
  cases begins maxLength bytes with
  | ended taken left h hlength => rw [read_of_ended h hlength, decode_of_ended h hlength]
  | overlong taken left h hlength => rw [read_of_unended h hlength, decode_of_unended h hlength]
  | cut bytes h hlength =>
    rw [read_of_cut h hlength, decode_of_cut h hlength]
    constructor <;> exact nofun

end

/-- Bytes in memory and a source of the same bytes give the same number and leave the same bytes, at
most ten less; ten bytes that all have the high bit are refused by both as too long a varint; and
bytes that are over before are called truncated in memory, and exhausted from a source. Nothing else
is refused. -/
theorem readers_agree (bytes : Bytes) :
    (∀ v rest, read bytes = (.ok v, rest) ↔ decode bytes = (.ok v, rest)) ∧
    (∀ v rest, decode bytes = (.ok v, rest) →
      ∃ taken, bytes = taken ++ rest ∧ taken ≠ [] ∧ taken.length ≤ 10) ∧
    (∀ taken rest, bytes = taken ++ rest → taken.length = 10 → Unended taken →
      decode bytes = (.error (.corrupted .oversizedVarint), rest) ∧
      read bytes = (.error (.corrupted .oversizedVarint), rest)) ∧
    (bytes.length < 10 → Unended bytes →
      decode bytes = (.error (.corrupted .truncatedVarint), []) ∧
      read bytes = (.error (.writeFailure .inputExhausted), [])) ∧
    (∀ fault rest, decode bytes = (.error fault, rest) ∨ read bytes = (.error fault, rest) →
      (∃ taken, bytes = taken ++ rest ∧ taken.length = 10 ∧ Unended taken) ∨
      (bytes.length < 10 ∧ Unended bytes)) ∧
    Corruption.oversizedVarint.message = "varint too long" := by
  refine ⟨fun v rest => read_eq_ok_iff, ?consumed, ?overlong, ?cut, ?refused, rfl⟩
  case consumed =>
    intro v rest hv
    obtain ⟨taken, hbytes, h, hlength, -⟩ := decode_eq_ok_iff.1 hv
    exact ⟨taken, hbytes, h.ne_nil, hlength⟩
  case overlong =>
    rintro taken rest rfl hlength h
    exact ⟨decode_of_unended h hlength rest, read_of_unended h hlength rest⟩
  case cut =>
    intro hlength h
    exact ⟨decode_of_cut h hlength, read_of_cut h hlength⟩
  case refused =>
    intro fault rest hrefused
    -- Of the three ways in which bytes can begin, the first is not refused at all.
    cases begins maxLength bytes with
    | ended taken left h hlength =>
      rw [decode_of_ended h hlength, read_of_ended h hlength] at hrefused
      rcases hrefused with hrefused | hrefused <;> cases hrefused
    | overlong taken left h hlength =>
      rw [decode_of_unended h hlength, read_of_unended h hlength] at hrefused
      have hleft : left = rest := by
        rcases hrefused with hrefused | hrefused <;> cases hrefused <;> rfl
      exact .inl ⟨taken, hleft ▸ rfl, hlength, h⟩
    | cut bytes h hlength => exact .inr ⟨hlength, h⟩

/-- Three bytes of which two are taken, twelve of which ten are refused, and two that are over. -/
theorem readers_agree_sample :
    (decode [0xAC, 0x02, 7] = (.ok 300, [7]) ∧ read [0xAC, 0x02, 7] = (.ok 300, [7])) ∧
      (decode (List.replicate 10 0xFF ++ [1, 2]) = (.error (.corrupted .oversizedVarint), [1, 2]) ∧
        read (List.replicate 10 0xFF ++ [1, 2]) = (.error (.corrupted .oversizedVarint), [1, 2])) ∧
      decode [0x80, 0x80] = (.error (.corrupted .truncatedVarint), []) ∧
      read [0x80, 0x80] = (.error (.writeFailure .inputExhausted), []) := by
  have htaken : decode [0xAC, 0x02, 7] = (.ok 300, [7]) := rfl
  obtain ⟨hsame, -⟩ := readers_agree [0xAC, 0x02, 7]
  obtain ⟨-, -, hlong, -⟩ := readers_agree (List.replicate 10 0xFF ++ [1, 2])
  obtain ⟨-, -, -, hcut, -⟩ := readers_agree [0x80, 0x80]
  exact ⟨⟨htaken, (hsame _ _).2 htaken⟩, hlong _ _ rfl rfl (by decide), hcut (by decide) (by decide)⟩

end Varint

namespace Reader

section

variable {α : Type} {read : Bytes → Except Fault α × Bytes} {bytes rest : Bytes} {a : α}
  {fault : Fault}

/-- A result with the bytes left beside it is the same as one with both together. -/
theorem ofResult_eq_ok_iff : ofResult read bytes = .ok (a, rest) ↔ read bytes = (.ok a, rest) := by
  rw [ofResult]
  rcases read bytes with ⟨fault | a', left⟩
  · simp
  · simp

/-- Of a failure the bytes that are left are forgotten. -/
theorem ofResult_eq_error_iff :
    ofResult read bytes = .error fault ↔ ∃ left, read bytes = (.error fault, left) := by
  rw [ofResult]
  rcases read bytes with ⟨fault' | a, left⟩
  · simp
  · simp

end

/-- A varint in memory is its bytes, whatever follows them. -/
theorem varint_eq_ok_iff {bytes rest : Bytes} {v : UInt64} : varint bytes = .ok (v, rest) ↔
    ∃ taken, bytes = taken ++ rest ∧ Varint.Ended taken ∧ taken.length ≤ Varint.maxLength ∧
      v = UInt64.ofNat (Varint.value taken) :=
  ofResult_eq_ok_iff.trans Varint.decode_eq_ok_iff

/-- What is taken from a source is taken in memory. -/
theorem sourceVarint_eq_ok_iff {bytes rest : Bytes} {v : UInt64} :
    sourceVarint bytes = .ok (v, rest) ↔ varint bytes = .ok (v, rest) := by
  rw [sourceVarint, varint, ofResult_eq_ok_iff, ofResult_eq_ok_iff, Varint.read_eq_ok_iff]

end Reader

end SeriesFile
